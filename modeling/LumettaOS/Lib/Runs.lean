import Mathlib

/-! Runs of a partial transition function. A step that gives `none` never
returns, so a run through it reaches no state. Invariants may depend on a
condition that every step of the run meets in the state before it. -/

namespace LumettaOS.Lib.Runs

variable {σ ε : Type*}

/-- The state after the events, if every one of them completes. -/
def run (step : ε → σ → Option σ) : List ε → σ → Option σ
  | [], s => some s
  | e :: es, s => (step e s).bind (run step es)

variable {step : ε → σ → Option σ}

@[simp] theorem run_nil (s : σ) : run step [] s = some s := rfl

theorem run_cons (e : ε) (es : List ε) (s : σ) :
    run step (e :: es) s = (step e s).bind (run step es) := rfl

theorem run_append (es fs : List ε) (s : σ) :
    run step (es ++ fs) s = (run step es s).bind (run step fs) := by
  induction es generalizing s with
  | nil => rfl
  | cons e es ih =>
    simp only [List.cons_append, run_cons]
    cases step e s with
    | none => rfl
    | some s' => exact ih s'

theorem run_cons_some {e : ε} {es : List ε} {s t : σ} (h : run step (e :: es) s = some t) :
    ∃ s', step e s = some s' ∧ run step es s' = some t :=
  Option.bind_eq_some_iff.mp h

/-- Every step of the run meets `ok` in the state it starts from. -/
def Along (step : ε → σ → Option σ) (ok : ε → σ → Prop) : List ε → σ → Prop
  | [], _ => True
  | e :: es, s => ok e s ∧ ∀ s', step e s = some s' → Along step ok es s'

theorem along_cons {ok : ε → σ → Prop} {e : ε} {es : List ε} {s s' : σ} (h : ok e s)
    (hs : step e s = some s') (rest : Along step ok es s') : Along step ok (e :: es) s := by
  refine ⟨h, fun u hu => ?_⟩
  rw [hs, Option.some_inj] at hu
  exact hu ▸ rest

/-- An invariant kept by every step that meets `ok` holds after such a run. -/
theorem invariant_along {ok : ε → σ → Prop} {I : σ → Prop}
    (keep : ∀ e s s', I s → ok e s → step e s = some s' → I s')
    {es : List ε} {s t : σ} (h : Along step ok es s) (hr : run step es s = some t)
    (hs : I s) : I t := by
  induction es generalizing s with
  | nil =>
    rw [run_nil, Option.some_inj] at hr
    exact hr ▸ hs
  | cons e es ih =>
    obtain ⟨s', he, hr⟩ := run_cons_some hr
    exact ih (h.2 s' he) hr (keep e s s' hs h.1 he)

theorem along_of_forall {ok : ε → Prop} {es : List ε} (h : ∀ e ∈ es, ok e) (s : σ) :
    Along step (fun e _ => ok e) es s := by
  induction es generalizing s with
  | nil => trivial
  | cons e es ih =>
    exact ⟨h e (by simp), fun s' _ => ih (fun e' he => h e' (by simp [he])) s'⟩

theorem along_of_invariant {ok : ε → σ → Prop} {I : σ → Prop} (here : ∀ e s, I s → ok e s)
    (keep : ∀ e s s', I s → step e s = some s' → I s') (es : List ε) {s : σ} (hs : I s) :
    Along step ok es s := by
  induction es generalizing s with
  | nil => trivial
  | cons e es ih => exact ⟨here e s hs, fun s' he => ih (keep e s s' hs he)⟩

theorem along_true (es : List ε) (s : σ) : Along step (fun _ _ => True) es s :=
  along_of_forall (fun _ _ => trivial) s

theorem along_and {ok ok' : ε → σ → Prop} {es : List ε} {s : σ} (h : Along step ok es s)
    (h' : Along step ok' es s) : Along step (fun e s => ok e s ∧ ok' e s) es s := by
  induction es generalizing s with
  | nil => trivial
  | cons e es ih => exact ⟨⟨h.1, h'.1⟩, fun s' he => ih (h.2 s' he) (h'.2 s' he)⟩

theorem along_congr {given ok ok' : ε → σ → Prop} {I : σ → Prop}
    (agree : ∀ e s, I s → given e s → (ok e s ↔ ok' e s))
    (keep : ∀ e s s', I s → given e s → ok e s → step e s = some s' → I s') {es : List ε} {s : σ}
    (hg : Along step given es s) (hs : I s) : Along step ok es s ↔ Along step ok' es s := by
  induction es generalizing s with
  | nil => exact Iff.rfl
  | cons e es ih =>
    have here := agree e s hs hg.1
    refine ⟨fun h => ⟨here.mp h.1, fun s' he => ?_⟩, fun h => ⟨here.mpr h.1, fun s' he => ?_⟩⟩
    · exact (ih (hg.2 s' he) (keep e s s' hs hg.1 h.1 he)).mp (h.2 s' he)
    · exact (ih (hg.2 s' he) (keep e s s' hs hg.1 (here.mpr h.1) he)).mpr (h.2 s' he)

theorem invariant {I : σ → Prop} (keep : ∀ e s s', I s → step e s = some s' → I s')
    {es : List ε} {s t : σ} (hr : run step es s = some t) (hs : I s) : I t :=
  invariant_along (fun e s s' h _ => keep e s s' h) (along_true es s) hr hs

theorem loop_invariant {body : σ → Nat → σ} {I : Nat → σ → Prop} {s : σ} (n : Nat) (first : I 0 s)
    (next : ∀ i s, i < n → I i s → I (i + 1) (body s i)) : I n ((List.range n).foldl body s) := by
  induction n with
  | zero => exact first
  | succ n ih =>
    rw [List.range_succ, List.foldl_concat]
    exact next n _ (by omega) (ih fun i s hi => next i s (by omega))

end LumettaOS.Lib.Runs
