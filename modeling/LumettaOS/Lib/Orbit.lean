import Mathlib

/-! Runs of a total step function: what holds in every state of the run, what holds in
some, and how both pass along a stretch of steps. -/

namespace LumettaOS.Lib.Orbit

variable {σ : Type*} (f : σ → σ) (P Q : σ → Prop)

def Always (s : σ) : Prop := ∀ n, P (f^[n] s)

def Eventually (s : σ) : Prop := ∃ n, Q (f^[n] s)

/-- One step or more from `s` to `t`, with `P` in every state between the two. -/
inductive Leads : σ → σ → Prop
  | step (s : σ) : Leads s (f s)
  | next {s t : σ} : P (f s) → Leads (f s) t → Leads s t

variable {f P Q} {s t : σ}

theorem always_next (h : P s) : Always f P s ↔ Always f P (f s) := by
  refine ⟨fun all n => ?_, fun all n => ?_⟩
  · rw [← Function.iterate_succ_apply]
    exact all (n + 1)
  · cases n with
    | zero => exact h
    | succ n =>
      rw [Function.iterate_succ_apply]
      exact all n

theorem eventually_next (still : ∀ s, Q s → f s = s) :
    Eventually f Q s ↔ Eventually f Q (f s) := by
  refine ⟨fun ⟨n, hn⟩ => ?_, fun ⟨n, hn⟩ => ⟨n + 1, ?_⟩⟩
  · cases n with
    | zero => exact ⟨0, by rw [Function.iterate_zero, id, still s hn]; exact hn⟩
    | succ n => exact ⟨n, by rwa [Function.iterate_succ_apply] at hn⟩
  · rwa [Function.iterate_succ_apply]

namespace Leads

theorem always_iff (h : Leads f P s t) (here : P s) : Always f P s ↔ Always f P t := by
  induction h with
  | step s => exact always_next here
  | next between _ ih => exact (always_next here).trans (ih between)

theorem eventually_iff (still : ∀ s, Q s → f s = s) (h : Leads f P s t) :
    Eventually f Q s ↔ Eventually f Q t := by
  induction h with
  | step s => exact eventually_next still
  | next _ _ ih => exact (eventually_next still).trans ih

theorem reaches (h : Leads f P s t) : ∃ n, f^[n] s = t := by
  induction h with
  | step s => exact ⟨1, rfl⟩
  | next _ _ ih =>
    obtain ⟨n, hn⟩ := ih
    exact ⟨n + 1, by rwa [Function.iterate_succ_apply]⟩

end Leads

end LumettaOS.Lib.Orbit
