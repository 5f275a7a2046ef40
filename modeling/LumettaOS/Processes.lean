import LumettaOS.Slots

/-! What one process can see or change of another. A child never touches the block
of its parent. The descriptors of a new process are those its slot was left with,
as far as neither clean-up loop reaches them: 6 and 7. -/

namespace LumettaOS.System
open Lib.Runs Execute FileCalls

section Parent

variable {img : Image} {behind : Memory} {f : Frame} {m : Machine} {s₀ s s₁ s₂ : System}

/-- While `r` waits, its block is `p` and the running process is above it. -/
def Waits (r : Fin 6) (p : Pcb) (s : System) : Prop :=
  ∃ q, Stacked q s ∧ r.val ≤ q.val ∧ s.machine.pcbs r = p

theorem Effect.pcb_other {r q : Fin 6} {m m' : Machine} {c : SysCall} {o : Outcome}
    (h : Effect q m c o m') (below : r.val < q.val) : m'.pcbs r = m.pcbs r := by
  have ne : r ≠ q := fun e => by omega
  cases h with
  | stays v m' table pcb tss paging => rw [pcb, Function.update_of_ne ne]
  | starts k e l args f next saved live => exact install_pcb_other _ _ _ _ (by omega)
  | halts p status prev halting => exact Machine.setPcb_other _ _ ne
  | restarts e l args f root halting =>
    rw [install_pcb_other _ _ _ _ ne, prepareRoot_pcb_other ne, Machine.setPcb_other _ _ ne]

theorem Effect.top {q q' : Fin 6} {c : SysCall} {o : Outcome} {m' : Machine}
    (st : Stacked q s) (h : Effect q s.machine c o m')
    (st' : Stacked q' ⟨m', leave s.control o⟩) :
    q.val ≤ q'.val + 1 ∧ (¬ Halting c → q.val ≤ q'.val) := by
  have top := st'.control
  cases h with
  | stays v m' table pcb tss paging =>
    have same : some q = some q' := st.control.symm.trans top
    have same := Option.some_inj.mp same
    omega
  | starts k e l args f next saved live =>
    have same : k = q' := Option.some_inj.mp top
    omega
  | halts p status prev halting =>
    have own : getPcb (s.machine.pcbs q).savedEsp = some q' := by
      simpa [resumeParent, leave, closed, Pcb.setDesc] using top
    rw [st.blocks.saved q p (by omega) prev, Option.some_inj] at own
    exact ⟨by omega, fun live => absurd halting live⟩
  | restarts e l args f root halting =>
    have same : q = q' := Option.some_inj.mp top
    exact ⟨by omega, fun live => absurd halting live⟩

theorem step_waits (shell : HasShell img) {r : Fin 6} {p : Pcb} (e : Event) (s s' : System)
    (h : Waits r p s) (away : s.control ≠ some r) (hs : step img e s = some s') :
    Waits r p s' := by
  obtain ⟨q, st, above, same⟩ := h
  have strict : r.val < q.val := by
    have ne : q ≠ r := fun e => away (e ▸ st.control)
    omega
  rcases step_cases hs with ⟨en, c, o, m', -, hc, rfl⟩ | ⟨dev, rfl⟩
  · have effect := st.effect shell hc
    obtain ⟨q', st'⟩ := st.keep effect
    have near := (effect.top st st').1
    exact ⟨q', st', by omega, (effect.pcb_other strict).trans same⟩
  · exact ⟨q, st.withDevices dev, above, same⟩

/-- Process `r` starts a child; whatever the child and its descendants do, when
control first is back on the stack of `r` its block, the TSS and the program page
are what they were. -/
theorem child_keeps_parent (zero : ∀ i, (m.pcbs i).active = 0)
    (hboot : boot img behind f m = some s₀) {before : List Event}
    (hbefore : run (step img) before s₀ = some s) {r : Fin 6} (hr : s.control = some r)
    {en : Entry} {command : Memory} (live : parse command ≠ .quit) {k : Fin 6} {e : Word}
    {l : List (Word × Byte)} {m₁ : Machine}
    (hexec : sysCall img en (.execute command) s.machine = some (.starts k e l, m₁))
    {child : List Event}
    (away : Along (step img) (fun _ s => s.control ≠ some r) child ⟨m₁, some k⟩)
    (hchild : run (step img) child ⟨m₁, some k⟩ = some s₂) (back : s₂.control = some r) :
    s₂.machine.pcbs r = s.machine.pcbs r ∧ s₂.machine.tss = s.machine.tss ∧
      s₂.machine.paging.pageDir 32 = s.machine.paging.pageDir 32 := by
  have shell := (boot_cases zero hboot).1.hasShell
  obtain ⟨r', st⟩ := run_stacked zero hboot hbefore
  have own : r' = r := Option.some_inj.mp (st.control.symm.trans hr)
  subst own
  have effect := st.effect shell hexec
  have started : Waits r' (s.machine.pcbs r') ⟨m₁, some k⟩ := by
    obtain ⟨q, st'⟩ := st.keep effect
    have top : k = q := Option.some_inj.mp st'.control
    cases effect with
    | starts k e l args f next saved live =>
      exact ⟨q, st', by omega, install_pcb_other _ _ _ _ (by omega)⟩
    | restarts e l args f root halting => exact absurd halting live
  obtain ⟨q, st₂, -, same⟩ := invariant_along (step_waits shell) away hchild started
  have top : q = r' := Option.some_inj.mp (st₂.control.symm.trans back)
  subst top
  exact ⟨same, st₂.tss.trans st.tss.symm, st₂.paging.trans st.paging.symm⟩

theorem child_keeps_parent_sample :
    ∃ s₀ k e l m₁ s₂, boot (Image.sample 0) (fun _ => 0) ⟨0x7FFF00, 0⟩ coldStart = some s₀ ∧
      sysCall (Image.sample 0) Entry.quiet (.execute shellText) s₀.machine =
        some (.starts k e l, m₁) ∧
      run (step (Image.sample 0)) [.call Entry.quiet (.halt 3)] ⟨m₁, some k⟩ = some s₂ ∧
      s₂.control = some 0 ∧ s₂.machine.pcbs 0 = s₀.machine.pcbs 0 := by
  have trace : ∃ s₀ k e l m₁ s₂,
      boot (Image.sample 0) (fun _ => 0) ⟨0x7FFF00, 0⟩ coldStart = some s₀ ∧
      sysCall (Image.sample 0) Entry.quiet (.execute shellText) s₀.machine =
        some (.starts k e l, m₁) ∧
      run (step (Image.sample 0)) [.call Entry.quiet (.halt 3)] ⟨m₁, some k⟩ = some s₂ ∧
      s₂.control = some 0 ∧ k ≠ 0 := by
    refine ⟨_, _, _, _, _, _, rfl, rfl, rfl, rfl, ?_⟩
    decide
  obtain ⟨s₀, k, e, l, m₁, s₂, hboot, hexec, hchild, back, ne⟩ := trace
  have zero : ∀ i, (coldStart.pcbs i).active = 0 := fun _ => rfl
  have now : run (step (Image.sample 0)) [] s₀ = some s₀ := rfl
  have away : Along (step (Image.sample 0)) (fun _ s => s.control ≠ some 0)
      [.call Entry.quiet (.halt 3)] ⟨m₁, some k⟩ :=
    ⟨fun h => ne (Option.some_inj.mp h), fun _ _ => trivial⟩
  refine ⟨s₀, k, e, l, m₁, s₂, hboot, hexec, hchild, back, ?_⟩
  exact (child_keeps_parent zero hboot now (boot_stacked zero hboot).control
    parse_shellText_ne_quit hexec away hchild back).1

end Parent

section Descriptors

variable {img : Image} {behind : Memory} {f : Frame} {m : Machine} {s₀ s : System}

def HighClosed (p : Pcb) : Prop := (p.fileDescTb 6).flag = 0 ∧ (p.fileDescTb 7).flag = 0

/-- A process that ends in this event has its descriptors 6 and 7 closed. -/
def EndsClosed : Event → System → Prop
  | .call _ c, s => Halting c → ∀ r, s.control = some r → HighClosed (s.machine.pcbs r)
  | _, _ => True

def FreeClosed (s : System) : Prop :=
  (∃ r, Stacked r s) ∧ ∀ i, (s.machine.pcbs i).active = 0 → HighClosed (s.machine.pcbs i)

theorem newPcb_fresh {p : Pcb} (h : HighClosed p) (args : Memory) (slot : Fin 6) (f : Frame)
    (dev : Devices) : FreshTable ⟨newPcb (putArgs args p) slot f, dev⟩ := by
  intro i
  change (newTable p.fileDescTb i).flag = _
  rw [newTable]
  split
  · rfl
  · split
    · rfl
    · have high : i = 6 ∨ i = 7 := by omega
      rcases high with rfl | rfl
      · exact h.1
      · exact h.2

theorem HighClosed.closed {p : Pcb} (h : HighClosed p) : HighClosed (closed p) := h

theorem boot_freeClosed (zero : ∀ i, (m.pcbs i).active = 0) (clear : ∀ i, HighClosed (m.pcbs i))
    (h : boot img behind f m = some s) : FreeClosed s := by
  refine ⟨⟨0, boot_stacked zero h⟩, fun i hi => ?_⟩
  obtain ⟨-, args, rfl⟩ := boot_cases zero h
  by_cases e : i = 0
  · subst e
    simp [newPcb] at hi
  · rw [install_pcb_other _ _ _ _ e]
    exact clear i

theorem Effect.freeClosed {r : Fin 6} {m m' : Machine} {c : SysCall} {o : Outcome}
    (h : Effect r m c o m') (top : (m.pcbs r).active ≠ 0)
    (ends : Halting c → HighClosed (m.pcbs r))
    (free : ∀ i, (m.pcbs i).active = 0 → HighClosed (m.pcbs i)) :
    ∀ i, (m'.pcbs i).active = 0 → HighClosed (m'.pcbs i) := by
  intro i hi
  cases h with
  | stays v m' table pcb tss paging =>
    by_cases e : i = r
    · rw [pcb, e, Function.update_self] at hi
      exact absurd hi top
    · rw [pcb, Function.update_of_ne e] at hi ⊢
      exact free i hi
  | starts k e l args f next saved live =>
    by_cases e : i = k
    · subst e
      simp [newPcb] at hi
    · rw [install_pcb_other _ _ _ _ e] at hi ⊢
      exact free i hi
  | halts q status prev halting =>
    change ((m.setPcb r (closed (m.pcbs r))).pcbs i).active = 0 at hi
    change HighClosed ((m.setPcb r (closed (m.pcbs r))).pcbs i)
    by_cases e : i = r
    · rw [e, Machine.setPcb_same]
      exact (ends halting).closed
    · rw [Machine.setPcb_other _ _ e] at hi ⊢
      exact free i hi
  | restarts e l args f root halting =>
    by_cases e : i = r
    · subst e
      simp [newPcb] at hi
    · rw [install_pcb_other _ _ _ _ e, prepareRoot_pcb_other e, Machine.setPcb_other _ _ e] at hi ⊢
      exact free i hi

theorem step_freeClosed (shell : HasShell img) (e : Event) (s s' : System) (h : FreeClosed s)
    (ends : EndsClosed e s) (hs : step img e s = some s') : FreeClosed s' := by
  refine ⟨step_stacked shell e s s' h.1 hs, ?_⟩
  obtain ⟨⟨r, st⟩, free⟩ := h
  rcases step_cases hs with ⟨en, c, o, m', rfl, hc, rfl⟩ | ⟨dev, rfl⟩
  · exact (st.effect shell hc).freeClosed ((st.blocks.active r).mpr (by omega))
      (fun halting => ends halting r st.control) free
  · exact free

/-- A process that was just started has descriptors 0 and 1 open and no other, in
every run in which no process ends with descriptor 6 or 7 open. -/
theorem new_process_fresh (zero : ∀ i, (m.pcbs i).active = 0) (clear : ∀ i, HighClosed (m.pcbs i))
    (hboot : boot img behind f m = some s₀) {events : List Event}
    (ends : Along (step img) EndsClosed events s₀) (hrun : run (step img) events s₀ = some s) :
    FreshTable ⟨s₀.machine.pcbs 0, s₀.machine.dev⟩ ∧
    ∀ en c k e l m', EndsClosed (.call en c) s →
      sysCall img en c s.machine = some (.starts k e l, m') →
      FreshTable ⟨m'.pcbs k, m'.dev⟩ := by
  obtain ⟨fits, args, started⟩ := boot_cases zero hboot
  refine ⟨?_, fun en c k e l m' last hc => ?_⟩
  · rw [started]
    simp only [install_pcb]
    exact newPcb_fresh (clear 0) _ _ _ _
  · obtain ⟨⟨r, st⟩, free⟩ := invariant_along (step_freeClosed fits.hasShell) ends hrun
      (boot_freeClosed zero clear hboot)
    cases st.effect fits.hasShell hc with
    | starts k e l args f next saved live =>
      rw [install_pcb]
      exact newPcb_fresh (free k (st.blocks.inactive (by omega))) _ _ _ _
    | restarts e l args f root halting =>
      rw [install_pcb, prepareRoot_pcb, Machine.setPcb_same]
      exact newPcb_fresh (last halting _ st.control).closed _ _ _ _

theorem new_process_fresh_sample :
    ∃ s₀ k e l m', boot (Image.sample 0) (fun _ => 0) ⟨0x7FFF00, 0⟩ coldStart = some s₀ ∧
      sysCall (Image.sample 0) Entry.quiet (.execute shellText) s₀.machine =
        some (.starts k e l, m') ∧ FreshTable ⟨m'.pcbs k, m'.dev⟩ := by
  have trace : ∃ s₀ k e l m',
      boot (Image.sample 0) (fun _ => 0) ⟨0x7FFF00, 0⟩ coldStart = some s₀ ∧
      sysCall (Image.sample 0) Entry.quiet (.execute shellText) s₀.machine =
        some (.starts k e l, m') := ⟨_, _, _, _, _, rfl, rfl⟩
  obtain ⟨s₀, k, e, l, m', hboot, hexec⟩ := trace
  have live : EndsClosed (.call Entry.quiet (.execute shellText)) s₀ :=
    fun quit => absurd quit parse_shellText_ne_quit
  have now : run (step (Image.sample 0)) [] s₀ = some s₀ := rfl
  have none_ : Along (step (Image.sample 0)) EndsClosed [] s₀ := trivial
  refine ⟨s₀, k, e, l, m', hboot, hexec, ?_⟩
  exact (new_process_fresh (fun _ => rfl) (fun _ => ⟨rfl, rfl⟩) hboot none_ now).2
    _ _ _ _ _ _ live hexec

def dotText : Memory := CString.literal [0x2E] fun _ => 0

def fillTable : List Event :=
  .call Entry.quiet (.execute shellText) ::
    List.replicate 6 (.call Entry.quiet (.file (.open dotText))) ++ [.call Entry.quiet (.halt 0)]

def highFlags : Outcome × Machine → Option (Word × Word)
  | (.starts k _ _, m) =>
    some (((m.pcbs k).fileDescTb 6).flag, ((m.pcbs k).fileDescTb 7).flag)
  | _ => none

/-- The next program in that slot finds descriptors 6 and 7 open. -/
theorem new_process_inherits :
    ∃ s₀ s k e l m', boot (Image.sample 0) (fun _ => 0) ⟨0x7FFF00, 0⟩ coldStart = some s₀ ∧
      run (step (Image.sample 0)) fillTable s₀ = some s ∧
      sysCall (Image.sample 0) Entry.quiet (.execute shellText) s.machine =
        some (.starts k e l, m') ∧
      ((m'.pcbs k).fileDescTb 6).flag = 1 ∧ ((m'.pcbs k).fileDescTb 7).flag = 1 ∧
      ¬ FreshTable ⟨m'.pcbs k, m'.dev⟩ := by
  have flags : ((boot (Image.sample 0) (fun _ => 0) ⟨0x7FFF00, 0⟩ coldStart).bind fun s₀ =>
      (run (step (Image.sample 0)) fillTable s₀).bind fun s =>
        (sysCall (Image.sample 0) Entry.quiet (.execute shellText) s.machine).bind highFlags) =
      some (1, 1) := by decide +kernel
  obtain ⟨s₀, hboot, flags⟩ := Option.bind_eq_some_iff.mp flags
  obtain ⟨s, hrun, flags⟩ := Option.bind_eq_some_iff.mp flags
  obtain ⟨⟨o, m'⟩, hexec, flags⟩ := Option.bind_eq_some_iff.mp flags
  cases o with
  | returns v => simp [highFlags] at flags
  | resumes esp ebp eax => simp [highFlags] at flags
  | faults stores address => simp [highFlags] at flags
  | starts k e l =>
    rw [highFlags, Option.some_inj, Prod.mk.injEq] at flags
    refine ⟨s₀, s, k, e, l, m', hboot, hrun, hexec, flags.1, flags.2, fun fresh => ?_⟩
    have closed6 := fresh 6
    rw [Task.desc, flags.1] at closed6
    simp at closed6

end Descriptors

end LumettaOS.System
