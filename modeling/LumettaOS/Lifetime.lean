import LumettaOS.Processes

/-! A process from its start to its end. Whatever it and its children do, its block
keeps all but the descriptor table, so its end finds the stack that its start saved:
the value it leaves goes to the call that started it. -/

namespace LumettaOS.System
open Lib.Runs Execute FileCalls

section Lives

variable {img : Image} {k : Fin 6} {p : Pcb} {s : System}

/-- The process in slot `k` has not ended, and its block is `p` but for the table. -/
def Lives (k : Fin 6) (p : Pcb) (s : System) : Prop :=
  ∃ q, Stacked q s ∧ k.val ≤ q.val ∧
    ∃ table, s.machine.pcbs k = { p with fileDescTb := table }

def Continues (k : Fin 6) : Event → System → Prop
  | .call _ c, s => s.control = some k → ¬ Halting c
  | _, _ => True

theorem Effect.block {q : Fin 6} {m m' : Machine} {c : SysCall} {o : Outcome}
    (h : Effect q m c o m') (live : ¬ Halting c) :
    ∃ table, m'.pcbs q = { m.pcbs q with fileDescTb := table } := by
  cases h with
  | stays v m' table pcb tss paging => exact ⟨table, by rw [pcb, Function.update_self]⟩
  | starts k e l args f next saved live =>
    have ne : q ≠ k := fun e => by omega
    exact ⟨_, by rw [install_pcb_other _ _ _ _ ne]⟩
  | halts p status prev halting => exact absurd halting live
  | restarts e l args f root halting => exact absurd halting live

theorem step_lives (shell : HasShell img) (e : Event) (s s' : System) (h : Lives k p s)
    (continues : Continues k e s) (hs : step img e s = some s') : Lives k p s' := by
  obtain ⟨q, st, above, table, block⟩ := h
  rcases step_cases hs with ⟨en, c, o, m', rfl, hc, rfl⟩ | ⟨dev, rfl⟩
  · have effect := st.effect shell hc
    obtain ⟨q', st'⟩ := st.keep effect
    rcases Nat.lt_or_eq_of_le above with strict | same
    · have near := (effect.top st st').1
      exact ⟨q', st', by omega, table, (effect.pcb_other strict).trans block⟩
    · have own : q = k := Fin.ext same.symm
      subst own
      have live : ¬ Halting c := continues st.control
      obtain ⟨table', block'⟩ := effect.block live
      exact ⟨q', st', (effect.top st st').2 live, table', by rw [block', block]⟩
  · exact ⟨q, st.withDevices dev, above, table, block⟩

end Lives

section Started

variable {img : Image} {behind : Memory} {f : Frame} {m : Machine} {s₀ s s₂ : System}

structure Started (img : Image) (behind : Memory) (f : Frame) (m : Machine) (s : System)
    (en : Entry) (command : Memory) (k : Fin 6) (s₂ : System) : Prop where
  zero : ∀ i, (m.pcbs i).active = 0
  reached : ∃ s₀ before, boot img behind f m = some s₀ ∧ run (step img) before s₀ = some s
  program : parse command ≠ .quit
  ran : ∃ e l m₁ later, sysCall img en (.execute command) s.machine = some (.starts k e l, m₁) ∧
    Along (step img) (Continues k) later ⟨m₁, some k⟩ ∧
    run (step img) later ⟨m₁, some k⟩ = some s₂
  back : s₂.control = some k

theorem Started.lives {en : Entry} {command : Memory} {k : Fin 6}
    (h : Started img behind f m s en command k s₂) :
    ∃ r, Stacked r s ∧ Stacked k s₂ ∧ k.val = r.val + 1 ∧ ∃ table, s₂.machine.pcbs k =
      { newPcb (putArgs (args command) (s.machine.pcbs k)) k
          ⟨espAt s.machine en.execDepth, en.execEbp⟩ with fileDescTb := table } := by
  obtain ⟨s₀, before, hboot, hbefore⟩ := h.reached
  obtain ⟨e, l, m₁, later, hexec, continues, hlater⟩ := h.ran
  have shell := (boot_cases h.zero hboot).1.hasShell
  obtain ⟨r, st⟩ := run_stacked h.zero hboot hbefore
  have effect := st.effect shell hexec
  obtain ⟨q, st'⟩ := st.keep effect
  have top : k = q := Option.some_inj.mp st'.control
  have next : k.val = r.val + 1 := by
    cases effect with
    | starts k e l args f next saved live => exact next
    | restarts e l args f root halting => exact absurd halting h.program
  have block : m₁.pcbs k = newPcb (putArgs (args command) (s.machine.pcbs k)) k
      ⟨espAt s.machine en.execDepth, en.execEbp⟩ := by
    rcases executeWith_cases (completed_eq_some.mp hexec).1 rfl with
      ⟨v, ho, -⟩ | ⟨quit, -⟩ | ⟨-, slot, e', l', -, ho, hm⟩
    · simp at ho
    · exact absurd quit h.program
    · rw [Outcome.starts.injEq] at ho
      rw [hm, ho.1, install_pcb]
  have started : Lives k (m₁.pcbs k) ⟨m₁, some k⟩ := ⟨q, st', by omega, _, rfl⟩
  obtain ⟨q₂, st₂, -, table, kept⟩ :=
    invariant_along (step_lives shell) continues hlater started
  have own : q₂ = k := Option.some_inj.mp (st₂.control.symm.trans h.back)
  subst own
  exact ⟨r, st, st₂, next, table, by rw [kept, block]⟩

theorem Stacked.not_root {k : Fin 6} (st : Stacked k s) (above : 0 < k.val) :
    (s.machine.pcbs k).parentPid ≠ -1 := by
  rw [st.blocks.parent k (by omega)]
  exact ofNat_sub_one_ne above k.isLt

theorem sysHalt_resumes {esp : Word} {m : Machine} {r : Fin 6} (hr : getPcb esp = some r)
    (child : (m.pcbs r).parentPid ≠ -1) (img : Image) (behind : Memory) (f : Frame)
    (status : Byte) :
    ∃ m', sysHalt img behind esp f status m =
      some (.resumes (m.pcbs r).savedEsp (m.pcbs r).savedEbp (status.signExtend 32), m') := by
  have parent : ¬ (closed (m.pcbs r)).parentPid = -1 := child
  rw [sysHalt, hr, Option.bind_some, haltProcess]
  simp only [Machine.setPcb_same, if_neg parent, resumeParent]
  exact ⟨_, rfl⟩

theorem signExtend_toInt_iff (status : Byte) :
    (status.signExtend 32).toInt = status.toNat ↔ status.toNat < 128 := by
  rw [BitVec.toInt_signExtend_of_le (by decide), BitVec.toInt_eq_toNat_cond]
  have bound := status.isLt
  split <;> omega

/-- The end of a program hands control to the frame of the call that started it, and
the value it finds there is the status exactly if that is below 128. -/
theorem exit_status_iff {en : Entry} {command : Memory} {k : Fin 6}
    (h : Started img behind f m s en command k s₂) (en' : Entry) {c : SysCall}
    (halting : Halting c) :
    ∃ r v m₃, s.control = some r ∧ getPcb (espAt s.machine en.execDepth) = some r ∧
      sysCall img en' c s₂.machine =
        some (.resumes (espAt s.machine en.execDepth) en.execEbp v, m₃) ∧
      (v.toInt = (statusOf c).toNat ↔ (statusOf c).toNat < 128) := by
  obtain ⟨r, st, st₂, next, table, block⟩ := h.lives
  obtain ⟨m₃, resumed⟩ := sysHalt_resumes (st₂.getPcb_espAt en'.depth) (st₂.not_root (by omega))
    img en'.behind ⟨espAt s₂.machine en'.nestedDepth, en'.nestedEbp⟩ (statusOf c)
  have resumed := (sysCall_halting img halting en' s₂.machine).trans
    (completed_eq_some.mpr ⟨resumed, rfl⟩)
  rw [block] at resumed
  exact ⟨r, _, m₃, st.control, st.getPcb_espAt en.execDepth, resumed,
    signExtend_toInt_iff (statusOf c)⟩

theorem started_shell :
    ∃ s s₂, Started (Image.sample 0) (fun _ => 0) ⟨0x7FFF00, 0⟩ coldStart s Entry.quiet
      shellText 1 s₂ := by
  have trace : ∃ s e l m₁,
      boot (Image.sample 0) (fun _ => 0) ⟨0x7FFF00, 0⟩ coldStart = some s ∧
      sysCall (Image.sample 0) Entry.quiet (.execute shellText) s.machine =
        some (.starts 1 e l, m₁) := ⟨_, _, _, _, rfl, rfl⟩
  obtain ⟨s, e, l, m₁, hboot, hexec⟩ := trace
  exact ⟨s, ⟨m₁, some 1⟩, fun _ => rfl, ⟨s, [], hboot, rfl⟩, parse_shellText_ne_quit,
    ⟨e, l, m₁, [], hexec, trivial, rfl⟩, rfl⟩

theorem exit_status_iff_sample :
    ∃ s s₂, Started (Image.sample 0) (fun _ => 0) ⟨0x7FFF00, 0⟩ coldStart s Entry.quiet
      shellText 1 s₂ ∧
    ∃ v m₃, sysCall (Image.sample 0) Entry.quiet (.halt 7) s₂.machine =
      some (.resumes (espAt s.machine 280) 0 v, m₃) ∧ v.toInt = 7 := by
  obtain ⟨s, s₂, h⟩ := started_shell
  obtain ⟨r, v, m₃, -, -, resumed, value⟩ := exit_status_iff h Entry.quiet (c := .halt 7) trivial
  exact ⟨s, s₂, h, v, m₃, resumed, value.mpr (by decide)⟩

/-- The status 255 of a program arrives as -1, which says that none was started. -/
theorem exit_status_widened :
    ∃ s s₂, Started (Image.sample 0) (fun _ => 0) ⟨0x7FFF00, 0⟩ coldStart s Entry.quiet
      shellText 1 s₂ ∧
    ∃ esp ebp v m₃, sysCall (Image.sample 0) Entry.quiet (.halt 255) s₂.machine =
      some (.resumes esp ebp v, m₃) ∧ v = -1 ∧ v.toInt ≠ (255 : Byte).toNat := by
  obtain ⟨s, s₂, h⟩ := started_shell
  obtain ⟨r, st, st₂, next, -⟩ := h.lives
  obtain ⟨m₃, resumed⟩ := sysHalt_resumes (st₂.getPcb_espAt Entry.quiet.depth)
    (st₂.not_root (by decide)) (Image.sample 0) Entry.quiet.behind
    ⟨espAt s₂.machine Entry.quiet.nestedDepth, Entry.quiet.nestedEbp⟩ 255
  exact ⟨s, s₂, h, _, _, _, m₃, completed_eq_some.mpr ⟨resumed, rfl⟩, by decide, by decide⟩

end Started

end LumettaOS.System
