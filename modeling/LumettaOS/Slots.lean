import LumettaOS.Descriptors
import LumettaOS.Launch

/-! The process slots over whole runs. Blocks, paging, the TSS and the saved stack
pointers each say who runs; they agree because the processes are stacked: slots
`0..r` are in use, each process is the child of the one below, and the top runs. -/

namespace LumettaOS.System
open Lib.Runs Execute FileCalls

/-- The blocks in use are the first `n`, each the child of the one before it; the
stack pointer saved for a child lies on the kernel stack of its parent. -/
structure Blocks (n : Nat) (m : Machine) : Prop where
  active : ∀ i, (m.pcbs i).active ≠ 0 ↔ i.val < n
  pid : ∀ i : Fin 6, i.val < n → (m.pcbs i).pid = BitVec.ofNat 32 i.val
  parent : ∀ i : Fin 6, i.val < n → (m.pcbs i).parentPid = BitVec.ofNat 32 i.val - 1
  saved : ∀ i j : Fin 6, i.val < n → i.val = j.val + 1 → getPcb (m.pcbs i).savedEsp = some j

/-- Process `r` runs, on top of the processes that wait for it. -/
structure Stacked (r : Fin 6) (s : System) : Prop where
  control : s.control = some r
  blocks : Blocks (r.val + 1) s.machine
  paging : s.machine.paging.pageDir 32 = Paging.progEntry (BitVec.ofNat 32 r.val)
  tss : s.machine.tss = ⟨kernelDs, esp0Of (BitVec.ofNat 32 r.val)⟩

namespace Blocks

variable {n : Nat} {m m' : Machine}

theorem of_inactive (h : ∀ i, (m.pcbs i).active = 0) : Blocks 0 m where
  active i := by simp [h i]
  pid i hi := absurd hi (Nat.not_lt_zero _)
  parent i hi := absurd hi (Nat.not_lt_zero _)
  saved i j hi := absurd hi (Nat.not_lt_zero _)

theorem inactive (b : Blocks n m) {i : Fin 6} (h : n ≤ i.val) : (m.pcbs i).active = 0 := by
  by_contra live
  have lower := (b.active i).mp live
  omega

theorem tables (b : Blocks n m)
    (h : ∀ i, ∃ table, m'.pcbs i = { m.pcbs i with fileDescTb := table }) : Blocks n m' where
  active i := by
    obtain ⟨table, e⟩ := h i
    rw [e]
    exact b.active i
  pid i hi := by
    obtain ⟨table, e⟩ := h i
    rw [e]
    exact b.pid i hi
  parent i hi := by
    obtain ⟨table, e⟩ := h i
    rw [e]
    exact b.parent i hi
  saved i j hi hj := by
    obtain ⟨table, e⟩ := h i
    rw [e]
    exact b.saved i j hi hj

theorem install {k : Fin 6} (b : Blocks k.val m) (args : Memory) (f : Frame)
    (hf : ∀ j : Fin 6, k.val = j.val + 1 → getPcb f.esp = some j) :
    Blocks (k.val + 1) (install k args f m) where
  active i := by
    by_cases e : i = k
    · simp [e, newPcb]
    · rw [install_pcb_other _ _ _ _ e, b.active i]
      omega
  pid i hi := by
    by_cases e : i = k
    · simp [e, newPcb]
    · rw [install_pcb_other _ _ _ _ e]
      exact b.pid i (by omega)
  parent i hi := by
    by_cases e : i = k
    · simp [e, newPcb]
    · rw [install_pcb_other _ _ _ _ e]
      exact b.parent i (by omega)
  saved i j hi hj := by
    by_cases e : i = k
    · rw [e, install_pcb]
      exact hf j (by omega)
    · rw [install_pcb_other _ _ _ _ e]
      exact b.saved i j (by omega) hj

theorem pop {r : Fin 6} (b : Blocks (r.val + 1) m) (gone : (m'.pcbs r).active = 0)
    (same : ∀ i, i ≠ r → m'.pcbs i = m.pcbs i) : Blocks r.val m' where
  active i := by
    by_cases e : i = r
    · simp [e, gone]
    · rw [same i e, b.active i]
      omega
  pid i hi := by
    rw [same i (by omega)]
    exact b.pid i (by omega)
  parent i hi := by
    rw [same i (by omega)]
    exact b.parent i (by omega)
  saved i j hi hj := by
    rw [same i (by omega)]
    exact b.saved i j (by omega) hj

end Blocks

def Halting : SysCall → Prop
  | .halt _ => True
  | .execute command => parse command = .quit
  | _ => False

def statusOf : SysCall → Byte
  | .halt status => status
  | _ => 0

/-- All that a system call of process `r` can do. -/
inductive Effect (r : Fin 6) (m : Machine) (c : SysCall) : Outcome → Machine → Prop
  | stays (v : Word) (m' : Machine) (table : Fin 8 → FileDesc)
      (pcb : m'.pcbs = Function.update m.pcbs r { m.pcbs r with fileDescTb := table })
      (tss : m'.tss = m.tss) (paging : m'.paging = m.paging) : Effect r m c (.returns v) m'
  | starts (k : Fin 6) (e : Word) (l : List (Word × Byte)) (args : Memory) (f : Frame)
      (next : k.val = r.val + 1) (saved : getPcb f.esp = some r) (live : ¬ Halting c) :
      Effect r m c (.starts k e l) (install k args f m)
  | halts (q : Fin 6) (status : Byte) (prev : r.val = q.val + 1) (halting : Halting c) :
      Effect r m c (resumeParent r status (m.setPcb r (closed (m.pcbs r)))).1
        (resumeParent r status (m.setPcb r (closed (m.pcbs r)))).2
  | restarts (e : Word) (l : List (Word × Byte)) (args : Memory) (f : Frame) (root : r = 0)
      (halting : Halting c) :
      Effect r m c (.starts r e l)
        (install r args f (prepareRoot r (m.setPcb r (closed (m.pcbs r)))))

theorem ofNat_sub_one_ne {i : Nat} (h : 0 < i) (h6 : i < 6) :
    (BitVec.ofNat 32 i - 1 : Word) ≠ -1 := by
  bv_omega

section Effects

variable {img : Image} {r : Fin 6} {s : System}

theorem effect_unchanged (m : Machine) (c : SysCall) (v : Word) : Effect r m c (.returns v) m := by
  refine .stays v m (m.pcbs r).fileDescTb ?_ rfl rfl
  simp

theorem Stacked.getPcb_espAt (st : Stacked r s) (depth : Fin 8189) :
    getPcb (espAt s.machine depth) = some r :=
  Execute.getPcb_espAt (by rw [st.tss]) depth

theorem Blocks.freePcb_eq {n : Nat} {m : Machine} (b : Blocks n m) (hn : n ≤ 6) :
    freePcb m.pcbs = n := Execute.freePcb_eq hn b.active

theorem Blocks.closeRoot {m : Machine} (b : Blocks (r.val + 1) m) :
    Blocks r.val (prepareRoot r (m.setPcb r (closed (m.pcbs r)))) :=
  b.pop (by simp [closed]) fun i e => by
    rw [prepareRoot_pcb_other e, Machine.setPcb_other _ _ e]

theorem Stacked.halt_effect (shell : HasShell img) (st : Stacked r s) {behind : Memory}
    {depth : Fin 8189} {f : Frame} {status : Byte} {c : SysCall} {o : Outcome} {m' : Machine}
    (halting : Halting c)
    (h : sysHalt img behind (espAt s.machine depth) f status s.machine = some (o, m'))
    (leaves : o.leaves = true) : Effect r s.machine c o m' := by
  have limit := r.isLt
  have parent := st.blocks.parent r (by omega)
  rcases sysHalt_cases (st.getPcb_espAt depth) h with ⟨child, he⟩ | ⟨root, he⟩
  · have pos : 0 < r.val := by
      by_contra zero
      have r0 : r.val = 0 := by omega
      rw [parent, r0] at child
      exact child (by decide)
    rw [Prod.mk.injEq] at he
    rw [he.1, he.2]
    exact .halts ⟨r.val - 1, by omega⟩ status (by simp; omega) halting
  · have zero : r = 0 := by
      by_contra ne
      rw [parent] at root
      exact ofNat_sub_one_ne (by omega) limit root
    have free := st.blocks.closeRoot.freePcb_eq (by omega)
    have started : ∀ {o' : Outcome} {m₂ : Machine},
        executeShell img behind f (prepareRoot r (s.machine.setPcb r (closed (s.machine.pcbs r)))) =
          some (o', m₂) → o'.leaves = true → Effect r s.machine c o' m₂ ∧ ∀ v, o' ≠ .returns v := by
      intro o' m₂ hx leaves
      rcases executeShell_cases hx leaves with ⟨-, -, hn | full⟩ | ⟨k, e, l, args, -, hk, rfl, rfl⟩
      · exact absurd shell hn
      · omega
      · have slot : k = r := by omega
        subst slot
        exact ⟨.restarts e l args f zero halting, fun v => by simp⟩
    rcases he with hx | ⟨v, m₂, hx, -⟩
    · exact (started hx leaves).1
    · exact absurd rfl ((started hx rfl).2 v)

theorem Stacked.execute_effect (shell : HasShell img) (st : Stacked r s) {behind : Memory}
    {depth execDepth : Fin 8189} {ebp : Word} {f' : Frame} {command : Memory} {o : Outcome}
    {m' : Machine}
    (h : sysExecute img behind (espAt s.machine depth) ⟨espAt s.machine execDepth, ebp⟩ f'
      command s.machine = some (o, m')) (leaves : o.leaves = true) :
    Effect r s.machine (.execute command) o m' := by
  rcases executeWith_cases h leaves with ⟨v, rfl, rfl⟩ | ⟨quit, hx⟩ |
    ⟨live, k, e, l, hk, rfl, rfl⟩
  · exact effect_unchanged _ _ v
  · exact st.halt_effect shell quit hx leaves
  · refine .starts k e l _ _ ?_ (st.getPcb_espAt execDepth) live
    rw [← hk, st.blocks.freePcb_eq (by omega)]

theorem Stacked.file_effect (st : Stacked r s) {en : Entry} {c : FileCall} {o : Outcome}
    {m' : Machine} (h : fileCall img en c s.machine = some (o, m')) :
    Effect r s.machine (.file c) o m' := by
  rw [fileCall, st.getPcb_espAt, Option.bind_some, Option.map_eq_some_iff] at h
  obtain ⟨res, hres, he⟩ := h
  rw [Prod.mk.injEq] at he
  rw [← he.1, ← he.2]
  refine .stays res.ret _ res.task.pcb.fileDescTb ?_ rfl rfl
  rw [← perform_frame hres]
  rfl

theorem Stacked.effect (shell : HasShell img) (st : Stacked r s) {en : Entry} {c : SysCall}
    {o : Outcome} {m' : Machine} (h : sysCall img en c s.machine = some (o, m')) :
    Effect r s.machine c o m' := by
  cases c with
  | halt status =>
    obtain ⟨h, leaves⟩ := completed_eq_some.mp h
    exact st.halt_effect shell trivial h leaves
  | execute command =>
    obtain ⟨h, leaves⟩ := completed_eq_some.mp h
    exact st.execute_effect shell h leaves
  | file c => exact st.file_effect h
  | getargs buf nbytes =>
    rw [sysCall, Option.map_eq_some_iff] at h
    obtain ⟨res, -, he⟩ := h
    rw [Prod.mk.injEq] at he
    rw [← he.1, ← he.2]
    exact effect_unchanged _ _ _
  | vidmap screenStart =>
    rw [sysCall, Option.ite_none_right_eq_some, Option.some_inj, Prod.mk.injEq] at h
    rw [← h.2.1, ← h.2.2]
    exact effect_unchanged _ _ _

/-- Every effect leaves the processes stacked. The top is the same process, its
child, its parent, or the root again. -/
theorem Stacked.keep {c : SysCall} {o : Outcome} {m' : Machine} (st : Stacked r s)
    (h : Effect r s.machine c o m') : ∃ r', Stacked r' ⟨m', leave s.control o⟩ := by
  cases h with
  | stays v m' table pcb tss paging =>
    refine ⟨r, st.control, st.blocks.tables fun i => ?_, paging ▸ st.paging, tss ▸ st.tss⟩
    by_cases e : i = r
    · exact ⟨table, by rw [pcb, e, Function.update_self]⟩
    · exact ⟨_, by rw [pcb, Function.update_of_ne e]⟩
  | starts k e l args f next saved live =>
    have below : Blocks k.val s.machine := next ▸ st.blocks
    refine ⟨k, rfl, below.install args f fun j hj => ?_, install_pageDir _ _ _ _, rfl⟩
    rw [saved]
    exact congrArg some (Fin.ext (by omega))
  | halts q status prev halting =>
    have below : Blocks (q.val + 1) (s.machine.setPcb r (closed (s.machine.pcbs r))) :=
      prev ▸ st.blocks.pop (by simp [closed]) fun i e => Machine.setPcb_other _ _ e
    have parent : ((s.machine.setPcb r (closed (s.machine.pcbs r))).pcbs r).parentPid =
        BitVec.ofNat 32 q.val := by
      have own := st.blocks.parent r (by omega)
      simp only [Machine.setPcb_same, closed, Pcb.setDesc, own, prev]
      rw [BitVec.ofNat_add]
      bv_omega
    refine ⟨q, ?_, below.tables fun i => ⟨_, rfl⟩, ?_, ?_⟩
    · simp only [resumeParent, leave, Machine.setPcb_same]
      exact st.blocks.saved r q (by omega) prev
    · simp only [resumeParent, parent]
      exact Paging.mapProg_pageDir _ _
    · simp only [resumeParent, parent]
      rfl
  | restarts e l args f root halting =>
    refine ⟨r, rfl, st.blocks.closeRoot.install args f fun j hj => ?_,
      install_pageDir _ _ _ _, rfl⟩
    rw [root] at hj
    exact absurd hj (by simp)

end Effects

section Runs

variable {img : Image} {behind : Memory} {f : Frame} {m : Machine} {s₀ s : System}

theorem boot_cases (zero : ∀ i, (m.pcbs i).active = 0) (h : boot img behind f m = some s) :
    ShellFits img ∧ ∃ args, s = ⟨install 0 args f m, some 0⟩ := by
  rw [boot] at h
  split at h
  · rename_i slot e l m' he
    rcases executeShell_cases he rfl with ⟨ho, -⟩ | ⟨k, e', l', args, fits, hk, ho, hm⟩
    · simp at ho
    · rw [(Blocks.of_inactive zero).freePcb_eq (by omega)] at hk
      have first : k = 0 := by omega
      simp only [Outcome.starts.injEq] at ho
      rw [Option.some_inj, ho.1, hm, first] at h
      exact ⟨fits, args, h.symm⟩
  · simp at h

theorem boot_stacked (zero : ∀ i, (m.pcbs i).active = 0) (h : boot img behind f m = some s) :
    Stacked 0 s := by
  obtain ⟨-, args, rfl⟩ := boot_cases zero h
  have empty : Blocks (0 : Fin 6).val m := Blocks.of_inactive zero
  refine ⟨rfl, empty.install args f fun j hj => ?_, install_pageDir _ _ _ _, rfl⟩
  exact absurd hj (by simp)

theorem step_cases {e : Event} {s' : System} (h : step img e s = some s') :
    (∃ en c o m', e = .call en c ∧ sysCall img en c s.machine = some (o, m') ∧
      s' = ⟨m', leave s.control o⟩) ∨
    ∃ dev, s' = ⟨{ s.machine with dev := dev }, s.control⟩ := by
  cases e with
  | call en c =>
    rw [step, Option.map_eq_some_iff] at h
    obtain ⟨⟨o, m'⟩, hc, rfl⟩ := h
    exact Or.inl ⟨en, c, o, m', rfl, hc, rfl⟩
  | key scancode =>
    rw [step, Option.some_inj] at h
    exact Or.inr ⟨_, h.symm⟩
  | tick =>
    rw [step, Option.some_inj] at h
    exact Or.inr ⟨_, h.symm⟩

theorem Stacked.withDevices {r : Fin 6} (st : Stacked r s) (dev : Devices) :
    Stacked r ⟨{ s.machine with dev := dev }, s.control⟩ :=
  ⟨st.control, st.blocks.tables fun _ => ⟨_, rfl⟩, st.paging, st.tss⟩

theorem step_stacked (shell : HasShell img) (e : Event) (s s' : System)
    (h : ∃ r, Stacked r s) (hs : step img e s = some s') : ∃ r, Stacked r s' := by
  obtain ⟨r, st⟩ := h
  rcases step_cases hs with ⟨en, c, o, m', -, hc, rfl⟩ | ⟨dev, rfl⟩
  · exact st.keep (st.effect shell hc)
  · exact ⟨r, st.withDevices dev⟩

theorem run_stacked (zero : ∀ i, (m.pcbs i).active = 0) (hboot : boot img behind f m = some s₀)
    {events : List Event} (hrun : run (step img) events s₀ = some s) : ∃ r, Stacked r s :=
  invariant (step_stacked (boot_cases zero hboot).1.hasShell) hrun ⟨0, boot_stacked zero hboot⟩

theorem sysCall_halting (img : Image) {c : SysCall} (halting : Halting c) (en : Entry)
    (m : Machine) :
    sysCall img en c m = completed (sysHalt img en.behind (espAt m en.depth)
      ⟨espAt m en.nestedDepth, en.nestedEbp⟩ (statusOf c) m) := by
  cases c with
  | halt status => rfl
  | execute command =>
    have quit : parse command = .quit := halting
    simp only [sysCall, sysExecute, executeWith, quit, statusOf]
  | file c => exact halting.elim
  | getargs buf nbytes => exact halting.elim
  | vidmap screenStart => exact halting.elim

theorem Stacked.root_restarts {r : Fin 6} (st : Stacked r s) (fits : ShellFits img)
    (root : (s.machine.pcbs r).parentPid = -1) (en : Entry) {c : SysCall} (halting : Halting c) :
    ∃ s', step img (.call en c) s = some s' ∧ Stacked 0 s' := by
  have free := st.blocks.closeRoot.freePcb_eq (by omega)
  have same := sysCall_halting img halting en s.machine
  obtain ⟨k, e, l, m', h⟩ := sysHalt_restarts fits en.behind
    ⟨espAt s.machine en.nestedDepth, en.nestedEbp⟩ (statusOf c) (st.getPcb_espAt en.depth) root
    (by omega)
  have h := same.trans (completed_eq_some.mpr ⟨h, rfl⟩)
  have effect := st.effect fits.hasShell h
  obtain ⟨r', st'⟩ := st.keep effect
  have zero : r' = 0 := by
    have top : some k = some r' := st'.control
    cases effect with
    | starts k e l args f next saved live => exact absurd halting live
    | restarts e l args f first halting => rw [← first, ← Option.some_inj.mp top]
  subst zero
  exact ⟨_, by rw [step, h]; rfl, st'⟩

/-- The five encodings of who runs, with one answer. -/
structure Running (r : Fin 6) (s : System) : Prop where
  control : s.control = some r
  active : ∀ i : Fin 6, (s.machine.pcbs i).active ≠ 0 ↔ i.val ≤ r.val
  pid : ∀ i : Fin 6, i.val ≤ r.val → (s.machine.pcbs i).pid = BitVec.ofNat 32 i.val
  parentPid : ∀ i : Fin 6, i.val ≤ r.val →
    (s.machine.pcbs i).parentPid = BitVec.ofNat 32 i.val - 1
  mapped : ∀ v : Word, 0x8000000 ≤ v.toNat → v.toNat < 0x8400000 →
    Paging.translate s.machine.paging v =
      some ⟨0x800000 + 0x400000 * r.val + (v.toNat - 0x8000000), true, true⟩
  esp0 : s.machine.tss.esp0.toNat = 0x800000 - r.val * 0x2000 - 4
  getPcb : ∀ esp : Word, 0x800000 - (r.val + 1) * 0x2000 ≤ esp.toNat →
    esp.toNat < 0x800000 - r.val * 0x2000 → getPcb esp = some r

theorem Stacked.running {r : Fin 6} (st : Stacked r s) : Running r s where
  control := st.control
  active i := by rw [st.blocks.active i, Nat.lt_succ_iff]
  pid i hi := st.blocks.pid i (by omega)
  parentPid i hi := st.blocks.parent i (by omega)
  mapped v low high := Paging.translate_slot st.paging low high
  esp0 := by
    rw [st.tss]
    exact esp0Of_toNat r
  getPcb esp low high := getPcb_window r low high

/-- From boot on, after any events: the slots in use are `0..r`, and blocks, paging,
TSS and stack agree that `r` runs. A root that halts is restarted in slot 0. -/
theorem slot_discipline {pcbs : Fin 6 → Pcb} (zero : ∀ i, (pcbs i).active = 0) {screen : Console}
    {table : Word} {pages : PageTables}
    (hboot : boot img behind f (ready pcbs screen table pages) = some s₀) {events : List Event}
    (hrun : run (step img) events s₀ = some s) :
    ∃ r, Running r s ∧ ((s.machine.pcbs r).parentPid = -1 → ∀ en c, Halting c →
      ∃ s', step img (.call en c) s = some s' ∧ Running 0 s') := by
  obtain ⟨r, st⟩ := run_stacked zero hboot hrun
  have fits := (boot_cases zero hboot).1
  refine ⟨r, st.running, fun root en c halting => ?_⟩
  obtain ⟨s', hs, st'⟩ := st.root_restarts fits root en halting
  exact ⟨s', hs, st'.running⟩

def nestedShell : List Event :=
  [.call Entry.quiet (.execute shellText), .call Entry.quiet (.halt 7), .tick]

theorem slot_discipline_sample :
    ∃ s₀ s, boot (Image.sample 0) (fun _ => 0) ⟨0x7FFF00, 0⟩ coldStart = some s₀ ∧
      run (step (Image.sample 0)) nestedShell s₀ = some s ∧ Running 0 s := by
  have done : ((boot (Image.sample 0) (fun _ => 0) ⟨0x7FFF00, 0⟩ coldStart).bind
      (run (step (Image.sample 0)) nestedShell)).map System.control = some (some 0) := by
    decide +kernel
  obtain ⟨s, hs, first⟩ := Option.map_eq_some_iff.mp done
  obtain ⟨s₀, hboot, hrun⟩ := Option.bind_eq_some_iff.mp hs
  obtain ⟨r, running, -⟩ := slot_discipline (fun _ => rfl) hboot hrun
  obtain rfl : r = 0 := Option.some_inj.mp (running.control.symm.trans first)
  exact ⟨s₀, s, hboot, hrun, running⟩

end Runs

end LumettaOS.System
