import LumettaOS.AddressSpace
import LumettaOS.Command
import LumettaOS.System

/-! What `sys_execute` and `sys_halt` can do, one lemma for each of them. -/

namespace LumettaOS
open Lib.Scan

theorem getPcb_window (r : Fin 6) {esp : Word} (low : 0x800000 - (r.val + 1) * 0x2000 ≤ esp.toNat)
    (high : esp.toNat < 0x800000 - r.val * 0x2000) : getPcb esp = some r := by
  have limit := r.isLt
  have quotient : (esp / Word.kb8).toNat = 0x3FF - r.val := by
    simp only [Word.kb8, BitVec.toNat_udiv, BitVec.toNat_ofNat, BitVec.ofNat_eq_ofNat,
      Nat.reduceMod, Nat.reducePow]
    omega
  have slot : ((0x3FF : Word) - esp / Word.kb8).toNat = r.val := by
    rw [BitVec.toNat_sub_of_le (by rw [BitVec.le_def, quotient]; simp), quotient]
    simp
    omega
  simp only [getPcb, slot, limit, dite_true]

namespace Execute

theorem esp0Of_toNat (r : Fin 6) :
    (esp0Of (BitVec.ofNat 32 r.val)).toNat = 0x800000 - r.val * 0x2000 - 4 := by
  have limit := r.isLt
  have cases6 : r = 0 ∨ r = 1 ∨ r = 2 ∨ r = 3 ∨ r = 4 ∨ r = 5 := by omega
  rcases cases6 with rfl | rfl | rfl | rfl | rfl | rfl <;> decide

theorem getPcb_espAt {m : Machine} {r : Fin 6}
    (h : m.tss.esp0 = esp0Of (BitVec.ofNat 32 r.val)) (depth : Fin 8189) :
    getPcb (System.espAt m depth) = some r := by
  have start := esp0Of_toNat r
  have limit := r.isLt
  have bound := depth.isLt
  have below : (System.espAt m depth).toNat = 0x800000 - r.val * 0x2000 - 4 - depth.val := by
    have small : (BitVec.ofNat 32 depth.val).toNat = depth.val := by
      rw [BitVec.toNat_ofNat, Nat.mod_eq_of_lt (by omega)]
    rw [System.espAt, h, BitVec.toNat_sub_of_le (by rw [BitVec.le_def, small, start]; omega),
      start, small]
  exact getPcb_window r (by omega) (by omega)

section FreePcb

variable {pcbs : Fin 6 → Pcb}

theorem freePcb_le (pcbs : Fin 6 → Pcb) : freePcb pcbs ≤ 6 := scan_le _ 6 0

theorem freePcb_eq {n : Nat} (hn : n ≤ 6) (h : ∀ i, (pcbs i).active ≠ 0 ↔ i.val < n) :
    freePcb pcbs = n := by
  refine scan_eq 6 0 n (by omega) (by omega) (fun i _ hi => ?_) (fun hlt => ?_)
  · have val : (Fin.ofNat 6 i).val = i := Nat.mod_eq_of_lt (by omega)
    have live := (h (Fin.ofNat 6 i)).mpr (by omega)
    simpa using live
  · have val : (Fin.ofNat 6 n).val = n := Nat.mod_eq_of_lt (by omega)
    have free : ¬ (pcbs (Fin.ofNat 6 n)).active ≠ 0 := fun e => by
      have lower := (h _).mp e
      omega
    simpa using free

theorem active_of_lt {j : Fin 6} (h : j.val < freePcb pcbs) : (pcbs j).active ≠ 0 := by
  have miss := scan_miss (p := fun i => (pcbs (Fin.ofNat 6 i)).active == 0) 6 0 j.val
    (Nat.zero_le _) h
  have same : Fin.ofNat 6 j.val = j := Fin.ext (Nat.mod_eq_of_lt j.isLt)
  simpa [same] using miss

theorem freePcb_least (h : freePcb pcbs ≠ 6) :
    (pcbs (Fin.ofNat 6 (freePcb pcbs))).active = 0 ∧
      ∀ j < Fin.ofNat 6 (freePcb pcbs), (pcbs j).active ≠ 0 := by
  have bound := freePcb_le pcbs
  refine ⟨?_, fun j hj => active_of_lt ?_⟩
  · have hit := scan_hit (p := fun i => (pcbs (Fin.ofNat 6 i)).active == 0) 6 0
      (by change freePcb pcbs < _; omega)
    simpa [freePcb] using hit
  · have val : (Fin.ofNat 6 (freePcb pcbs)).val = freePcb pcbs := Nat.mod_eq_of_lt (by omega)
    omega

theorem freePcb_full_iff : freePcb pcbs = 6 ↔ ∀ k, (pcbs k).active ≠ 0 := by
  refine ⟨fun full k => active_of_lt (by omega), fun active => ?_⟩
  by_contra free
  exact active _ (freePcb_least free).1

end FreePcb

section Install

variable (slot : Fin 6) (args : Memory) (f : Frame) (m : Machine)

@[simp] theorem reserve_pcb : (reserve slot args m).pcbs slot = putArgs args (m.pcbs slot) := by
  simp [reserve, mapPid]

theorem reserve_pcb_other {i : Fin 6} (h : i ≠ slot) :
    (reserve slot args m).pcbs i = m.pcbs i := by
  simp only [reserve, mapPid, Machine.setPcb_other _ _ h]

@[simp] theorem install_pcb :
    (install slot args f m).pcbs slot = newPcb (putArgs args (m.pcbs slot)) slot f := by
  simp [install, setTss]

theorem install_pcb_other {i : Fin 6} (h : i ≠ slot) :
    (install slot args f m).pcbs i = m.pcbs i := by
  simp only [install, setTss, Machine.setPcb_other _ _ h, reserve_pcb_other _ _ _ h]

@[simp] theorem install_pageDir :
    (install slot args f m).paging.pageDir 32 = Paging.progEntry (BitVec.ofNat 32 slot.val) :=
  Paging.mapProg_pageDir _ _

end Install

theorem launch_cases {img : Image} {inode : Word} {args : Memory} {f : Frame} {m m' : Machine}
    {o : Outcome} (h : launch img inode args f m = some (o, m')) (leaves : o.leaves = true) :
    (freePcb m.pcbs = 6 ∧ o = .returns (-1) ∧ m' = m) ∨
    ∃ k e l, freePcb m.pcbs = k.val ∧
      (img.readData inode 0 Word.kernelStackBottom).2.length ≤ loadRoom ∧
      o = .starts k e l ∧ m' = install k args f m := by
  have bound := freePcb_le m.pcbs
  rw [launch] at h
  split at h
  · rename_i full
    simp only [Option.some_inj, Prod.mk.injEq] at h
    exact Or.inl ⟨full, h.1.symm, h.2.symm⟩
  · rename_i free
    simp only [length_programStores] at h
    split at h
    · simp only [Option.some_inj, Prod.mk.injEq] at h
      rw [← h.1] at leaves
      exact absurd leaves (by simp [Outcome.leaves])
    · rename_i fits
      simp only [Option.some_inj, Prod.mk.injEq] at h
      exact Or.inr ⟨_, _, _, (Nat.mod_eq_of_lt (by omega)).symm, Nat.le_of_not_lt fits,
        h.1.symm, h.2.symm⟩

theorem startProgram_cases {img : Image} {name args : Memory} {f : Frame} {m m' : Machine}
    {o : Outcome} (h : startProgram img name args f m = some (o, m'))
    (leaves : o.leaves = true) :
    (o = .returns (-1) ∧ m' = m ∧ (findExecutable img name = none ∨ freePcb m.pcbs = 6)) ∨
    ∃ inode k e l, findExecutable img name = some inode ∧ freePcb m.pcbs = k.val ∧
      (img.readData inode 0 Word.kernelStackBottom).2.length ≤ loadRoom ∧
      o = .starts k e l ∧ m' = install k args f m := by
  rw [startProgram] at h
  split at h
  · rename_i absent
    simp only [Option.some_inj, Prod.mk.injEq] at h
    exact Or.inl ⟨h.1.symm, h.2.symm, Or.inl absent⟩
  · rename_i inode found
    rcases launch_cases h leaves with ⟨full, ho, hm⟩ | ⟨k, e, l, hk, fits, ho, hm⟩
    · exact Or.inl ⟨ho, hm, Or.inr full⟩
    · exact Or.inr ⟨inode, k, e, l, found, hk, fits, ho, hm⟩

theorem startProgram_refused {img : Image} {name : Memory} {m : Machine}
    (h : findExecutable img name = none ∨ freePcb m.pcbs = 6) (args : Memory) (f : Frame) :
    startProgram img name args f m = some (.returns (-1), m) := by
  cases found : findExecutable img name with
  | none => simp only [startProgram, found]
  | some inode =>
    have full := h.resolve_left (by simp [found])
    simp only [startProgram, found, launch, if_pos full]

theorem startProgram_starts {img : Image} {name : Memory} {inode : Word} {m : Machine}
    (found : findExecutable img name = some inode) (free : freePcb m.pcbs ≠ 6)
    (fits : (img.readData inode 0 Word.kernelStackBottom).2.length ≤ loadRoom) (args : Memory)
    (f : Frame) :
    startProgram img name args f m =
      some (.starts (Fin.ofNat 6 (freePcb m.pcbs)) (entryPoint (exe img inode))
        (programStores img inode), install (Fin.ofNat 6 (freePcb m.pcbs)) args f m) := by
  simp only [startProgram, found, launch, if_neg free, length_programStores,
    if_neg (Nat.not_lt.mpr fits)]

theorem startProgram_faults {img : Image} {name : Memory} {inode : Word} {m : Machine}
    (found : findExecutable img name = some inode) (free : freePcb m.pcbs ≠ 6)
    (long : loadRoom < (img.readData inode 0 Word.kernelStackBottom).2.length) (args : Memory)
    (f : Frame) :
    startProgram img name args f m =
      some (.faults ((programStores img inode).take loadRoom) (loadAddr loadRoom),
        reserve (Fin.ofNat 6 (freePcb m.pcbs)) args m) := by
  simp only [startProgram, found, launch, if_neg free, length_programStores, if_pos long]

theorem sysExecute_program {img : Image} {behind : Memory} {esp : Word} {f f' : Frame}
    {m : Machine} {command name args : Memory} (h : parse command = .program name args) :
    sysExecute img behind esp f f' command m = startProgram img name args f m := by
  simp only [sysExecute, executeWith, h]

theorem parse_program_args {command name args' : Memory}
    (h : parse command = .program name args') : args' = args command := by
  rw [parse] at h
  split at h
  · simp at h
  · split at h
    · simp at h
    · exact (Parsed.program.inj h).2.symm

theorem executeWith_cases {halt : Machine → Option (Outcome × Machine)} {img : Image}
    {command : Memory} {f : Frame} {m m' : Machine} {o : Outcome}
    (h : executeWith halt img command f m = some (o, m')) (leaves : o.leaves = true) :
    (∃ v, o = .returns v ∧ m' = m) ∨ (parse command = .quit ∧ halt m = some (o, m')) ∨
    (parse command ≠ .quit ∧ ∃ k e l, freePcb m.pcbs = k.val ∧ o = .starts k e l ∧
      m' = install k (args command) f m) := by
  rw [executeWith] at h
  split at h
  · simp only [Option.some_inj, Prod.mk.injEq] at h
    exact Or.inl ⟨0, h.1.symm, h.2.symm⟩
  · rename_i quit
    exact Or.inr (Or.inl ⟨quit, h⟩)
  · rename_i program
    rcases startProgram_cases h leaves with ⟨ho, hm, -⟩ | ⟨inode, k, e, l, -, hk, -, ho, hm⟩
    · exact Or.inl ⟨-1, ho, hm⟩
    · rw [parse_program_args program] at hm
      exact Or.inr (Or.inr ⟨by simp [program], k, e, l, hk, ho, hm⟩)

def HasShell (img : Image) : Prop := ∃ inode, findExecutable img shellText = some inode

def ShellFits (img : Image) : Prop := ∃ inode, findExecutable img shellText = some inode ∧
  (img.readData inode 0 Word.kernelStackBottom).2.length ≤ loadRoom

theorem ShellFits.hasShell {img : Image} (h : ShellFits img) : HasShell img := by
  obtain ⟨inode, found, -⟩ := h
  exact ⟨inode, found⟩

theorem executeShell_starts {img : Image} (h : ShellFits img) (behind : Memory) (f : Frame)
    {m : Machine} (free : freePcb m.pcbs ≠ 6) :
    ∃ k e l m', executeShell img behind f m = some (.starts k e l, m') := by
  obtain ⟨inode, found, fits⟩ := h
  obtain ⟨args, eq⟩ := executeShell_eq img behind f m
  exact ⟨_, _, _, _, eq.trans (startProgram_starts found free fits args f)⟩

theorem executeShell_cases {img : Image} {behind : Memory} {f : Frame} {m m' : Machine}
    {o : Outcome} (h : executeShell img behind f m = some (o, m')) (leaves : o.leaves = true) :
    (o = .returns (-1) ∧ m' = m ∧ (¬ HasShell img ∨ freePcb m.pcbs = 6)) ∨
    ∃ k e l args, ShellFits img ∧ freePcb m.pcbs = k.val ∧ o = .starts k e l ∧
      m' = install k args f m := by
  obtain ⟨args, eq⟩ := executeShell_eq img behind f m
  rcases startProgram_cases (eq.symm.trans h) leaves with ⟨ho, hm, absent | full⟩ |
    ⟨inode, k, e, l, found, hk, fits, ho, hm⟩
  · refine Or.inl ⟨ho, hm, Or.inl fun ⟨inode, found⟩ => ?_⟩
    rw [absent] at found
    simp at found
  · exact Or.inl ⟨ho, hm, Or.inr full⟩
  · exact Or.inr ⟨k, e, l, args, ⟨inode, found, fits⟩, hk, ho, hm⟩

@[simp] theorem prepareRoot_pcb (r : Fin 6) (m : Machine) :
    (prepareRoot r m).pcbs r = { m.pcbs r with pid := (m.pcbs r).pid - 1 } := by
  simp [prepareRoot]

theorem prepareRoot_pcb_other {r i : Fin 6} (h : i ≠ r) (m : Machine) :
    (prepareRoot r m).pcbs i = m.pcbs i := by
  simp [prepareRoot, Machine.setPcb_other, h]

theorem sysHalt_restarts {img : Image} (fits : ShellFits img) (behind : Memory) {esp : Word}
    (f : Frame) (status : Byte) {m : Machine} {r : Fin 6} (hr : getPcb esp = some r)
    (root : (m.pcbs r).parentPid = -1)
    (free : freePcb (prepareRoot r (m.setPcb r (closed (m.pcbs r)))).pcbs ≠ 6) :
    ∃ k e l m', sysHalt img behind esp f status m = some (.starts k e l, m') := by
  obtain ⟨k, e, l, m', h⟩ := executeShell_starts fits behind f free
  refine ⟨k, e, l, m', ?_⟩
  have parent : ((m.setPcb r (closed (m.pcbs r))).pcbs r).parentPid = -1 := by
    simpa [closed, Pcb.setDesc] using root
  rw [sysHalt, hr, Option.bind_some, haltProcess]
  simp only [if_pos parent, h, afterRestart]

/-- A halting process goes back to its parent; the root restarts the shell, and
goes on as if it had a parent if that fails. -/
theorem sysHalt_cases {img : Image} {behind : Memory} {esp : Word} {f : Frame} {status : Byte}
    {m m' : Machine} {o : Outcome} {r : Fin 6} (hr : getPcb esp = some r)
    (h : sysHalt img behind esp f status m = some (o, m')) :
    ((m.pcbs r).parentPid ≠ -1 ∧
      (o, m') = resumeParent r status (m.setPcb r (closed (m.pcbs r)))) ∨
    ((m.pcbs r).parentPid = -1 ∧
      (executeShell img behind f (prepareRoot r (m.setPcb r (closed (m.pcbs r)))) = some (o, m') ∨
        ∃ v m₂, executeShell img behind f (prepareRoot r (m.setPcb r (closed (m.pcbs r)))) =
          some (.returns v, m₂) ∧ (o, m') = resumeParent r status m₂)) := by
  have parent : ((m.setPcb r (closed (m.pcbs r))).pcbs r).parentPid = (m.pcbs r).parentPid := by
    simp [closed, Pcb.setDesc]
  rw [sysHalt, hr, Option.bind_some] at h
  simp only [haltProcess, parent] at h
  by_cases root : (m.pcbs r).parentPid = -1
  · rw [if_pos root] at h
    refine Or.inr ⟨root, ?_⟩
    rw [afterRestart.eq_def] at h
    split at h
    · rename_i v m₂ he
      rw [Option.some_inj] at h
      exact Or.inr ⟨v, m₂, he, h.symm⟩
    · exact Or.inl h
  · rw [if_neg root, Option.some_inj] at h
    exact Or.inl ⟨root, h.symm⟩

end Execute

end LumettaOS
