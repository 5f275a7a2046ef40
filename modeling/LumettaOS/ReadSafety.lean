import LumettaOS.Descriptors

/-! The tests that stand before a read, and when a failed file call leaves the
descriptor table as it was: always but for a read from an inode that is not there. -/

namespace LumettaOS.FileCalls
open Lib.Scan

def Accepted (fd : Word) (t : Task) : Prop :=
  0 ≤ fd.toInt ∧ fd ≠ 1 ∧ fd.toInt ≤ 7 ∧ (t.desc (index fd)).flag ≠ 0

theorem readGuard_refused {α : Type} {fd : Word} {t : Task} (h : ¬ Accepted fd t) (refused : α)
    (device : Fin 8 → Option FileOps → α) : readGuard refused device fd t = refused := by
  simp only [Accepted, not_and_or, not_not, not_le] at h
  simp only [readGuard]
  split_ifs with h0 h1 h7 hz
  · rfl
  · rfl
  · rfl
  · rfl
  · rcases h with h | h | h | h
    · exact absurd h h0
    · exact absurd h h1
    · exact absurd h h7
    · exact absurd h hz

theorem readGuard_accepted {α : Type} {fd : Word} {t : Task} (h : Accepted fd t) (refused : α)
    (device : Fin 8 → Option FileOps → α) :
    readGuard refused device fd t = device (index fd) (t.desc (index fd)).fOp := by
  rw [readGuard, if_neg (not_lt.mpr h.1), if_neg h.2.1, if_neg (not_lt.mpr h.2.2.1),
    if_neg h.2.2.2]

theorem sysRead_refused {fd : Word} {t : Task} (h : ¬ Accepted fd t) (img : Image) (env : Env)
    (buf : Buffer) (n : Word) : sysRead img env fd buf n t = some (fail t) :=
  readGuard_refused h _ _

theorem sysRead_accepted {fd : Word} {t : Task} (h : Accepted fd t) (img : Image) (env : Env)
    (buf : Buffer) (n : Word) :
    sysRead img env fd buf n t = opRead img env (index fd) buf n t (t.desc (index fd)).fOp :=
  readGuard_accepted h _ _

theorem accepted_of_flag {fd : Word} {t : Task} (h2 : 2 ≤ fd.toNat) (h8 : fd.toNat < 8)
    (hopen : (t.desc (index fd)).flag ≠ 0) : Accepted fd t := by
  have conv := Word.toInt_of_toNat_lt h8 (by omega)
  have h1 : fd ≠ 1 := fun e => by rw [e] at h2; simp at h2
  exact ⟨by omega, h1, by omega, hopen⟩

theorem dirLoop_fst_le (name : Memory) (left i : Nat) : (dirLoop name left i).1 ≤ i + left := by
  induction left generalizing i with
  | zero => simp [dirLoop]
  | succ left ih =>
    rw [dirLoop]
    split
    · simp
    · have h := ih (i + 1)
      simp only
      omega

def FailureKeepsTable (img : Image) (env : Env) (c : FileCall) (t : Task) : Prop :=
  ∀ r, perform img env c t = some r → r.ret = -1 → ∀ i, r.task.desc i = t.desc i

def ReadDataFails (img : Image) (t : Task) : FileCall → Prop
  | .read fd _ _ => Accepted fd t ∧ (t.desc (index fd)).fOp = some .file ∧
      img.nnod ≤ (t.desc (index fd)).inode
  | _ => False

theorem open_failure_keeps (img : Image) (env : Env) (name : Memory) (t : Task) :
    FailureKeepsTable img env (.open name) t := by
  intro r hr hret i
  simp only [perform, Option.some_inj] at hr
  subst hr
  rcases sysOpen_cases img name t with ⟨he, -⟩ | he | ⟨d, -, -, hlt, he, -⟩
  · rw [he]
  · rw [he]
  · exact absurd (he.symm.trans hret) (freeSlot_word_ne hlt)

theorem close_failure_keeps (img : Image) (env : Env) (fd : Word) (t : Task) :
    FailureKeepsTable img env (.close fd) t := by
  intro r hr hret i
  simp only [perform, Option.some_inj] at hr
  subst hr
  rcases sysClose_cases fd t with ⟨he, -⟩ | ⟨-, -, -, he⟩
  · rw [he]
  · have zero : (0 : Word) = -1 := by rw [he] at hret; exact hret
    exact absurd zero (by decide)

theorem write_failure_keeps (img : Image) (env : Env) (fd : Word) (buf : Buffer) (n : Word)
    (t : Task) : FailureKeepsTable img env (.write fd buf n) t := by
  intro r hr _ i
  change r.task.pcb.fileDescTb i = _
  rw [sysWrite_pcb hr]
  rfl

theorem dirRead_failure {img : Image} {stack : Memory} {i : Fin 8} {n : Word} {t : Task}
    (h : (dirRead img stack i n t).ret = -1) : (dirRead img stack i n t).task = t := by
  simp only [dirRead] at h ⊢
  cases hd : img.readDentryByIndex (t.desc i).filePosition with
  | none => rfl
  | some d =>
    rw [hd] at h
    have bound := dirLoop_fst_le (nameByte d stack) n.toInt.toNat 0
    have upper := n.toInt_lt
    have value := congrArg BitVec.toNat h
    have minus : (-1 : Word).toNat = 4294967295 := rfl
    rw [minus] at value
    simp only [BitVec.toNat_ofNat] at value
    omega

/-- Where there is an inode, the value -1 would stand for more bytes than can be copied. -/
theorem fileRead_failure {img : Image} {i : Fin 8} {n : Word} {t : Task} {r : CallResult}
    (h : fileRead img i n t = some r) (hret : r.ret = -1) : img.nnod ≤ (t.desc i).inode := by
  by_contra there
  have present : (t.desc i).inode < img.nnod := by bv_omega
  have length := Image.length_readData img (t.desc i).inode (t.desc i).filePosition n present
  simp only [fileRead, Option.ite_none_left_eq_some, Option.some_inj] at h
  obtain ⟨short, rfl⟩ := h
  have minus : (img.readData (t.desc i).inode (t.desc i).filePosition n).1 = -1 := hret
  have all : (-1 : Word).toNat = 4294967295 := rfl
  rw [length, minus, all, longestRun] at short
  omega

theorem fileRead_absent {img : Image} {i : Fin 8} {t : Task}
    (h : img.nnod ≤ (t.desc i).inode) (n : Word) :
    fileRead img i n t = some ⟨-1, [],
      t.setDesc i { t.desc i with filePosition := (t.desc i).filePosition + -1 }⟩ := by
  simp only [fileRead, Image.readData_absent img _ _ _ h]
  rfl

theorem fileRead_keeps_iff (img : Image) (i : Fin 8) (n : Word) (t : Task) :
    (∀ r, fileRead img i n t = some r → r.ret = -1 → ∀ j, r.task.desc j = t.desc j) ↔
      ¬ img.nnod ≤ (t.desc i).inode := by
  refine ⟨fun keeps absent => ?_, fun present r hr hret =>
    absurd (fileRead_failure hr hret) present⟩
  have same := congrArg FileDesc.filePosition (keeps _ (fileRead_absent absent n) rfl i)
  rw [Task.desc_setDesc_same] at same
  bv_omega

theorem read_failure_keeps_iff (img : Image) (env : Env) (fd : Word) (buf : Buffer) (n : Word)
    (t : Task) :
    FailureKeepsTable img env (.read fd buf n) t ↔ ¬ ReadDataFails img t (.read fd buf n) := by
  by_cases ha : Accepted fd t
  · simp only [FailureKeepsTable, perform, sysRead_accepted ha, ReadDataFails, ha, true_and]
    cases (t.desc (index fd)).fOp with
    | none => simp [opRead]
    | some ops =>
      cases ops with
      | terminal =>
        refine iff_of_true (fun r hr _ i => ?_) (by simp)
        exact congrArg (fun p => p.fileDescTb i) (terminalRead_pcb hr)
      | rtc =>
        refine iff_of_true (fun r hr _ i => ?_) (by simp)
        exact congrArg (fun p => p.fileDescTb i) (rtcRead_pcb hr)
      | dir =>
        refine iff_of_true (fun r hr hret i => ?_) (by simp)
        simp only [opRead, Option.some_inj] at hr
        subst hr
        rw [dirRead_failure hret]
      | file =>
        simp only [opRead, true_and]
        exact fileRead_keeps_iff img (index fd) n t
  · simp only [FailureKeepsTable, perform, sysRead_refused ha, ReadDataFails, ha, false_and,
      not_false_eq_true, iff_true, Option.some_inj]
    intro r hr _ i
    rw [← hr]
    rfl

/-- A failed file call leaves the table alone exactly when it is not a read in
which `read_data` finds no inode. -/
theorem failure_keeps_table_iff (img : Image) (env : Env) (c : FileCall) (t : Task) :
    FailureKeepsTable img env c t ↔ ¬ ReadDataFails img t c := by
  cases c with
  | «open» name => exact iff_of_true (open_failure_keeps img env name t) not_false
  | close fd => exact iff_of_true (close_failure_keeps img env fd t) not_false
  | read fd buf n => exact read_failure_keeps_iff img env fd buf n t
  | write fd buf n => exact iff_of_true (write_failure_keeps img env fd buf n t) not_false

/-- The entry `shell` names inode 7 of 1: the read fails and moves the position. -/
theorem failed_read_moves_position :
    ¬ FailureKeepsTable (Image.sample 7) Env.quiet (.read 2 Buffer.zero 4)
      (sysOpen (Image.sample 7) shellText Task.fresh).2 := by
  intro h
  have same := h _ rfl (by decide) 2
  revert same
  decide

end LumettaOS.FileCalls
