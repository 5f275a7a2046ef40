import LumettaOS.FileCalls
import LumettaOS.Lib.Runs

/-! What one file call can do to the caller's descriptor table, once for each
call, and from that the table as an allocator of the least free descriptor. -/

namespace LumettaOS.FileCalls
open Lib.Scan Lib.Runs

def opsOf (ft : Word) : Option FileOps :=
  if ft = 0 then some .rtc else if ft = 1 then some .dir else if ft = 2 then some .file else none

/-- The entry `sys_open` leaves in the slot it claims; only a regular file sets
the inode. -/
def opened (d : Dentry) (old : FileDesc) : FileDesc :=
  { fOp := opsOf d.ft, flag := 1, filePosition := 0,
    inode := if d.ft = 2 then d.ind else old.inode }

def slot (t : Task) : Fin 8 := Fin.ofNat 8 (freeSlot t)

theorem index_val {fd : Word} (h : fd.toNat < 8) : (index fd).val = fd.toNat :=
  Nat.mod_eq_of_lt h

theorem slot_val {t : Task} (h : freeSlot t < 8) : (slot t).val = freeSlot t :=
  Nat.mod_eq_of_lt h

theorem two_le_freeSlot (t : Task) : 2 ≤ freeSlot t := le_scan _ 6 2

theorem freeSlot_le (t : Task) : freeSlot t ≤ 8 := scan_le _ 6 2

theorem freeSlot_flag {t : Task} (h : freeSlot t < 8) : (t.desc (slot t)).flag = 0 := by
  have found := scan_hit (p := fun i => (t.desc (Fin.ofNat 8 i)).flag == 0) 6 2 h
  simpa [slot, freeSlot] using found

theorem lt_freeSlot_flag {t : Task} {i : Fin 8} (h2 : 2 ≤ i.val) (h : i.val < freeSlot t) :
    (t.desc i).flag ≠ 0 := by
  have skipped := scan_miss (p := fun i => (t.desc (Fin.ofNat 8 i)).flag == 0) 6 2 i.val h2 h
  have same : Fin.ofNat 8 i.val = i := Fin.ext (Nat.mod_eq_of_lt i.isLt)
  simpa [same] using skipped

theorem claim_full {t : Task} (h : freeSlot t = 8) (ops : FileOps) (inode : Option Word) :
    claim ops inode t = (-1, t) := by
  rw [claim, if_neg (by omega)]

theorem claim_free {t : Task} (h : freeSlot t < 8) (ops : FileOps) (inode : Option Word) :
    claim ops inode t = (BitVec.ofNat 32 (freeSlot t), t.setDesc (slot t)
      { fOp := some ops, flag := 1, filePosition := 0,
        inode := inode.getD (t.desc (slot t)).inode }) := by
  rw [claim, if_pos h]
  rfl

theorem freeSlot_word_ne {t : Task} (h : freeSlot t < 8) : BitVec.ofNat 32 (freeSlot t) ≠ -1 := by
  bv_omega

theorem sysOpen_fail {img : Image} {name : Memory} {t : Task}
    (h : img.readDentryByName name = none ∨
      (∃ d, img.readDentryByName name = some d ∧ (opsOf d.ft).isSome) ∧ freeSlot t = 8) :
    sysOpen img name t = (-1, t) := by
  rcases h with h | ⟨⟨d, hd, ho⟩, hf⟩
  · simp [sysOpen, h]
  · simp only [sysOpen, hd, claim_full hf, openRtc, if_true]
    simp only [opsOf] at ho
    split_ifs at ho ⊢ <;> simp_all

theorem sysOpen_success {img : Image} {name : Memory} {t : Task} {d : Dentry}
    (hd : img.readDentryByName name = some d) (ho : (opsOf d.ft).isSome) (hf : freeSlot t < 8) :
    (sysOpen img name t).1 = BitVec.ofNat 32 (freeSlot t) ∧
    (sysOpen img name t).2.pcb = t.pcb.setDesc (slot t) (opened d (t.desc (slot t))) := by
  have hne := freeSlot_word_ne hf
  simp only [opsOf] at ho
  simp only [sysOpen, hd, claim_free hf, openRtc, if_neg hne]
  by_cases h0 : d.ft = 0
  · simp [h0, opened, opsOf, Task.setDesc]
  · by_cases h1 : d.ft = 1
    · simp [h1, opened, opsOf, Task.setDesc]
    · by_cases h2 : d.ft = 2
      · simp [h2, opened, opsOf, Task.setDesc]
      · rw [if_neg h0, if_neg h1, if_neg h2] at ho
        simp at ho

/-- An entry of an unknown type is reported as descriptor 0. -/
theorem sysOpen_unknown {img : Image} {name : Memory} {t : Task} {d : Dentry}
    (hd : img.readDentryByName name = some d) (ho : opsOf d.ft = none) :
    sysOpen img name t = (0, t) := by
  simp only [opsOf] at ho
  simp only [sysOpen, hd]
  split_ifs at ho ⊢
  rfl

theorem sysOpen_cases (img : Image) (name : Memory) (t : Task) :
    (sysOpen img name t = (-1, t) ∧ (img.readDentryByName name = none ∨ freeSlot t = 8)) ∨
    sysOpen img name t = (0, t) ∨
    (∃ d, img.readDentryByName name = some d ∧ (opsOf d.ft).isSome ∧ freeSlot t < 8 ∧
      (sysOpen img name t).1 = BitVec.ofNat 32 (freeSlot t) ∧
      (sysOpen img name t).2.pcb = t.pcb.setDesc (slot t) (opened d (t.desc (slot t)))) := by
  cases hd : img.readDentryByName name with
  | none => exact Or.inl ⟨sysOpen_fail (Or.inl hd), Or.inl rfl⟩
  | some d =>
    cases ho : opsOf d.ft with
    | none => exact Or.inr (Or.inl (sysOpen_unknown hd ho))
    | some ops =>
      have hs : (opsOf d.ft).isSome := by simp [ho]
      have bound := freeSlot_le t
      by_cases hf : freeSlot t = 8
      · exact Or.inl ⟨sysOpen_fail (Or.inr ⟨⟨d, hd, hs⟩, hf⟩), Or.inr hf⟩
      · have hlt : freeSlot t < 8 := by omega
        exact Or.inr (Or.inr ⟨d, rfl, hs, hlt, sysOpen_success hd hs hlt⟩)

theorem sysClose_cases (fd : Word) (t : Task) :
    (sysClose fd t = (-1, t) ∧ (fd.toNat < 2 ∨ 8 ≤ fd.toNat ∨ (t.desc (index fd)).flag = 0)) ∨
    (2 ≤ fd.toNat ∧ fd.toNat < 8 ∧ (t.desc (index fd)).flag ≠ 0 ∧
      sysClose fd t = (0, t.setDesc (index fd) { t.desc (index fd) with flag := 0 })) := by
  have conv := BitVec.toInt_eq_toNat_cond fd
  by_cases hr : fd.toInt ≤ 1 ∨ 8 ≤ fd.toInt
  · refine Or.inl ⟨by rw [sysClose, if_pos hr], ?_⟩
    split at conv <;> omega
  · by_cases hz : (t.desc (index fd)).flag = 0
    · exact Or.inl ⟨by rw [sysClose, if_neg hr, if_pos hz], Or.inr (Or.inr hz)⟩
    · refine Or.inr ⟨?_, ?_, hz, by rw [sysClose, if_neg hr, if_neg hz]⟩ <;>
        split at conv <;> omega

theorem terminalRead_pcb {env : Env} {buf : Buffer} {t : Task} {r : CallResult}
    (h : terminalRead env buf t = some r) : r.task.pcb = t.pcb := by
  simp only [terminalRead, Option.map_eq_some_iff] at h
  obtain ⟨a, -, rfl⟩ := h
  rfl

theorem rtcRead_pcb {env : Env} {buf : Buffer} {t : Task} {r : CallResult}
    (h : rtcRead env buf t = some r) : r.task.pcb = t.pcb := by
  simp only [rtcRead, Option.map_eq_some_iff] at h
  obtain ⟨a, -, rfl⟩ := h
  rfl

theorem sysRead_cases {img : Image} {env : Env} {fd : Word} {buf : Buffer} {n : Word} {t : Task}
    {r : CallResult} (h : sysRead img env fd buf n t = some r) :
    r.task.pcb = t.pcb ∨
    (fd.toNat < 8 ∧ (t.desc (index fd)).flag ≠ 0 ∧
      ∃ pos, r.task.pcb =
        t.pcb.setDesc (index fd) { t.desc (index fd) with filePosition := pos }) := by
  have conv := BitVec.toInt_eq_toNat_cond fd
  simp only [sysRead, readGuard] at h
  split_ifs at h with h0 h1 h7 hz
  · cases h; exact Or.inl rfl
  · cases h; exact Or.inl rfl
  · cases h; exact Or.inl rfl
  · cases h; exact Or.inl rfl
  · have hfd : fd.toNat < 8 := by split at conv <;> omega
    cases ho : (t.desc (index fd)).fOp with
    | none => simp [ho, opRead] at h
    | some ops =>
      rw [ho] at h
      cases ops with
      | terminal => exact Or.inl (terminalRead_pcb h)
      | rtc => exact Or.inl (rtcRead_pcb h)
      | dir =>
        simp only [opRead, Option.some_inj, dirRead] at h
        split at h
        · exact Or.inl (by rw [← h]; rfl)
        · exact Or.inr ⟨hfd, hz, (t.desc (index fd)).filePosition + 1, by rw [← h]; rfl⟩
      | file =>
        simp only [opRead, fileRead, Option.ite_none_left_eq_some, Option.some_inj] at h
        exact Or.inr ⟨hfd, hz, _, by rw [← h.2]; rfl⟩

theorem sysWrite_pcb {env : Env} {fd : Word} {buf : Buffer} {n : Word} {t : Task} {r : CallResult}
    (h : sysWrite env fd buf n t = some r) : r.task.pcb = t.pcb := by
  simp only [sysWrite] at h
  split_ifs at h
  · cases h; rfl
  · simp only [Option.map_eq_some_iff] at h
    obtain ⟨a, -, rfl⟩ := h
    rfl
  · cases h; rfl
  · simp only [Option.map_eq_some_iff] at h
    obtain ⟨a, -, rfl⟩ := h
    rfl
  · cases h; rfl

theorem perform_frame {img : Image} {env : Env} {c : FileCall} {t : Task} {r : CallResult}
    (h : perform img env c t = some r) :
    r.task.pcb = { t.pcb with fileDescTb := r.task.pcb.fileDescTb } := by
  cases c with
  | «open» name =>
    simp only [perform, Option.some_inj] at h
    rw [← h]
    rcases sysOpen_cases img name t with ⟨he, -⟩ | he | ⟨d, -, -, -, -, he⟩ <;> simp [he]
    rfl
  | close fd =>
    simp only [perform, Option.some_inj] at h
    rw [← h]
    rcases sysClose_cases fd t with ⟨he, -⟩ | ⟨-, -, -, he⟩ <;> simp [he]
    rfl
  | read fd buf n =>
    rcases sysRead_cases h with he | ⟨-, -, pos, he⟩ <;> rw [he]
    rfl
  | write fd buf n => rw [sysWrite_pcb h]

/-- The descriptors returned by opens that succeeded and not closed since. -/
def openSet : FileCall → Word → Finset Nat → Finset Nat
  | .open _, ret, live => if ret = -1 then live else insert ret.toNat live
  | .close fd, ret, live => if ret = 0 then live.erase fd.toNat else live
  | .read _ _ _, _, live => live
  | .write _ _ _, _, live => live

def trackStep (img : Image) (e : Env × FileCall) (s : Task × Finset Nat) :
    Option (Task × Finset Nat) :=
  (perform img e.1 e.2 s.1).map fun r => (r.task, openSet e.2 r.ret s.2)

def Represents (s : Task × Finset Nat) : Prop :=
  s.2 ⊆ Finset.Icc 2 7 ∧
  ∀ i : Fin 8, (s.1.desc i).flag = if i.val ∈ s.2 ∨ i.val ≤ 1 then 1 else 0

def FreshTable (t : Task) : Prop := ∀ i : Fin 8, (t.desc i).flag = if i.val ≤ 1 then 1 else 0

theorem represents_fresh {t : Task} (h : FreshTable t) : Represents (t, ∅) :=
  ⟨Finset.empty_subset _, fun i => by simpa using h i⟩

theorem Represents.flag_eq_zero {s : Task × Finset Nat} (h : Represents s) {i : Fin 8}
    (h2 : 2 ≤ i.val) : (s.1.desc i).flag = 0 ↔ i.val ∉ s.2 := by
  have h1 : ¬ i.val ≤ 1 := by omega
  rw [h.2 i]
  by_cases hi : i.val ∈ s.2 <;> simp [hi, h1]

theorem Represents.full {s : Task × Finset Nat} (h : Represents s) :
    freeSlot s.1 = 8 ↔ s.2 = Finset.Icc 2 7 := by
  refine ⟨fun hf => Finset.Subset.antisymm h.1 fun j hj => ?_, fun hs => ?_⟩
  · rw [Finset.mem_Icc] at hj
    by_contra hn
    exact lt_freeSlot_flag (i := ⟨j, by omega⟩) hj.1 (by simp only; omega)
      ((h.flag_eq_zero (i := ⟨j, by omega⟩) hj.1).mpr hn)
  · by_contra hne
    have bound := freeSlot_le s.1
    have low := two_le_freeSlot s.1
    have hlt : freeSlot s.1 < 8 := by omega
    have free := (h.flag_eq_zero (by rw [slot_val hlt]; exact low)).mp (freeSlot_flag hlt)
    rw [slot_val hlt, hs, Finset.mem_Icc] at free
    omega

theorem Represents.least {s : Task × Finset Nat} (h : Represents s) (hf : freeSlot s.1 < 8) :
    freeSlot s.1 ∈ Finset.Icc 2 7 \ s.2 ∧ ∀ j ∈ Finset.Icc 2 7 \ s.2, freeSlot s.1 ≤ j := by
  have low := two_le_freeSlot s.1
  have free := (h.flag_eq_zero (by rw [slot_val hf]; exact low)).mp (freeSlot_flag hf)
  rw [slot_val hf] at free
  refine ⟨?_, fun j hj => ?_⟩
  · rw [Finset.mem_sdiff, Finset.mem_Icc]
    exact ⟨by omega, free⟩
  · rw [Finset.mem_sdiff, Finset.mem_Icc] at hj
    by_contra hlt
    exact lt_freeSlot_flag (i := ⟨j, by omega⟩) hj.1.1 (by simp only; omega)
      ((h.flag_eq_zero (i := ⟨j, by omega⟩) hj.1.1).mpr hj.2)

theorem Represents.claimed {s : Task × Finset Nat} (h : Represents s) (hf : freeSlot s.1 < 8)
    {t : Task} {d : FileDesc} (hd : d.flag = 1) (ht : t.pcb = s.1.pcb.setDesc (slot s.1) d) :
    Represents (t, insert (freeSlot s.1) s.2) := by
  have low := two_le_freeSlot s.1
  refine ⟨Finset.insert_subset (by rw [Finset.mem_Icc]; omega) h.1, fun i => ?_⟩
  change (t.pcb.fileDescTb i).flag = _
  rw [ht, Pcb.setDesc_fileDescTb]
  by_cases hi : i = slot s.1
  · have hv : i.val = freeSlot s.1 := by rw [hi, slot_val hf]
    simp [hi, hd, slot_val hf]
  · have hv : i.val ≠ freeSlot s.1 := fun e => hi (Fin.ext (by rw [e, slot_val hf]))
    rw [if_neg hi]
    simpa [hv, Task.desc] using h.2 i

theorem Represents.released {s : Task × Finset Nat} (h : Represents s) {fd : Word}
    (h2 : 2 ≤ fd.toNat) (h8 : fd.toNat < 8) :
    Represents (s.1.setDesc (index fd) { s.1.desc (index fd) with flag := 0 },
      s.2.erase fd.toNat) := by
  refine ⟨(Finset.erase_subset _ _).trans h.1, fun i => ?_⟩
  rw [Task.desc_setDesc]
  by_cases hi : i = index fd
  · have hv : i.val = fd.toNat := by rw [hi, index_val h8]
    have h1 : ¬ i.val ≤ 1 := by omega
    have h1' : ¬ fd.toNat ≤ 1 := by omega
    simp [hi, index_val h8, h1']
  · have hv : i.val ≠ fd.toNat := fun e => hi (Fin.ext (by rw [e, index_val h8]))
    rw [if_neg hi]
    simpa [hv] using h.2 i

theorem Represents.of_flags {s : Task × Finset Nat} (h : Represents s) {t : Task}
    (same : ∀ i, (t.desc i).flag = (s.1.desc i).flag) : Represents (t, s.2) :=
  ⟨h.1, fun i => (same i).trans (h.2 i)⟩

theorem sysRead_flags {img : Image} {env : Env} {fd : Word} {buf : Buffer} {n : Word} {t : Task}
    {r : CallResult} (h : sysRead img env fd buf n t = some r) (i : Fin 8) :
    (r.task.desc i).flag = (t.desc i).flag := by
  change (r.task.pcb.fileDescTb i).flag = (t.pcb.fileDescTb i).flag
  rcases sysRead_cases h with he | ⟨-, -, pos, he⟩
  · rw [he]
  · rw [he, Pcb.setDesc_fileDescTb]
    by_cases hi : i = index fd
    · rw [if_pos hi, hi]
      rfl
    · rw [if_neg hi]

def KnownTypes (img : Image) : Prop := ∀ i < img.nent, (img.dirs i).ft ≤ 2

theorem opsOf_isSome_iff {ft : Word} : (opsOf ft).isSome ↔ ft ≤ 2 := by
  simp only [opsOf]
  split_ifs with h0 h1 h2
  · simp [h0]
  · simp [h1]
  · simp [h2]
  · simp only [Option.isSome_none, Bool.false_eq_true, false_iff]
    bv_omega

theorem KnownTypes.isSome {img : Image} (h : KnownTypes img) {name : Memory} {d : Dentry}
    (hd : img.readDentryByName name = some d) : (opsOf d.ft).isSome := by
  obtain ⟨i, hi, hdir, -⟩ := img.readDentryByName_some hd
  exact opsOf_isSome_iff.mpr (hdir ▸ h i hi)

theorem freeSlot_toNat {t : Task} (h : freeSlot t < 8) :
    (BitVec.ofNat 32 (freeSlot t)).toNat = freeSlot t := by
  rw [BitVec.toNat_ofNat, Nat.mod_eq_of_lt (by omega)]

theorem trackStep_represents {img : Image} (types : KnownTypes img) (e : Env × FileCall)
    (s s' : Task × Finset Nat) (h : Represents s) (hs : trackStep img e s = some s') :
    Represents s' := by
  obtain ⟨env, c⟩ := e
  simp only [trackStep, Option.map_eq_some_iff] at hs
  obtain ⟨r, hr, rfl⟩ := hs
  cases c with
  | «open» name =>
    simp only [perform, Option.some_inj] at hr
    subst hr
    cases hd : img.readDentryByName name with
    | none => simpa [openSet, sysOpen_fail (t := s.1) (Or.inl hd)] using h
    | some d =>
      have hk := types.isSome hd
      have bound := freeSlot_le s.1
      by_cases hf : freeSlot s.1 = 8
      · simpa [openSet, sysOpen_fail (Or.inr ⟨⟨d, hd, hk⟩, hf⟩)] using h
      · have hlt : freeSlot s.1 < 8 := by omega
        obtain ⟨hret, hpcb⟩ := sysOpen_success hd hk hlt
        simp only [openSet, hret, if_neg (freeSlot_word_ne hlt), freeSlot_toNat hlt]
        exact h.claimed hlt rfl hpcb
  | close fd =>
    simp only [perform, Option.some_inj] at hr
    subst hr
    rcases sysClose_cases fd s.1 with ⟨he, -⟩ | ⟨h2, h8, -, he⟩
    · simpa [openSet, he] using h
    · simpa [openSet, he] using h.released h2 h8
  | read fd buf n => exact h.of_flags (sysRead_flags hr)
  | write fd buf n =>
    refine h.of_flags fun i => ?_
    change (r.task.pcb.fileDescTb i).flag = _
    rw [sysWrite_pcb hr]
    rfl

theorem refused_of_flag {fd : Word} {t : Task} (h2 : 2 ≤ fd.toNat) (h8 : fd.toNat < 8)
    (hz : (t.desc (index fd)).flag = 0) (img : Image) (env : Env) (buf : Buffer) (n : Word) :
    sysRead img env fd buf n t = some (fail t) ∧ sysWrite env fd buf n t = some (fail t) := by
  have conv := Word.toInt_of_toNat_lt h8 (by omega)
  have h1 : fd ≠ 1 := fun e => by rw [e] at h2; simp at h2
  refine ⟨?_, ?_⟩
  · rw [sysRead, readGuard, if_neg (by omega), if_neg h1, if_neg (by omega), if_pos hz]
  · have hin : 0 ≤ fd.toInt ∧ fd.toInt ≤ 7 := by omega
    rw [sysWrite, flagAt, if_pos hin, if_pos hz]

theorem Represents.open_fails_iff {img : Image} (types : KnownTypes img) {t : Task}
    {live : Finset Nat} (h : Represents (t, live)) (name : Memory) :
    ((sysOpen img name t).1 = -1 ↔ img.readDentryByName name = none ∨ live = Finset.Icc 2 7) ∧
    ((sysOpen img name t).1 = -1 → (sysOpen img name t).2 = t) := by
  have full : freeSlot t = 8 ↔ live = Finset.Icc 2 7 := h.full
  have bound := freeSlot_le t
  cases hd : img.readDentryByName name with
  | none => simp [sysOpen_fail (t := t) (Or.inl hd)]
  | some d =>
    have hk := types.isSome hd
    by_cases hf : freeSlot t = 8
    · simp [sysOpen_fail (Or.inr ⟨⟨d, hd, hk⟩, hf⟩), full.mp hf]
    · have hne : (sysOpen img name t).1 ≠ -1 := by
        rw [(sysOpen_success hd hk (by omega)).1]
        exact freeSlot_word_ne (by omega)
      have hlive : live ≠ Finset.Icc 2 7 := fun e => hf (full.mpr e)
      refine ⟨⟨fun e => absurd e hne, fun e => ?_⟩, fun e => absurd e hne⟩
      rcases e with e | e
      · cases e
      · exact absurd e hlive

theorem Represents.open_least {img : Image} (types : KnownTypes img) {t : Task}
    {live : Finset Nat} (h : Represents (t, live)) {name : Memory} {d : Dentry}
    (hd : img.readDentryByName name = some d) (hlive : live ≠ Finset.Icc 2 7) :
    ∃ i : Fin 8, (sysOpen img name t).1.toNat = i.val ∧
      i.val ∈ Finset.Icc 2 7 \ live ∧ (∀ j ∈ Finset.Icc 2 7 \ live, i.val ≤ j) ∧
      ((sysOpen img name t).2.desc i).fOp = opsOf d.ft ∧
      ((sysOpen img name t).2.desc i).filePosition = 0 ∧
      (d.ft = 2 → ((sysOpen img name t).2.desc i).inode = d.ind) := by
  have full : freeSlot t = 8 ↔ live = Finset.Icc 2 7 := h.full
  have bound := freeSlot_le t
  have hf : freeSlot t ≠ 8 := fun e => hlive (full.mp e)
  have hlt : freeSlot t < 8 := by omega
  obtain ⟨hret, hpcb⟩ := sysOpen_success hd (types.isSome hd) hlt
  have entry : (sysOpen img name t).2.desc (slot t) = opened d (t.desc (slot t)) := by
    change (sysOpen img name t).2.pcb.fileDescTb (slot t) = _
    rw [hpcb, Pcb.setDesc_same]
  have least := h.least hlt
  rw [← slot_val hlt] at least
  refine ⟨slot t, ?_, least.1, least.2, by rw [entry, opened], by rw [entry, opened], ?_⟩
  · rw [hret, freeSlot_toNat hlt, slot_val hlt]
  · intro h2
    rw [entry, opened, if_pos h2]

theorem Represents.mem_iff {t : Task} {live : Finset Nat} (h : Represents (t, live)) {fd : Word}
    (h2 : 2 ≤ fd.toNat) (h8 : fd.toNat < 8) : fd.toNat ∈ live ↔ (t.desc (index fd)).flag ≠ 0 := by
  have hv := index_val h8
  have hz := h.flag_eq_zero (i := index fd) (by omega)
  rw [hv] at hz
  exact not_iff_not.mp (by rw [not_not]; exact hz.symm)

theorem Represents.close_spec {t : Task} {live : Finset Nat} (h : Represents (t, live))
    (fd : Word) :
    ((sysClose fd t).1 = 0 ↔ fd.toNat ∈ live) ∧
    (fd.toNat ∈ live → (sysClose fd t).2 =
      t.setDesc (index fd) { t.desc (index fd) with flag := 0 }) ∧
    (fd.toNat ∉ live → sysClose fd t = (-1, t)) := by
  rcases sysClose_cases fd t with ⟨he, hr⟩ | ⟨h2, h8, hz, he⟩
  · have hn : fd.toNat ∉ live := by
      intro hm
      have range := Finset.mem_Icc.mp (h.1 hm)
      rcases hr with hr | hr | hr
      · omega
      · omega
      · exact (h.mem_iff range.1 (by omega)).mp hm hr
    simp [he, hn]
  · have hm : fd.toNat ∈ live := (h.mem_iff h2 h8).mpr hz
    simp [he, hm]

/-- In every run of file calls of a process that starts with descriptors 0 and 1
the table is the least-free-slot allocator over the set of live descriptors. -/
theorem descriptor_allocator {img : Image} (types : KnownTypes img) {start : Task}
    (fresh : FreshTable start) {calls : List (Env × FileCall)} {t : Task} {live : Finset Nat}
    (hrun : run (trackStep img) calls (start, ∅) = some (t, live)) :
    live ⊆ Finset.Icc 2 7 ∧
    (∀ i : Fin 8, (t.desc i).flag = if i.val ∈ live ∨ i.val ≤ 1 then 1 else 0) ∧
    (∀ name,
      ((sysOpen img name t).1 = -1 ↔
        img.readDentryByName name = none ∨ live = Finset.Icc 2 7) ∧
      ((sysOpen img name t).1 = -1 → (sysOpen img name t).2 = t) ∧
      (∀ d, img.readDentryByName name = some d → live ≠ Finset.Icc 2 7 →
        ∃ i : Fin 8, (sysOpen img name t).1.toNat = i.val ∧
          i.val ∈ Finset.Icc 2 7 \ live ∧ (∀ j ∈ Finset.Icc 2 7 \ live, i.val ≤ j) ∧
          ((sysOpen img name t).2.desc i).fOp = opsOf d.ft ∧
          ((sysOpen img name t).2.desc i).filePosition = 0 ∧
          (d.ft = 2 → ((sysOpen img name t).2.desc i).inode = d.ind))) ∧
    (∀ fd,
      ((sysClose fd t).1 = 0 ↔ fd.toNat ∈ live) ∧
      (fd.toNat ∈ live → (sysClose fd t).2 =
        t.setDesc (index fd) { t.desc (index fd) with flag := 0 }) ∧
      (fd.toNat ∉ live → sysClose fd t = (-1, t))) ∧
    (∀ fd : Word, 2 ≤ fd.toNat → fd.toNat < 8 → fd.toNat ∉ live → ∀ env buf n,
      sysRead img env fd buf n t = some (fail t) ∧ sysWrite env fd buf n t = some (fail t)) := by
  have h : Represents (t, live) :=
    invariant (fun e s s' hs he => trackStep_represents types e s s' hs he) hrun
      (represents_fresh fresh)
  refine ⟨h.1, h.2, fun name => ?_, h.close_spec, fun fd h2 h8 hn env buf n => ?_⟩
  · obtain ⟨hfail, hsame⟩ := h.open_fails_iff types name
    exact ⟨hfail, hsame, fun d hd hlive => h.open_least types hd hlive⟩
  · have hz : (t.desc (index fd)).flag = 0 := by
      by_contra hz
      exact hn ((h.mem_iff h2 h8).mpr hz)
    exact refused_of_flag h2 h8 hz img env buf n

theorem fresh_freshTable : FreshTable Task.fresh := by
  intro i
  simp only [Task.fresh, Task.desc]
  split <;> rfl

theorem descriptor_allocator_sample :
    ∃ t live, run (trackStep (Image.sample 0))
        [(Env.quiet, .open shellText), (Env.quiet, .close 5)]
        (Task.fresh, ∅) = some (t, live) ∧ live = {2} ∧ live ⊆ Finset.Icc 2 7 := by
  have trace : ∃ t live, run (trackStep (Image.sample 0))
      [(Env.quiet, .open shellText), (Env.quiet, .close 5)] (Task.fresh, ∅) = some (t, live) ∧
      live = {2} := ⟨_, _, rfl, by decide⟩
  obtain ⟨t, live, hrun, hlive⟩ := trace
  exact ⟨t, live, hrun, hlive,
    (descriptor_allocator Image.sample_wellFormed.ft_le fresh_freshTable hrun).1⟩

def ReportsOpened (img : Image) (name : Memory) (t : Task) : Prop :=
  ((sysOpen img name t).1 = -1 ∧ ∀ i, (sysOpen img name t).2.desc i = t.desc i) ∨
  ∃ i : Fin 8, 2 ≤ i.val ∧ (sysOpen img name t).1.toNat = i.val ∧ (t.desc i).flag = 0 ∧
    ((sysOpen img name t).2.desc i).flag = 1

theorem reportsOpened_known {img : Image} {name : Memory} {d : Dentry} (t : Task)
    (hd : img.readDentryByName name = some d) (known : (opsOf d.ft).isSome) :
    ReportsOpened img name t := by
  have bound := freeSlot_le t
  by_cases full : freeSlot t = 8
  · rw [ReportsOpened, sysOpen_fail (Or.inr ⟨⟨d, hd, known⟩, full⟩)]
    exact Or.inl ⟨rfl, fun _ => rfl⟩
  · have free : freeSlot t < 8 := by omega
    have low := two_le_freeSlot t
    obtain ⟨ret, pcb⟩ := sysOpen_success hd known free
    refine Or.inr ⟨slot t, by rw [slot_val free]; exact low, ?_, freeSlot_flag free, ?_⟩
    · rw [ret, freeSlot_toNat free, slot_val free]
    · change ((sysOpen img name t).2.pcb.fileDescTb (slot t)).flag = 1
      rw [pcb, Pcb.setDesc_same, opened]

/-- For every table the report is right unless the name is that of an entry whose type
is none of the three: then 0 is returned and nothing was opened. -/
theorem sys_open_reports_opened_iff (img : Image) (name : Memory) (t : Task) :
    ReportsOpened img name t ↔ ∀ d, img.readDentryByName name = some d → d.ft ≤ 2 := by
  cases hd : img.readDentryByName name with
  | none =>
    refine iff_of_true ?_ fun d h => by simp at h
    rw [ReportsOpened, sysOpen_fail (Or.inl hd)]
    exact Or.inl ⟨rfl, fun _ => rfl⟩
  | some d =>
    simp only [Option.some_inj, forall_eq', ← opsOf_isSome_iff]
    refine ⟨fun reports => ?_, fun known => reportsOpened_known t hd known⟩
    by_contra unknown
    rw [Bool.not_eq_true, Option.isSome_eq_false_iff, Option.isNone_iff_eq_none] at unknown
    rw [ReportsOpened, sysOpen_unknown hd unknown] at reports
    rcases reports with ⟨minus, -⟩ | ⟨i, low, zero, -⟩
    · exact absurd (show (0 : Word) = -1 from minus) (by decide)
    · have first : i.val = 0 := zero.symm
      omega

def typeThree : Image := ⟨Function.update (Image.sample 0).byte 224 3⟩

theorem unknown_type_reported_open :
    sysOpen typeThree shellText Task.fresh = (0, Task.fresh) ∧
      ¬ ReportsOpened typeThree shellText Task.fresh := by
  have zero : sysOpen typeThree shellText Task.fresh = (0, Task.fresh) :=
    sysOpen_unknown (d := typeThree.dirs 2) rfl (by decide)
  refine ⟨zero, fun reports => ?_⟩
  rw [ReportsOpened, zero] at reports
  revert reports
  decide

end LumettaOS.FileCalls
