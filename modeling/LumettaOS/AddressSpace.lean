import LumettaOS.Paging

/-! The address space that `page_init` and the program entry give, for every
virtual address and every history of program switches. -/

namespace LumettaOS.Paging
open Lib.BitField

theorem dirIndex_toNat (v : Word) : (getField v 22 10).toNat = v.toNat / 2 ^ 22 := by
  have bound := v.isLt
  rw [getField, BitVec.extractLsb'_toNat, Nat.shiftRight_eq_div_pow]
  omega

theorem tblIndex_toNat (v : Word) : (getField v 12 10).toNat = v.toNat / 2 ^ 12 % 2 ^ 10 := by
  rw [getField, BitVec.extractLsb'_toNat, Nat.shiftRight_eq_div_pow]

theorem foldl_setTbl (tab : BitVec 20) (n a : Nat) (s : PageTables) (h : a + n ≤ 1024) :
    let s' := (List.range' a n).foldl (fun s i => setTbl tab (BitVec.ofNat 10 i) (vidPg i) s) s
    s'.pageDir = s.pageDir ∧ ∀ k : BitVec 10, s'.frames tab k =
      if a ≤ k.toNat ∧ k.toNat < a + n then vidPg k.toNat else s.frames tab k := by
  induction n generalizing a s with
  | zero =>
    refine ⟨rfl, fun k => ?_⟩
    rw [if_neg (by omega)]
    rfl
  | succ n ih =>
    obtain ⟨dir, rest⟩ := ih (a + 1) (setTbl tab (BitVec.ofNat 10 a) (vidPg a) s) (by omega)
    rw [List.range'_succ, List.foldl_cons]
    refine ⟨dir, fun k => ?_⟩
    rw [rest k]
    by_cases later : a + 1 ≤ k.toNat ∧ k.toNat < a + 1 + n
    · rw [if_pos later, if_pos (by omega)]
    · rw [if_neg later]
      by_cases here : k = BitVec.ofNat 10 a
      · have same : k.toNat = a := by
          rw [here, BitVec.toNat_ofNat, Nat.mod_eq_of_lt (by omega)]
        rw [if_pos (by omega), same, here]
        simp [setTbl]
      · have other : k.toNat ≠ a := fun e => here (by rw [← e]; simp)
        rw [if_neg (by omega)]
        simp [setTbl, here]

/-- What stays as `page_init` left it while programs come and go. -/
structure Base (table : Word) (s : PageTables) : Prop where
  video : s.pageDir 0 = vidTable table
  kernel : s.pageDir 1 = kernelEntry
  userVideo : s.pageDir 33 = setField (vidTable table) 2 (1 : BitVec 1)
  unused : ∀ d, d ≠ 0 → d ≠ 1 → d ≠ 32 → d ≠ 33 → s.pageDir d = 0
  pages : ∀ k, s.frames (frameOf table) k =
    if 0xB8 ≤ k.toNat ∧ k.toNat < 0xC0 then vidPg k.toNat else 0

theorem pageInit_base (table : Word) (s : PageTables) : Base table (pageInit table s) := by
  have stores := foldl_setTbl (frameOf table) 8 0xB8 (spawnTbl (frameOf table) s) (by decide)
  refine ⟨?_, ?_, chgDir_same _ _ _, fun d h0 h1 _ h33 => ?_, fun k => ?_⟩
  · rw [pageInit, chgDir_other (by decide), chgDir_other (by decide), chgDir_same]
  · rw [pageInit, chgDir_other (by decide), chgDir_same]
  · rw [pageInit, chgDir_other h33, chgDir_other h1, chgDir_other h0]
    rfl
  · refine (stores.2 k).trans ?_
    simp [spawnTbl]

theorem mapProg_base {table : Word} {s : PageTables} (pid : Word) (h : Base table s) :
    Base table (mapProg s pid) where
  video := h.video
  kernel := h.kernel
  userVideo := h.userVideo
  unused d h0 h1 h32 h33 := by
    rw [mapProg, chgDir_other h32]
    exact h.unused d h0 h1 h32 h33
  pages := h.pages

theorem foldl_mapProg_base {table : Word} (history : List Word) {s : PageTables}
    (h : Base table s) : Base table (history.foldl mapProg s) := by
  induction history generalizing s with
  | nil => exact h
  | cons pid history ih => exact ih (mapProg_base pid h)

@[simp] theorem mapProg_pageDir (s : PageTables) (pid : Word) :
    (mapProg s pid).pageDir 32 = progEntry pid := chgDir_same _ _ _

section Entries

theorem progEntry_flags (pid : Word) :
    p (progEntry pid) = 1 ∧ rw (progEntry pid) = 1 ∧ us (progEntry pid) = 1 ∧
      ps (progEntry pid) = 1 ∧ add3239 (progEntry pid) = 0 := by
  simp only [p, rw, us, ps, add3239, progEntry]
  refine ⟨?_, ?_, ?_, ?_, ?_⟩ <;>
    rw [getField_setField_disjoint _ _ _ _ (by decide) (by decide)] <;> decide

theorem progEntry_add (pid : Word) (h : pid < 6) :
    (add2231 (progEntry pid)).toNat = 2 + pid.toNat := by
  have small : pid.toNat < 6 := h
  rw [add2231, progEntry, getField_setField_same _ _ _ (by decide), BitVec.toNat_setWidth,
    BitVec.toNat_ushiftRight, BitVec.toNat_add, BitVec.toNat_mul, Nat.shiftRight_eq_div_pow]
  simp only [Word.mb8, Word.mb4, BitVec.toNat_ofNat, BitVec.ofNat_eq_ofNat]
  omega

theorem vidPg_flags (i : Nat) : p (vidPg i) = 1 ∧ rw (vidPg i) = 1 ∧ us (vidPg i) = 1 := by
  simp only [p, rw, us, vidPg]
  refine ⟨?_, ?_, ?_⟩ <;>
    rw [getField_setField_disjoint _ _ _ _ (by decide) (by decide)] <;> decide

theorem vidPg_add (i : Nat) (h : i < 2 ^ 20) : (add (vidPg i)).toNat = i := by
  rw [add, vidPg, getField_setField_same _ _ _ (by decide), BitVec.toNat_ofNat,
    Nat.mod_eq_of_lt h]

variable {table : Word}

theorem vidTable_low (aligned : table.toNat % 4096 = 0) (lo w : Nat) (h : lo + w ≤ 12) :
    getField (vidTable table) lo w = getField (3 : Word) lo w := by
  rw [vidTable, getField_or,
    getField_eq_zero_of_dvd table 12 lo w (Nat.dvd_of_mod_eq_zero aligned) h]
  simp

theorem vidTable_add (table : Word) : add (vidTable table) = frameOf table := by
  have none3 : getField (3 : Word) 12 20 = 0 := by decide
  rw [add, vidTable, getField_or, none3, frameOf]
  simp

theorem vidTable_flags (aligned : table.toNat % 4096 = 0) :
    p (vidTable table) = 1 ∧ rw (vidTable table) = 1 ∧ us (vidTable table) = 0 ∧
      ps (vidTable table) = 0 := by
  simp only [p, rw, us, ps]
  refine ⟨?_, ?_, ?_, ?_⟩ <;> rw [vidTable_low aligned _ _ (by decide)] <;> decide

theorem userVidTable_flags (aligned : table.toNat % 4096 = 0) :
    p (setField (vidTable table) 2 (1 : BitVec 1)) = 1 ∧
      rw (setField (vidTable table) 2 (1 : BitVec 1)) = 1 ∧
      us (setField (vidTable table) 2 (1 : BitVec 1)) = 1 ∧
      ps (setField (vidTable table) 2 (1 : BitVec 1)) = 0 ∧
      add (setField (vidTable table) 2 (1 : BitVec 1)) = frameOf table := by
  obtain ⟨hp, hrw, -, hps⟩ := vidTable_flags aligned
  simp only [p, rw, us, ps, add] at *
  refine ⟨?_, ?_, getField_setField_same _ _ _ (by decide), ?_, ?_⟩
  · rw [getField_setField_disjoint _ _ _ _ (by decide) (by decide), hp]
  · rw [getField_setField_disjoint _ _ _ _ (by decide) (by decide), hrw]
  · rw [getField_setField_disjoint _ _ _ _ (by decide) (by decide), hps]
  · rw [getField_setField_disjoint _ _ _ _ (by decide) (by decide)]
    exact vidTable_add table

end Entries

section Translation

variable {table : Word} {s : PageTables} {v e : Word}

theorem translate_large (dir : s.pageDir (getField v 22 10) = e) (hp : p e = 1) (hps : ps e = 1)
    (hhigh : add3239 e = 0) :
    translate s v = some ⟨(add2231 e).toNat * 2 ^ 22 + v.toNat % 2 ^ 22, us e = 1, rw e = 1⟩ := by
  simp [translate, dir, hp, hps, hhigh]

theorem translate_shared (base : Base table s) (dir : s.pageDir (getField v 22 10) = e)
    (hp : p e = 1) (hps : ps e = 0) (hrw : rw e = 1) (hadd : add e = frameOf table) :
    translate s v =
      if 0xB8000 ≤ v.toNat % 2 ^ 22 ∧ v.toNat % 2 ^ 22 < 0xC0000 then
        some ⟨v.toNat % 2 ^ 22, us e = 1, true⟩
      else none := by
  have index := tblIndex_toNat v
  have entry := base.pages (getField v 12 10)
  by_cases inside : 0xB8000 ≤ v.toNat % 2 ^ 22 ∧ v.toNat % 2 ^ 22 < 0xC0000
  · obtain ⟨vp, vrw, vus⟩ := vidPg_flags (getField v 12 10).toNat
    have vadd := vidPg_add (getField v 12 10).toNat (by omega)
    rw [if_pos (by omega)] at entry
    rw [if_pos inside]
    simp only [translate, dir, hp, hps, hadd, entry, vp, vrw, vus, vadd, hrw]
    simp
    omega
  · rw [if_neg (by omega)] at entry
    rw [if_neg inside]
    simp [translate, dir, hp, hps, hadd, entry]
    decide

theorem dir_of_region (d : BitVec 10) (h : v.toNat / 2 ^ 22 = d.toNat) : getField v 22 10 = d :=
  BitVec.eq_of_toNat_eq ((dirIndex_toNat v).trans h)

theorem region_ne (d : BitVec 10) (h : v.toNat / 2 ^ 22 ≠ d.toNat) : getField v 22 10 ≠ d :=
  fun e => h (by rw [← dirIndex_toNat, e])

theorem translate_kernel (base : Base table s) (h : v.toNat / 2 ^ 22 = 1) :
    translate s v = some ⟨v.toNat, false, true⟩ := by
  have dir : s.pageDir (getField v 22 10) = kernelEntry := by
    rw [dir_of_region 1 h, base.kernel]
  have frame : (add2231 kernelEntry).toNat = 1 := by decide
  have rights : us kernelEntry = 0 ∧ rw kernelEntry = 1 := by decide
  rw [translate_large dir (by decide) (by decide) (by decide), frame, rights.1, rights.2]
  simp
  omega

theorem translate_prog {pid : Word} (dir32 : s.pageDir 32 = progEntry pid) (hpid : pid < 6)
    (h : v.toNat / 2 ^ 22 = 32) :
    translate s v = some ⟨(2 + pid.toNat) * 2 ^ 22 + v.toNat % 2 ^ 22, true, true⟩ := by
  obtain ⟨hp, hrw, hus, hps, hhigh⟩ := progEntry_flags pid
  have dir : s.pageDir (getField v 22 10) = progEntry pid := by
    rw [dir_of_region 32 h, dir32]
  rw [translate_large dir hp hps hhigh, progEntry_add pid hpid, hus, hrw]
  simp

theorem translate_slot {k : Fin 6} (dir32 : s.pageDir 32 = progEntry (BitVec.ofNat 32 k.val))
    (low : 0x8000000 ≤ v.toNat) (high : v.toNat < 0x8400000) :
    translate s v = some ⟨0x800000 + 0x400000 * k.val + (v.toNat - 0x8000000), true, true⟩ := by
  have limit := k.isLt
  have value : (BitVec.ofNat 32 k.val).toNat = k.val := by
    rw [BitVec.toNat_ofNat, Nat.mod_eq_of_lt (by omega)]
  rw [translate_prog dir32 (by rw [BitVec.lt_def, value]; simp) (by omega), value]
  simp
  omega

theorem translate_unused (base : Base table s) (h0 : v.toNat / 2 ^ 22 ≠ 0)
    (h1 : v.toNat / 2 ^ 22 ≠ 1) (h32 : v.toNat / 2 ^ 22 ≠ 32) (h33 : v.toNat / 2 ^ 22 ≠ 33) :
    translate s v = none := by
  have dir := base.unused (getField v 22 10) (region_ne 0 h0) (region_ne 1 h1)
    (region_ne 32 h32) (region_ne 33 h33)
  simp only [translate, dir]
  rfl

theorem translate_eq_addressMap {pid : Word} (aligned : table.toNat % 4096 = 0)
    (base : Base table s) (dir32 : s.pageDir 32 = progEntry pid) (hpid : pid < 6) (v : Word) :
    translate s v = addressMap pid.toNat v := by
  rw [addressMap]
  by_cases h1 : v.toNat / 2 ^ 22 = 1
  · rw [translate_kernel base h1, if_pos (by omega)]
  rw [if_neg (by omega)]
  by_cases h0 : v.toNat / 2 ^ 22 = 0
  · obtain ⟨hp, hrw, hus, hps⟩ := vidTable_flags aligned
    have dir : s.pageDir (getField v 22 10) = vidTable table := by
      rw [dir_of_region 0 h0, base.video]
    have whole : v.toNat % 2 ^ 22 = v.toNat := by omega
    rw [translate_shared base dir hp hps hrw (vidTable_add table), whole, hus]
    split
    · rfl
    · rw [if_neg (by omega), if_neg (by omega)]
  rw [if_neg (by omega)]
  by_cases h32 : v.toNat / 2 ^ 22 = 32
  · rw [translate_prog dir32 hpid h32, if_pos (by omega)]
    simp
    omega
  rw [if_neg (by omega)]
  by_cases h33 : v.toNat / 2 ^ 22 = 33
  · obtain ⟨hp, hrw, hus, hps, hadd⟩ := userVidTable_flags aligned
    have dir : s.pageDir (getField v 22 10) = setField (vidTable table) 2 (1 : BitVec 1) := by
      rw [dir_of_region 33 h33, base.userVideo]
    have offset : v.toNat % 2 ^ 22 = v.toNat - 0x8400000 := by omega
    rw [translate_shared base dir hp hps hrw hadd, offset, hus]
    by_cases inside : 0x8400000 + 0xB8000 ≤ v.toNat ∧ v.toNat < 0x8400000 + 0xC0000
    · rw [if_pos (by omega), if_pos inside]
      rfl
    · rw [if_neg (by omega), if_neg inside]
  · rw [if_neg (by omega), translate_unused base h0 h1 h32 h33]

theorem userReaches_within {pid : Word} (aligned : table.toNat % 4096 = 0) (base : Base table s)
    (dir32 : s.pageDir 32 = progEntry pid) (hpid : pid < 6) {a : Nat} (h : UserReaches s a) :
    (0x800000 + 0x400000 * pid.toNat ≤ a ∧ a < 0xC00000 + 0x400000 * pid.toNat) ∨
      (0xB8000 ≤ a ∧ a < 0xC0000) := by
  obtain ⟨v, m, hm, hu, rfl⟩ := h
  rw [translate_eq_addressMap aligned base dir32 hpid v, addressMap] at hm
  split_ifs at hm with hk hv hp huv
  · rw [Option.some_inj] at hm
    exact absurd hu (by simp [← hm])
  · rw [Option.some_inj] at hm
    exact absurd hu (by simp [← hm])
  · rw [Option.some_inj] at hm
    rw [← hm]
    dsimp only
    omega
  · rw [Option.some_inj] at hm
    rw [← hm]
    dsimp only
    omega

end Translation

def afterSwitches (table : Word) (s : PageTables) (history : List Word) (pid : Word) : PageTables :=
  (history ++ [pid]).foldl mapProg (pageInit table s)

theorem afterSwitches_base (table : Word) (s : PageTables) (history : List Word) (pid : Word) :
    Base table (afterSwitches table s history pid) :=
  foldl_mapProg_base _ (pageInit_base table s)

theorem afterSwitches_pageDir (table : Word) (s : PageTables) (history : List Word) (pid : Word) :
    (afterSwitches table s history pid).pageDir 32 = progEntry pid := by
  rw [afterSwitches, List.foldl_append]
  exact mapProg_pageDir _ pid

/-- The address-space map of a program, and what two programs can share. -/
theorem address_space {table : Word} (aligned : table.toNat % 4096 = 0) (s : PageTables)
    (history : List Word) {pid : Word} (hpid : pid < 6) :
    (∀ v, translate (afterSwitches table s history pid) v = addressMap pid.toNat v) ∧
    (∀ a, UserReaches (afterSwitches table s history pid) a → ¬ (0x400000 ≤ a ∧ a < 0x800000)) ∧
    ∀ (s' : PageTables) (history' : List Word) (qid : Word), qid < 6 → qid ≠ pid → ∀ a,
      UserReaches (afterSwitches table s history pid) a →
      UserReaches (afterSwitches table s' history' qid) a → 0xB8000 ≤ a ∧ a < 0xC0000 := by
  have base := afterSwitches_base table s history pid
  have dir32 := afterSwitches_pageDir table s history pid
  refine ⟨translate_eq_addressMap aligned base dir32 hpid, fun a ha => ?_,
    fun s' history' qid hqid hne a ha ha' => ?_⟩
  · have h := userReaches_within aligned base dir32 hpid ha
    omega
  · have h := userReaches_within aligned base dir32 hpid ha
    have h' := userReaches_within aligned (afterSwitches_base table s' history' qid)
      (afterSwitches_pageDir table s' history' qid) hqid ha'
    have differ : qid.toNat ≠ pid.toNat := fun e => hne (BitVec.eq_of_toNat_eq e)
    omega

theorem mapped_run_le {table : Word} (aligned : table.toNat % 4096 = 0) (s : PageTables)
    (history : List Word) {pid : Word} (hpid : pid < 6) {v : Word} {n : Nat}
    (run : ∀ i < n, Mapped (afterSwitches table s history pid) (v + BitVec.ofNat 32 i)) :
    n ≤ 0x400000 := by
  by_contra long
  have bound := v.isLt
  -- the first address behind the area that `v` lies in
  have stop : ∀ e : Nat, v.toNat ≤ e → e ≤ v.toNat + 0x400000 → e < 2 ^ 32 →
      addressMap pid.toNat (BitVec.ofNat 32 e) ≠ none := by
    intro e low high limit
    have there := run (e - v.toNat) (by omega)
    have place : v + BitVec.ofNat 32 (e - v.toNat) = BitVec.ofNat 32 e := by
      apply BitVec.eq_of_toNat_eq
      rw [BitVec.toNat_add, BitVec.toNat_ofNat, BitVec.toNat_ofNat]
      omega
    rwa [place, Mapped, translate_eq_addressMap aligned (afterSwitches_base table s history pid)
      (afterSwitches_pageDir table s history pid) hpid] at there
  have first := stop v.toNat le_rfl (by omega) bound
  rw [BitVec.ofNat_toNat, BitVec.setWidth_eq, addressMap] at first
  split_ifs at first with kernel video prog userVideo
  · exact stop 0x800000 (by omega) (by omega) (by decide) rfl
  · exact stop 0xC0000 (by omega) (by omega) (by decide) rfl
  · exact stop 0x8400000 (by omega) (by omega) (by decide) rfl
  · exact stop 0x84C0000 (by omega) (by omega) (by decide) rfl
  · exact first rfl

theorem address_space_sample :
    ∃ table pid : Word, table.toNat % 4096 = 0 ∧ pid < 6 ∧
      translate (afterSwitches table ⟨fun _ => 0, fun _ _ => 0⟩ [0] pid) 0x08048018 =
        some ⟨0x00C48018, true, true⟩ := by
  refine ⟨0x00405000, 1, by decide, by decide, ?_⟩
  rw [(address_space (by decide) ⟨fun _ => 0, fun _ _ => 0⟩ [0] (by decide)).1]
  decide

end LumettaOS.Paging
