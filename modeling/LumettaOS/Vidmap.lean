import LumettaOS.AddressSpace
import LumettaOS.Execute

/-! `sys_vidmap` looks at the first byte of what it stores, and at that with a bound
that admits 132MB itself; the store is four bytes wide. -/

namespace LumettaOS.Execute
open Paging

/-- A call that does not refuse stores into the program page only, and what it stores is
an address where user mode can write to video memory. -/
structure KeepsToPage (pages : PageTables) (screenStart : Word) : Prop where
  stores : (sysVidmap screenStart).1 ≠ -1 →
    ∀ a ∈ vidmapStores screenStart, Word.mb128 ≤ a ∧ a < Word.mb132
  video : (sysVidmap screenStart).1 ≠ -1 →
    ∃ a, (sysVidmap screenStart).2 = some a ∧ translate pages a = some ⟨0xB8000, true, true⟩

theorem translate_screen {table : Word} (aligned : table.toNat % 4096 = 0) {pages : PageTables}
    (base : Base table pages) :
    translate pages (Word.mb4 * 33 + 0xB8000) = some ⟨0xB8000, true, true⟩ := by
  obtain ⟨hp, hrw, hus, hps, hadd⟩ := userVidTable_flags aligned
  have dir : pages.pageDir (Lib.BitField.getField (Word.mb4 * 33 + 0xB8000) 22 10) =
      Lib.BitField.setField (vidTable table) 2 (1 : BitVec 1) := by
    rw [dir_of_region 33 (by decide), base.userVideo]
  have offset : (Word.mb4 * 33 + 0xB8000).toNat % 2 ^ 22 = 0xB8000 := by decide
  rw [translate_shared base dir hp hps hrw hadd, offset, if_pos (by decide), hus]
  rfl

section Stores

variable {screenStart : Word}

theorem sysVidmap_refused (h : screenStart < Word.mb128 ∨ Word.mb132 < screenStart) :
    sysVidmap screenStart = (-1, none) := if_pos h

theorem sysVidmap_accepted (low : 0x8000000 ≤ screenStart.toNat)
    (high : screenStart.toNat ≤ 0x8400000) :
    sysVidmap screenStart = (0, some (Word.mb4 * 33 + 0xB8000)) := by
  refine if_neg (not_or.mpr ⟨?_, ?_⟩)
  · exact Nat.not_lt.mpr low
  · exact Nat.not_lt.mpr high

theorem stores_inside_iff (low : 0x8000000 ≤ screenStart.toNat)
    (high : screenStart.toNat ≤ 0x8400000) :
    (∀ a ∈ vidmapStores screenStart, Word.mb128 ≤ a ∧ a < Word.mb132) ↔
      screenStart.toNat ≤ 0x8400000 - 4 := by
  have place : ∀ i < 4, (screenStart + BitVec.ofNat 32 i).toNat = screenStart.toNat + i := by
    intro i hi
    rw [BitVec.toNat_add, BitVec.toNat_ofNat]
    omega
  have ends : Word.mb128.toNat = 0x8000000 ∧ Word.mb132.toNat = 0x8400000 := by decide
  simp only [vidmapStores, sysVidmap_accepted low high, List.forall_mem_map, List.mem_range,
    BitVec.le_def, BitVec.lt_def, ends.1, ends.2]
  refine ⟨fun inside => ?_, fun fits i hi => ?_⟩
  · have last := (inside 3 (by omega)).2
    rw [place 3 (by omega)] at last
    omega
  · rw [place i hi]
    omega

end Stores

/-- After `page_init` and any program switches, exactly the four addresses up to 132MB
make `sys_vidmap` store outside the program page. -/
theorem vidmap_inside_iff {table : Word} (aligned : table.toNat % 4096 = 0) (pages : PageTables)
    (history : List Word) (screenStart : Word) :
    KeepsToPage (history.foldl mapProg (pageInit table pages)) screenStart ↔
      (screenStart.toNat ≤ 0x8400000 - 4 ∨ 0x8400000 < screenStart.toNat) := by
  have base := foldl_mapProg_base history (pageInit_base table pages)
  by_cases refused : screenStart < Word.mb128 ∨ Word.mb132 < screenStart
  · refine iff_of_true ?_ ?_
    · have minus := sysVidmap_refused refused
      exact ⟨fun h => absurd (by rw [minus]) h, fun h => absurd (by rw [minus]) h⟩
    · rcases refused with low | high
      · have below : screenStart.toNat < 0x8000000 := low
        omega
      · exact Or.inr high
  · obtain ⟨low, high⟩ := not_or.mp refused
    have low : 0x8000000 ≤ screenStart.toNat := Nat.not_lt.mp low
    have high : screenStart.toNat ≤ 0x8400000 := Nat.not_lt.mp high
    have accepted := sysVidmap_accepted low high
    have zero : (sysVidmap screenStart).1 ≠ -1 := by
      rw [accepted]
      decide
    refine ⟨fun keeps => ?_, fun fits => ⟨fun _ => ?_, fun _ => ?_⟩⟩
    · exact Or.inl ((stores_inside_iff low high).mp (keeps.stores zero))
    · exact (stores_inside_iff low high).mpr (by omega)
    · exact ⟨_, by rw [accepted], translate_screen aligned base⟩

theorem vidmap_inside_iff_sample :
    (sysVidmap 0x083FFFFC).1 = 0 ∧
      KeepsToPage (pageInit 0x405000 ⟨fun _ => 0, fun _ _ => 0⟩) 0x083FFFFC :=
  ⟨by decide, (vidmap_inside_iff (by decide) _ [] _).mpr (by decide)⟩

/-- At 132MB the call does not refuse, and no page is mapped where it stores. -/
theorem vidmap_stores_behind_page :
    (sysVidmap Word.mb132).1 = 0 ∧ Word.mb132 ∈ vidmapStores Word.mb132 ∧
      translate (pageInit 0x405000 ⟨fun _ => 0, fun _ _ => 0⟩) Word.mb132 = none ∧
      ¬ KeepsToPage (pageInit 0x405000 ⟨fun _ => 0, fun _ _ => 0⟩) Word.mb132 := by
  have stored : Word.mb132 ∈ vidmapStores Word.mb132 := by decide
  refine ⟨by decide, stored, by decide, fun keeps => ?_⟩
  have inside := (keeps.stores (by decide) _ stored).2
  exact absurd inside (by decide)

end LumettaOS.Execute
