import LumettaOS.MemoryRoutines

/-! `memmove` of lib.c, which copies upwards or downwards so that no byte is overwritten
before it has been read. -/

namespace LumettaOS.MemoryRoutines
open Lib.ByteLoop Word

def repMovsb (down : Bool) : (ecx : Nat) → (edi esi : Word) → Ram → Ram
  | 0, _, _, m => m
  | ecx + 1, edi, esi, m =>
    repMovsb down ecx (if down then edi - 1 else edi + 1) (if down then esi - 1 else esi + 1)
      (storeByte edi (m esi) m)

/-- The direction flag and memory behind `memmove`: nothing clears the flag again. -/
def memmove (dest src n : Word) (m : Ram) : Bool × Ram :=
  if dest ≤ src then (false, repMovsb false n.toNat dest src m)
  else (true, repMovsb true n.toNat (dest + n - 1) (src + n - 1) m)

section Loops

variable (dest src : Word)

theorem repMovsb_up (n i : Nat) (m : Ram) :
    repMovsb false n (place dest i) (place src i) m =
      copyFrom (place dest) (place src) n i m := by
  induction n generalizing i m with
  | zero => rfl
  | succ n ih =>
    rw [repMovsb, copyFrom, storeByte, ← ih, ← place_succ, ← place_succ]
    rfl

theorem place_pred (p : Word) (i : Nat) : place p (i + 1) - 1 = place p i := by
  rw [← place_succ, BitVec.add_sub_cancel]

/-- The same loop downwards is a loop over the places in the opposite order. -/
theorem repMovsb_down (n i : Nat) (m : Ram) {total : Nat} (h : i + n = total) :
    repMovsb true n (place dest n - 1) (place src n - 1) m =
      copyFrom (fun k => place dest (total - 1 - k)) (fun k => place src (total - 1 - k))
        n i m := by
  induction n generalizing i m with
  | zero => rfl
  | succ n ih =>
    have last : total - 1 - i = n := by omega
    rw [repMovsb, copyFrom, place_pred, place_pred, last, ← ih (i + 1) _ (by omega), storeByte]
    rfl

end Loops

theorem place_apart {p q : Word} {i j : Nat} (up : p.toNat ≤ q.toNat) (less : i < j)
    (near : q.toNat + j < 2 ^ 32 + p.toNat) : place q j ≠ place p i := by
  intro e
  have value := congrArg BitVec.toNat e
  rw [place, place, BitVec.toNat_add, BitVec.toNat_add, BitVec.toNat_ofNat, BitVec.toNat_ofNat]
    at value
  have bound := q.isLt
  omega

/-- `memmove` moves the bytes whichever way the two ranges overlap, unless they meet around
the end of memory, and changes no other byte. Where the destination is above the source the
direction flag stays set. -/
theorem memmove_moves (dest src n : Word) (m : Ram)
    (up : src.toNat + n.toNat ≤ 2 ^ 32 + dest.toNat)
    (down : dest.toNat + n.toNat ≤ 2 ^ 32 + src.toNat) :
    ((memmove dest src n m).1 = true ↔ src < dest) ∧
      (∀ i, i < n.toNat → (memmove dest src n m).2 (place dest i) = m (place src i)) ∧
      ∀ x, (∀ i, i < n.toNat → x ≠ place dest i) → (memmove dest src n m).2 x = m x := by
  have small := n.isLt
  by_cases forward : dest ≤ src
  · have le : dest.toNat ≤ src.toNat := forward
    have loop := repMovsb_up dest src n.toNat 0 m
    rw [place_zero, place_zero] at loop
    rw [memmove, if_pos forward, loop]
    refine ⟨by simpa using forward, fun i hi => ?_, fun x other => ?_⟩
    · exact copyFrom_ahead m (fun k l _ hkl hl => place_ne dest hkl (by omega))
        (fun k l _ hlk hk => place_apart le hlk (by omega)) (Nat.zero_le i) (by omega)
    · exact copyFrom_other _ _ m fun j _ hj => other j (by omega)
  · have lt : src.toNat < dest.toNat := by
      rw [BitVec.le_def] at forward
      omega
    have count : BitVec.ofNat 32 n.toNat = n := by simp
    have loop := repMovsb_down dest src n.toNat 0 m (Nat.zero_add _)
    rw [place, place, count] at loop
    rw [memmove, if_neg forward, loop]
    refine ⟨⟨fun _ => lt, fun _ => rfl⟩, fun i hi => ?_, fun x other => ?_⟩
    · have back : n.toNat - 1 - (n.toNat - 1 - i) = i := by omega
      have copied : copyFrom (fun k => place dest (n.toNat - 1 - k))
          (fun k => place src (n.toNat - 1 - k)) n.toNat 0 m
          (place dest (n.toNat - 1 - (n.toNat - 1 - i))) =
            m (place src (n.toNat - 1 - (n.toNat - 1 - i))) :=
        copyFrom_ahead (j := n.toNat - 1 - i) m
          (fun k l _ hkl hl => (place_ne dest (by omega) (by omega)).symm)
          (fun k l _ hlk hk => (place_apart lt.le (by omega) (by omega)).symm) (Nat.zero_le _)
          (by omega)
      rw [back] at copied
      exact copied
    · exact copyFrom_other _ _ m fun j _ hj => other _ (by omega)

theorem memmove_moves_sample :
    (memmove 0x1001 0x1000 3 (fun a => a.setWidth 8)).1 = true ∧
      (memmove 0x1001 0x1000 3 (fun a => a.setWidth 8)).2 0x1003 = 0x02 ∧
      (memmove 0x1001 0x1000 3 (fun a => a.setWidth 8)).2 0x1004 = 0x04 := by
  obtain ⟨flag, moved, kept⟩ := memmove_moves 0x1001 0x1000 3
    (fun a => a.setWidth 8) (by decide) (by decide)
  refine ⟨flag.mpr (by decide), moved 2 (by decide), kept 0x1004 fun i hi => ?_⟩
  have few : i < 3 := hi
  interval_cases i <;> decide

end LumettaOS.MemoryRoutines
