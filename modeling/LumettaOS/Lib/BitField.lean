import Mathlib

/-! Bit-field views of a machine word: reading and assigning `w` bits at offset
`lo`, as the members of a packed C bit-field do. -/

namespace LumettaOS.Lib.BitField

variable {n w v : Nat}

def getField (word : BitVec n) (lo w : Nat) : BitVec w := word.extractLsb' lo w

/-- Assign the `w` bits from `lo` on, all others stay. -/
def setField (word : BitVec n) (lo : Nat) (x : BitVec w) : BitVec n :=
  (word &&& ~~~((BitVec.allOnes w).setWidth n <<< lo)) ||| (x.setWidth n <<< lo)

theorem getLsbD_setField (word : BitVec n) (lo : Nat) (x : BitVec w) (i : Nat) (hi : i < n) :
    (setField word lo x).getLsbD i =
      if lo ≤ i ∧ i < lo + w then x.getLsbD (i - lo) else word.getLsbD i := by
  by_cases hl : lo ≤ i
  · by_cases hw : i - lo < w
    · have inside : i < lo + w := by omega
      simp [setField, hi, hl, hw, inside, Nat.not_lt.mpr hl]
    · have outside : ¬ i < lo + w := by omega
      have high : x.getLsbD (i - lo) = false := BitVec.getLsbD_of_ge x _ (by omega)
      simp [setField, hi, hl, hw, outside, high, Nat.not_lt.mpr hl]
  · simp [setField, hi, hl, Nat.lt_of_not_le hl]

theorem getField_setField_same (word : BitVec n) (lo : Nat) (x : BitVec w) (h : lo + w ≤ n) :
    getField (setField word lo x) lo w = x := by
  ext i hi
  simp only [getField, BitVec.getElem_extractLsb']
  rw [getLsbD_setField word lo x (lo + i) (by omega), if_pos (by omega), Nat.add_sub_cancel_left]
  simp [hi]

theorem getField_setField_disjoint (word : BitVec n) (lo lo' : Nat) (x : BitVec w)
    (hn : lo' + v ≤ n) (h : lo' + v ≤ lo ∨ lo + w ≤ lo') :
    getField (setField word lo x) lo' v = getField word lo' v := by
  ext i hi
  simp only [getField, BitVec.getElem_extractLsb']
  rw [getLsbD_setField word lo x (lo' + i) (by omega), if_neg (by omega)]

theorem getField_or (a b : BitVec n) (lo w : Nat) :
    getField (a ||| b) lo w = getField a lo w ||| getField b lo w := by
  ext i hi
  simp [getField]

theorem getField_of_mask (word mask : BitVec n) (lo w : Nat)
    (h : ∀ i < w, mask.getLsbD (lo + i) = true) :
    ((word &&& mask) >>> lo).setWidth w = getField word lo w := by
  ext i hi
  rw [BitVec.getElem_setWidth, BitVec.getLsbD_ushiftRight, BitVec.getLsbD_and, h i hi,
    Bool.and_true, getField, BitVec.getElem_extractLsb']

theorem getField_of_low_mask (word mask : BitVec n) (w : Nat)
    (h : ∀ i < w, mask.getLsbD i = true) : (word &&& mask).setWidth w = getField word 0 w := by
  rw [← getField_of_mask word mask 0 w (by simpa using h), BitVec.ushiftRight_zero]

theorem getField_append (word : BitVec n) {lo hi : Nat} (h : hi = lo + w) :
    getField word hi v ++ getField word lo w = getField word lo (v + w) :=
  BitVec.extractLsb'_append_extractLsb'_eq_extractLsb' h

theorem getField_full (word : BitVec n) : getField word 0 n = word := BitVec.extractLsb'_eq_self

theorem getField_eq_zero_of_dvd (word : BitVec n) (k lo w : Nat) (hd : 2 ^ k ∣ word.toNat)
    (h : lo + w ≤ k) : getField word lo w = 0 := by
  obtain ⟨c, hc⟩ := hd
  ext i hi
  have low : ¬ k ≤ lo + i := by omega
  simp only [getField, BitVec.getElem_extractLsb']
  rw [← BitVec.testBit_toNat, hc, Nat.testBit_two_pow_mul]
  simp [low]

end LumettaOS.Lib.BitField
