import LumettaOS.Lib.Scan

/-! Machine words. A C `uint32_t` and an `int32_t` are the same `BitVec 32`, read
with `toNat` or with `toInt`; the conversions of the C code are then identities.
Constants are those of syscall.h, filesystem.h and keyboard.h. -/

namespace LumettaOS

abbrev Byte := BitVec 8
abbrev Word := BitVec 32

/-- Bytes from an address on, by their distance from it. -/
abbrev Memory := Nat → Byte

/-- All of memory, by address. -/
abbrev Ram := Word → Byte

namespace Word

def mb128 : Word := 0x08000000
def mb132 : Word := 0x08400000
def mb8 : Word := 0x00800000
def mb4 : Word := 0x00400000
def kb8 : Word := 0x00002000
def procOffset : Word := 0x00048000
def kernelStackBottom : Word := 1023 * 4096

theorem toInt_of_nonneg {n : Word} (h : 0 ≤ n.toInt) : n.toInt = n.toNat := by
  rw [BitVec.toInt_eq_toNat_cond] at h ⊢
  split at h
  · rw [if_pos (by assumption)]
  · omega

theorem toInt_nonneg_iff {n : Word} : 0 ≤ n.toInt ↔ n.toNat < 2147483648 := by
  rw [BitVec.toInt_eq_toNat_cond]
  split <;> omega

theorem toInt_of_toNat_lt {n : Word} {k : Nat} (h : n.toNat < k) (hk : k ≤ 2147483648) :
    n.toInt = n.toNat :=
  toInt_of_nonneg (toInt_nonneg_iff.mpr (by omega))

def place (p : Word) (i : Nat) : Word := p + BitVec.ofNat 32 i

theorem place_zero (p : Word) : place p 0 = p := by simp [place]

theorem place_succ (p : Word) (i : Nat) : place p i + 1 = place p (i + 1) := by
  rw [place, place, BitVec.ofNat_add, ← BitVec.add_assoc]
  rfl

theorem place_four (p : Word) (i : Nat) : place p i + 4 = place p (i + 4) := by
  rw [place, place, BitVec.ofNat_add, ← BitVec.add_assoc]
  rfl

theorem place_ne (p : Word) {i j : Nat} (h : i < j) (hj : j < 2 ^ 32) : place p i ≠ place p j := by
  simp only [place]
  bv_omega

theorem exists_place (p q : Word) : ∃ i < 2 ^ 32, place p i = q := by
  refine ⟨(q - p).toNat, (q - p).isLt, ?_⟩
  rw [place, BitVec.ofNat_toNat, BitVec.setWidth_eq]
  bv_omega

end Word

end LumettaOS
