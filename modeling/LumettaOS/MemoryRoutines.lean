import LumettaOS.Lib.ByteLoop
import LumettaOS.Execute

/-! `memset` and `memcpy` of lib.c by their assembly: single bytes up to a multiple of
four, doublewords by a string instruction, and the bytes that are left. Addresses wrap
around at 2^32, and the counts are what is in `ecx` and `edx`. -/

namespace LumettaOS.MemoryRoutines
open Lib.ByteLoop Word

def storeByte (a : Word) (b : Byte) (m : Ram) : Ram := Function.update m a b

def storeDword (a v : Word) (m : Ram) : Ram :=
  storeByte (a + 1 + 1 + 1) (v.extractLsb' 24 8) (storeByte (a + 1 + 1) (v.extractLsb' 16 8)
    (storeByte (a + 1) (v.extractLsb' 8 8) (storeByte a (v.extractLsb' 0 8) m)))

def loadDword (a : Word) (m : Ram) : Word :=
  m (a + 1 + 1 + 1) ++ m (a + 1 + 1) ++ m (a + 1) ++ m a

def al (eax : Word) : Byte := eax.extractLsb' 0 8

def repStosl (eax : Word) : (ecx : Nat) → (edi : Word) → Ram → Word × Ram
  | 0, edi, m => (edi, m)
  | ecx + 1, edi, m => repStosl eax ecx (edi + 4) (storeDword edi eax m)

def memsetBottom (eax : Word) : (edx : Nat) → (edi : Word) → Ram → Ram
  | 0, _, m => m
  | edx + 1, edi, m => memsetBottom eax edx (edi + 1) (storeByte edi (al eax) m)

def memsetAligned (eax : Word) (ecx : Nat) (edi : Word) (m : Ram) : Ram :=
  let r := repStosl eax (ecx >>> 2) edi m
  memsetBottom eax (ecx &&& 3) r.1 r.2

/-- From `.memset_top` on. -/
def memsetTop (eax : Word) : (ecx : Nat) → (edi : Word) → Ram → Ram
  | 0, _, m => m
  | ecx + 1, edi, m =>
    if edi &&& 3 = 0 then memsetAligned eax (ecx + 1) edi m
    else memsetTop eax ecx (edi + 1) (storeByte edi (al eax) m)

/-- `c << 24 | c << 16 | c << 8 | c` of the low byte. -/
def fillWord (c : Word) : Word :=
  let c := c &&& 0xFF
  c <<< 24 ||| c <<< 16 ||| c <<< 8 ||| c

def memset (s c n : Word) (m : Ram) : Ram := memsetTop (fillWord c) n.toNat s m

def repMovsl : (ecx : Nat) → (edi esi : Word) → Ram → Word × Word × Ram
  | 0, edi, esi, m => (edi, esi, m)
  | ecx + 1, edi, esi, m => repMovsl ecx (edi + 4) (esi + 4) (storeDword edi (loadDword esi m) m)

def memcpyBottom : (edx : Nat) → (edi esi : Word) → Ram → Ram
  | 0, _, _, m => m
  | edx + 1, edi, esi, m => memcpyBottom edx (edi + 1) (esi + 1) (storeByte edi (m esi) m)

def memcpyAligned (ecx : Nat) (edi esi : Word) (m : Ram) : Ram :=
  let r := repMovsl (ecx >>> 2) edi esi m
  memcpyBottom (ecx &&& 3) r.1 r.2.1 r.2.2

def memcpyTop : (ecx : Nat) → (edi esi : Word) → Ram → Ram
  | 0, _, _, m => m
  | ecx + 1, edi, esi, m =>
    if edi &&& 3 = 0 then memcpyAligned (ecx + 1) edi esi m
    else memcpyTop ecx (edi + 1) (esi + 1) (storeByte edi (m esi) m)

def memcpy (dest src n : Word) (m : Ram) : Ram := memcpyTop n.toNat dest src m

def Apart (src dest : Word) (n : Nat) : Prop :=
  ∀ i j, i < n → j < n → place src i ≠ place dest j

theorem split_count (n : Nat) : 4 * (n >>> 2) + (n &&& 3) = n := by
  have quotient : n >>> 2 = n / 4 := Nat.shiftRight_eq_div_pow n 2
  have remainder : n &&& 3 = n % 4 := Nat.and_two_pow_sub_one_eq_mod n 2
  rw [quotient, remainder]
  exact Nat.div_add_mod n 4

section Fill

variable (p : Word) {eax : Word}

def Uniform (eax : Word) : Prop :=
  eax.extractLsb' 8 8 = al eax ∧ eax.extractLsb' 16 8 = al eax ∧ eax.extractLsb' 24 8 = al eax

theorem storeDword_fill (h : Uniform eax) (i : Nat) (m : Ram) :
    storeDword (place p i) eax m = fillFrom (place p) (al eax) 4 i m := by
  obtain ⟨second, third, fourth⟩ := h
  simp only [storeDword, second, third, fourth, place_succ, fillFrom, storeByte]
  rfl

theorem repStosl_eq (h : Uniform eax) (q i : Nat) (m : Ram) :
    repStosl eax q (place p i) m =
      (place p (i + 4 * q), fillFrom (place p) (al eax) (4 * q) i m) := by
  induction q generalizing i m with
  | zero => rfl
  | succ q ih =>
    have count : 4 * (q + 1) = 4 + 4 * q := by omega
    rw [repStosl, place_four, ih, storeDword_fill p h, count, fillFrom_add, Nat.add_assoc]

theorem memsetBottom_eq (r i : Nat) (m : Ram) :
    memsetBottom eax r (place p i) m = fillFrom (place p) (al eax) r i m := by
  induction r generalizing i m with
  | zero => rfl
  | succ r ih => rw [memsetBottom, place_succ, ih, fillFrom, storeByte]

theorem memsetAligned_eq (h : Uniform eax) (n i : Nat) (m : Ram) :
    memsetAligned eax n (place p i) m = fillFrom (place p) (al eax) n i m := by
  rw [memsetAligned, repStosl_eq p h, memsetBottom_eq]
  conv_rhs => rw [← split_count n, fillFrom_add]

theorem memsetTop_eq (h : Uniform eax) (n i : Nat) (m : Ram) :
    memsetTop eax n (place p i) m = fillFrom (place p) (al eax) n i m := by
  induction n generalizing i m with
  | zero => rfl
  | succ n ih =>
    rw [memsetTop]
    split
    · exact memsetAligned_eq p h (n + 1) i m
    · rw [place_succ, ih, fillFrom, storeByte]

theorem low_byte_bit (c : Word) (j : Nat) :
    (c &&& 0xFF).getLsbD j = (decide (j < 8) && c.getLsbD j) := by
  have low : (0xFF : Word) = BitVec.setWidth 32 (BitVec.allOnes 8) := by decide
  rw [BitVec.getLsbD_and, low, BitVec.getLsbD_setWidth, BitVec.getLsbD_allOnes]
  by_cases hj : j < 8
  · have wide : j < 32 := by omega
    simp [hj, wide]
  · simp [hj]

theorem shifted_lane (c : Word) {j k : Nat} (s : Nat) (hj : j < 8) (hk : k < 4) :
    ((c &&& 0xFF) <<< (8 * s)).getLsbD (8 * k + j) = (decide (k = s) && c.getLsbD j) := by
  have wide : 8 * k + j < 32 := by omega
  rw [BitVec.getLsbD_shiftLeft, low_byte_bit]
  rcases Nat.lt_trichotomy k s with before | rfl | behind
  · have low : 8 * k + j < 8 * s := by omega
    simp [low, before.ne]
  · simp [wide, hj]
  · have high : ¬ 8 * k + j - 8 * s < 8 := by omega
    simp [high, behind.ne']

theorem fillWord_lane (c : Word) {k : Nat} (h : k < 4) :
    (fillWord c).extractLsb' (8 * k) 8 = c.setWidth 8 := by
  ext j hj
  have fourth := shifted_lane c 3 hj h
  have third := shifted_lane c 2 hj h
  have second := shifted_lane c 1 hj h
  have first := shifted_lane c 0 hj h
  rw [Nat.mul_zero, BitVec.shiftLeft_zero] at first
  rw [BitVec.getElem_extractLsb', fillWord, BitVec.getLsbD_or, BitVec.getLsbD_or,
    BitVec.getLsbD_or, fourth, third, second, first, BitVec.getElem_setWidth]
  interval_cases k <;> simp

theorem fillWord_uniform (c : Word) : Uniform (fillWord c) ∧ al (fillWord c) = c.setWidth 8 := by
  have low := fillWord_lane c (show 0 < 4 by decide)
  have second := fillWord_lane c (show 1 < 4 by decide)
  have third := fillWord_lane c (show 2 < 4 by decide)
  have fourth := fillWord_lane c (show 3 < 4 by decide)
  have first : al (fillWord c) = c.setWidth 8 := low
  refine ⟨⟨?_, ?_, ?_⟩, first⟩
  · rw [first]
    exact second
  · rw [first]
    exact third
  · rw [first]
    exact fourth

end Fill

section Copy

variable {dest src : Word} {N : Nat}

theorem loadDword_lanes (a : Word) (m : Ram) :
    (loadDword a m).extractLsb' 0 8 = m a ∧ (loadDword a m).extractLsb' 8 8 = m (a + 1) ∧
      (loadDword a m).extractLsb' 16 8 = m (a + 1 + 1) ∧
      (loadDword a m).extractLsb' 24 8 = m (a + 1 + 1 + 1) := by
  refine ⟨?_, ?_, ?_, ?_⟩
  · exact BitVec.extractLsb'_append_eq_right
  · exact (BitVec.extractLsb'_append_eq_of_le (by decide)).trans
      BitVec.extractLsb'_append_eq_right
  · rw [loadDword, BitVec.extractLsb'_append_eq_of_le (by decide),
      BitVec.extractLsb'_append_eq_of_le (by decide)]
    exact BitVec.extractLsb'_append_eq_right
  · rw [loadDword, BitVec.extractLsb'_append_eq_of_le (by decide),
      BitVec.extractLsb'_append_eq_of_le (by decide),
      BitVec.extractLsb'_append_eq_of_le (by decide)]
    exact BitVec.extractLsb'_eq_self

theorem storeDword_copy (h : Apart src dest N) {i : Nat} (hi : i + 4 ≤ N) (m : Ram) :
    storeDword (place dest i) (loadDword (place src i) m) m =
      copyFrom (place dest) (place src) 4 i m := by
  obtain ⟨first, second, third, fourth⟩ := loadDword_lanes (place src i) m
  have apart : ∀ k l, i ≤ k → k < i + 4 → i ≤ l → l < i + 4 → place src k ≠ place dest l :=
    fun k l _ hk _ hl => h k l (by omega) (by omega)
  -- The byte loop reads each byte after the stores before it, which lie elsewhere.
  simp (disch := omega) only [storeDword, first, second, third, fourth, place_succ, copyFrom,
    storeByte, Function.update_of_ne (apart _ _ _ _ _ _)]

theorem repMovsl_eq (h : Apart src dest N) (q : Nat) {i : Nat} (hi : i + 4 * q ≤ N) (m : Ram) :
    repMovsl q (place dest i) (place src i) m =
      (place dest (i + 4 * q), place src (i + 4 * q),
        copyFrom (place dest) (place src) (4 * q) i m) := by
  induction q generalizing i m with
  | zero => rfl
  | succ q ih =>
    have count : 4 * (q + 1) = 4 + 4 * q := by omega
    rw [repMovsl, place_four, place_four, storeDword_copy h (by omega), ih (by omega), count,
      copyFrom_add, Nat.add_assoc]

theorem memcpyBottom_eq (r i : Nat) (m : Ram) :
    memcpyBottom r (place dest i) (place src i) m =
      copyFrom (place dest) (place src) r i m := by
  induction r generalizing i m with
  | zero => rfl
  | succ r ih => rw [memcpyBottom, place_succ, place_succ, ih, copyFrom, storeByte]

theorem memcpyAligned_eq (h : Apart src dest N) {n i : Nat} (hi : i + n ≤ N) (m : Ram) :
    memcpyAligned n (place dest i) (place src i) m = copyFrom (place dest) (place src) n i m := by
  have count := split_count n
  rw [memcpyAligned, repMovsl_eq h _ (by omega), memcpyBottom_eq]
  conv_rhs => rw [← split_count n, copyFrom_add]

theorem memcpyTop_eq (h : Apart src dest N) {n i : Nat} (hi : i + n ≤ N) (m : Ram) :
    memcpyTop n (place dest i) (place src i) m = copyFrom (place dest) (place src) n i m := by
  induction n generalizing i m with
  | zero => rfl
  | succ n ih =>
    rw [memcpyTop]
    split
    · exact memcpyAligned_eq h hi m
    · rw [place_succ, place_succ, ih (by omega), copyFrom, storeByte]

end Copy

theorem memset_eq (s c n : Word) (m : Ram) :
    memset s c n m = fillFrom (place s) (c.setWidth 8) n.toNat 0 m := by
  obtain ⟨uniform, low⟩ := fillWord_uniform c
  have filled := memsetTop_eq s uniform n.toNat 0 m
  rwa [place_zero, low] at filled

theorem memcpy_eq {dest src n : Word} (h : Apart src dest n.toNat) (m : Ram) :
    memcpy dest src n m = copyFrom (place dest) (place src) n.toNat 0 m := by
  have copied := memcpyTop_eq h (Nat.zero_add n.toNat).le m
  rwa [place_zero, place_zero] at copied

theorem memset_at (s c : Word) {n : Word} {i : Nat} (hi : i < n.toNat) (m : Ram) :
    memset s c n m (place s i) = c.setWidth 8 := by
  rw [memset_eq, fillFrom_at _ _ _ (Nat.zero_le i) (by omega)]

theorem memset_other (s c : Word) {n x : Word} (m : Ram)
    (h : ∀ i, i < n.toNat → x ≠ place s i) : memset s c n m x = m x := by
  rw [memset_eq, fillFrom_other _ _ _ fun j _ hj => h j (by omega)]

theorem memcpy_at {dest src n : Word} (h : Apart src dest n.toNat) {i : Nat} (hi : i < n.toNat)
    (m : Ram) : memcpy dest src n m (place dest i) = m (place src i) := by
  have small := n.isLt
  rw [memcpy_eq h]
  refine copyFrom_at m ?_ ?_ (Nat.zero_le i) (by omega)
  · intro k l _ hkl hl
    exact place_ne dest hkl (by omega)
  · intro k l _ hk _ hl
    exact h k l (by omega) (by omega)

theorem memcpy_other {dest src n x : Word} (h : Apart src dest n.toNat) (m : Ram)
    (outside : ∀ i, i < n.toNat → x ≠ place dest i) : memcpy dest src n m x = m x := by
  rw [memcpy_eq h, copyFrom_other _ _ _ fun j _ hj => outside j (by omega)]

/-- Doublewords and bytes together leave the memory of the loop that takes one byte at a
time: the `n` bytes are set, and no other byte changes. -/
theorem copies_equal_byte_loop (dest src s c n : Word) (m : Ram) :
    (memset s c n m = fillFrom (place s) (c.setWidth 8) n.toNat 0 m ∧
      (∀ i, i < n.toNat → memset s c n m (place s i) = c.setWidth 8) ∧
      ∀ x, (∀ i, i < n.toNat → x ≠ place s i) → memset s c n m x = m x) ∧
    (Apart src dest n.toNat →
      memcpy dest src n m = copyFrom (place dest) (place src) n.toNat 0 m ∧
      (∀ i, i < n.toNat → memcpy dest src n m (place dest i) = m (place src i)) ∧
      ∀ x, (∀ i, i < n.toNat → x ≠ place dest i) → memcpy dest src n m x = m x) := by
  refine ⟨⟨memset_eq s c n m, fun i hi => memset_at s c hi m, fun x => memset_other s c m⟩, ?_⟩
  intro apart
  exact ⟨memcpy_eq apart m, fun i hi => memcpy_at apart hi m, fun x => memcpy_other apart m⟩

theorem copies_equal_byte_loop_sample :
    Apart 0x1000 0x2001 5 ∧
      memcpy 0x2001 0x1000 5 (fun a => a.setWidth 8) 0x2005 = 0x04 ∧
      memcpy 0x2001 0x1000 5 (fun a => a.setWidth 8) 0x2006 = 0x06 := by
  have apart : Apart 0x1000 0x2001 5 := by
    intro i j hi hj
    simp only [place]
    bv_omega
  obtain ⟨-, set, unchanged⟩ :=
    (copies_equal_byte_loop 0x2001 0x1000 0 0 5 fun a => a.setWidth 8).2 apart
  refine ⟨apart, set 4 (by decide), unchanged 0x2006 ?_⟩
  intro i hi
  simp only [place]
  change i < 5 at hi
  bv_omega

/-- `terminal_read` empties the line buffer with `memset(keyboard_buffer, 0, 128)`. -/
theorem memset_consumes (k : Keyboard) (a : Word) (m : Ram) {i : Nat} (small : i < 2 ^ 32)
    (view : k.buffer i = m (place a i)) :
    memset a 0 128 m (place a i) = (Terminal.consume k).buffer i := by
  by_cases hi : i < 128
  · rw [memset_at a 0 hi]
    exact (if_pos hi).symm
  · have outside : ∀ j, j < (128 : Word).toNat → place a i ≠ place a j := by
      intro j hj
      change j < 128 at hj
      exact (place_ne a (by omega) small).symm
    rw [memset_other a 0 m outside, ← view]
    exact (if_neg hi).symm

/-- What `sys_getargs` stores is what its `memcpy` from the saved arguments leaves in the
buffer. -/
theorem memcpy_getargs {stack : Memory} {null : Bool} {n src dest : Word} {p : Pcb}
    {stored : List Byte} (m : Ram) (apart : Apart src dest n.toNat)
    (view : ∀ i, i < n.toNat → m (place src i) = Execute.argsMemory p stack i)
    (h : Execute.sysGetargs stack null n (some p) = some (0, stored)) :
    stored = (List.range n.toNat).map fun i => memcpy dest src n m (place dest i) := by
  have copied : (List.range n.toNat).map (Execute.argsMemory p stack) =
      (List.range n.toNat).map fun i => memcpy dest src n m (place dest i) := by
    refine List.map_congr_left fun i hi => ?_
    rw [memcpy_at apart (List.mem_range.mp hi), view i (List.mem_range.mp hi)]
  simp only [Execute.sysGetargs, Option.map_some] at h
  split at h
  · cases h
  · split at h
    · cases h
    · split at h
      · cases h
      · cases h
        exact copied

end LumettaOS.MemoryRoutines
