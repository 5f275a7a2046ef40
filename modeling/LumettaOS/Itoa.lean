import LumettaOS.Lib.ByteLoop
import LumettaOS.CString

/-! Numerals. `itoa` divides the digits off lowest first and then has `strrev` turn the
string round in place. -/

namespace LumettaOS.Itoa
open Lib.ByteLoop CString

def lookup : List Byte :=
  [0x30, 0x31, 0x32, 0x33, 0x34, 0x35, 0x36, 0x37, 0x38, 0x39, 0x41, 0x42, 0x43, 0x44, 0x45, 0x46,
    0x47, 0x48, 0x49, 0x4A, 0x4B, 0x4C, 0x4D, 0x4E, 0x4F, 0x50, 0x51, 0x52, 0x53, 0x54, 0x55, 0x56,
    0x57, 0x58, 0x59, 0x5A]

/-- The division loop, with the index of `newbuf` and the buffer behind it. A quotient by
two or more is gone after 32 rounds; `none` is a loop that never ends, or a division by
zero. -/
def digitLoop (radix : Word) :
    (fuel : Nat) → (newval : Word) → (newbuf : Nat) → Memory → Option (Nat × Memory)
  | 0, _, _, _ => none
  | fuel + 1, newval, newbuf, m =>
    if newval = 0 then some (newbuf, m)
    else if radix = 0 then none
    else digitLoop radix fuel (newval / radix) (newbuf + 1)
      (Function.update m newbuf (lookup.getD (newval % radix).toNat 0))

def strrev (s : Memory) : Memory := swapFrom (strlen s) 0 (strlen s - 1) s

def itoa (value : Word) (buf : Memory) (radix : Word) : Option Memory :=
  if value = 0 then some (Function.update (Function.update buf 0 0x30) 1 0)
  else (digitLoop radix 33 value 0 buf).map fun r => strrev (Function.update r.2 r.1 0)

def digit (d : Nat) : Byte := BitVec.ofNat 8 (if d < 10 then 0x30 + d else 0x41 + (d - 10))

def Denotes (b v : Nat) (text : List Byte) : Prop :=
  ∃ ds : List Nat, text = ds.map digit ∧ (∀ d ∈ ds, d < b) ∧ Nat.ofDigits b ds.reverse = v

/-- The numeral of `v` in base `b`, with no zero in front. -/
structure Numeral (b v : Nat) (text : List Byte) : Prop where
  denotes : Denotes b v text
  zero : v = 0 → text = [0x30]
  front : v ≠ 0 → text ≠ [] ∧ text.head? ≠ some 0x30

def numeral (b v : Nat) : List Byte :=
  if v = 0 then [0x30] else ((Nat.digits b v).map digit).reverse

theorem lookup_eq {d : Nat} (h : d < 36) : lookup.getD d 0 = digit d := by
  have all : ∀ d, d < 36 → lookup.getD d 0 = digit d := by decide
  exact all d h

theorem digit_ne_zero {d : Nat} (h : d < 36) : digit d ≠ 0 := by
  have all : ∀ d, d < 36 → digit d ≠ 0 := by decide
  exact all d h

theorem digit_eq_zero_iff {d : Nat} (h : d < 36) : digit d = 0x30 ↔ d = 0 := by
  have all : ∀ d, d < 36 → (digit d = 0x30 ↔ d = 0) := by decide
  exact all d h

section Reverse

variable {s : Memory} {text : List Byte}

theorem strrev_isString (h : IsString s text) (small : text.length ≤ 2 ^ 32) :
    IsString (strrev s) text.reverse := by
  have front := (holds_append.mp h.holds).1
  rw [strrev, h.strlen small, swapFrom_eq s (by omega)]
  refine ⟨holds_append.mpr ⟨?_, ?_⟩, fun b hb => h.live b (List.mem_reverse.mp hb)⟩
  · intro i b hb
    obtain ⟨inside, -⟩ := List.getElem?_eq_some_iff.mp hb
    rw [List.length_reverse] at inside
    rw [List.getElem?_reverse inside] at hb
    have mirrored : 0 + (text.length - 1) - i = text.length - 1 - i := by omega
    rw [turned, if_pos (by omega), mirrored]
    exact front _ b hb
  · rw [holds_singleton, List.length_reverse, Nat.add_zero, turned]
    split
    · -- Only the empty text has its terminator among the places.
      have empty : 0 + (text.length - 1) - text.length = text.length := by omega
      rw [empty]
      exact h.ends
    · exact h.ends

end Reverse

section Digits

variable {b : Nat} {radix : Word} (hb : 1 < b) (hb' : b ≤ 36) (hr : radix.toNat = b)

include hb hb'

theorem digits_lt {v d : Nat} (h : d ∈ Nat.digits b v) : d < 36 :=
  lt_of_lt_of_le (Nat.digits_lt_base hb h) hb'

theorem live_digits (v : Nat) : ∀ c ∈ (Nat.digits b v).map digit, c ≠ 0 := by
  intro c hc
  obtain ⟨d, hd, rfl⟩ := List.mem_map.mp hc
  exact digit_ne_zero (digits_lt hb hb' hd)

theorem numeral_live (v : Nat) : ∀ c ∈ numeral b v, c ≠ 0 := by
  rw [numeral]
  split
  · decide
  · intro c hc
    exact live_digits hb hb' v c (List.mem_reverse.mp hc)

theorem numeral_spec (v : Nat) : Numeral b v (numeral b v) := by
  rw [numeral]
  split
  · rename_i zero
    subst zero
    refine ⟨⟨[0], rfl, ?_, rfl⟩, fun _ => rfl, fun h => absurd rfl h⟩
    intro d hd
    rw [List.mem_singleton.mp hd]
    omega
  · rename_i nonzero
    have some_digit := Nat.digits_ne_nil_iff_ne_zero (b := b).mpr nonzero
    refine ⟨⟨(Nat.digits b v).reverse, ?_, ?_, ?_⟩, fun h => absurd h nonzero, fun _ => ⟨?_, ?_⟩⟩
    · rw [List.map_reverse]
    · intro d hd
      exact Nat.digits_lt_base hb (List.mem_reverse.mp hd)
    · rw [List.reverse_reverse, Nat.ofDigits_digits]
    · simpa using some_digit
    · rw [List.head?_reverse, List.getLast?_map, List.getLast?_eq_getLast_of_ne_nil some_digit,
        Option.map_some, ne_eq, Option.some_inj,
        digit_eq_zero_iff (digits_lt hb hb' (List.getLast_mem some_digit))]
      exact Nat.getLast_digit_ne_zero b nonzero

omit hb' in
theorem length_numeral {v k : Nat} (hk : 0 < k) (h : v < b ^ k) : (numeral b v).length ≤ k := by
  rw [numeral]
  split
  · exact hk
  · rw [List.length_reverse, List.length_map]
    exact (Nat.digits_length_le_iff hb v).mpr h

include hr

theorem digitLoop_spec (fuel : Nat) (newval : Word) {m : Memory} {text : List Byte}
    (h : Holds m text) (room : (Nat.digits b newval.toNat).length < fuel) :
    ∃ m', digitLoop radix fuel newval text.length m =
        some (text.length + (Nat.digits b newval.toNat).length, m') ∧
      Holds m' (text ++ (Nat.digits b newval.toNat).map digit) := by
  induction fuel generalizing newval m text with
  | zero => omega
  | succ fuel ih =>
    rw [digitLoop]
    by_cases done : newval = 0
    · refine ⟨m, ?_, ?_⟩
      · simp [done]
      · simpa [done] using h
    · have pos : 0 < newval.toNat := by
        have nonzero : newval.toNat ≠ 0 := fun e => done (BitVec.eq_of_toNat_eq e)
        omega
      have usable : radix ≠ 0 := by
        rintro rfl
        simp at hr
        omega
      have quotient : (newval / radix).toNat = newval.toNat / b := by
        rw [BitVec.toNat_udiv, hr]
      have stored : lookup.getD (newval % radix).toNat 0 = digit (newval.toNat % b) := by
        rw [BitVec.toNat_umod, hr, lookup_eq (lt_of_lt_of_le (Nat.mod_lt _ (by omega)) hb')]
      have split := Nat.digits_def' hb pos
      rw [split, List.length_cons] at room
      obtain ⟨m', loop, held⟩ := ih (newval / radix) (h.push (digit (newval.toNat % b)))
        (by rw [quotient]; omega)
      rw [quotient, List.length_append, List.length_singleton] at loop
      rw [quotient, List.append_assoc] at held
      refine ⟨m', ?_, ?_⟩
      · rw [if_neg done, if_neg usable, stored, loop, split, List.length_cons, Nat.add_assoc,
          Nat.add_comm 1]
      · rw [split]
        exact held

theorem itoa_isString (v : Word) (buf : Memory) :
    ∃ t, itoa v buf radix = some t ∧ IsString t (numeral b v.toNat) := by
  have small : v.toNat < b ^ 32 := lt_of_lt_of_le v.isLt (Nat.pow_le_pow_left hb 32)
  rw [itoa]
  by_cases zero : v = 0
  · refine ⟨_, if_pos zero, ?_, numeral_live hb hb' _⟩
    have start : Holds buf [] := fun i c hc => by cases hc
    rw [zero]
    exact (start.push 0x30).push 0
  · have nonzero : v.toNat ≠ 0 := fun e => zero (BitVec.eq_of_toNat_eq e)
    have few : (Nat.digits b v.toNat).length ≤ 32 := (Nat.digits_length_le_iff hb _).mpr small
    have start : Holds buf [] := fun i c hc => by cases hc
    obtain ⟨m, loop, held⟩ := digitLoop_spec hb hb' hr 33 v start (by omega)
    have ended : IsString (Function.update m (0 + (Nat.digits b v.toNat).length) 0)
        ((Nat.digits b v.toNat).map digit) := by
      refine ⟨?_, live_digits hb hb' _⟩
      have stored := held.push 0
      rwa [List.nil_append, List.length_map, ← Nat.zero_add (Nat.digits b v.toNat).length] at stored
    have turned := strrev_isString ended (by rw [List.length_map]; omega)
    rw [List.length_nil] at loop
    rw [if_neg zero, loop, Option.map_some, numeral, if_neg nonzero]
    exact ⟨_, rfl, turned⟩

end Digits

end LumettaOS.Itoa
