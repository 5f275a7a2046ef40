import LumettaOS.Word

/-! The string routines of lib.c on memory given as bytes from a pointer on.
`int8_t` is a signed char, so differences are taken on signed values. A routine
that stores returns the bytes stored from its destination on, in order. -/

namespace LumettaOS.CString
open Lib.Scan

/-- `strncmp` from index `i` on, with `n` bytes left to compare. -/
def strncmpFrom (s1 s2 : Memory) : (n i : Nat) → Int
  | 0, _ => 0
  | n + 1, i =>
    if s1 i ≠ s2 i ∨ s1 i = 0 then (s1 i).toInt - (s2 i).toInt
    else strncmpFrom s1 s2 n (i + 1)

def strncmp (s1 s2 : Memory) (n : Nat) : Int := strncmpFrom s1 s2 n 0

/-- `strncpy` from index `i` on: the copying loop, then the padding loop. -/
def strncpyFrom (src : Memory) : (n i : Nat) → List Byte
  | 0, _ => []
  | n + 1, i =>
    if src i = 0 then List.replicate (n + 1) 0 else src i :: strncpyFrom src n (i + 1)

def strncpy (src : Memory) (n : Nat) : List Byte := strncpyFrom src n 0

/-- `strlen`, with the address space as the bound of the search. -/
def strlen (s : Memory) : Nat := scan (fun i => s i == 0) (2 ^ 32) 0

def strcpy (dest src : Memory) : Memory := fun i =>
  if i < strlen src then src i else if i = strlen src then 0 else dest i

def ascii (s : String) : List Byte := s.toList.map fun c => BitVec.ofNat 8 c.toNat

def literal (text : List Byte) (rest : Memory) : Memory := fun i =>
  if h : i < text.length then text.get ⟨i, h⟩
  else if i = text.length then 0 else rest (i - text.length - 1)

/-- Two memories hold the same C string: they agree through the terminator. -/
def SameString (s1 s2 : Memory) : Prop := ∀ j, (∀ i, i < j → s1 i ≠ 0) → s1 j = s2 j

/-- The two arguments agree on the first `n` bytes or up to a common terminator. -/
def SamePrefix (s1 s2 : Memory) (n : Nat) : Prop :=
  ∀ j, j < n → (∀ i, i < j → s1 i ≠ 0) → s1 j = s2 j

theorem strncmpFrom_eq_zero_iff (s1 s2 : Memory) (n i : Nat) :
    strncmpFrom s1 s2 n i = 0 ↔
      ∀ j, i ≤ j → j < i + n → (∀ k, i ≤ k → k < j → s1 k ≠ 0) → s1 j = s2 j := by
  induction n generalizing i with
  | zero =>
    refine ⟨fun _ j hj hn => ?_, fun _ => rfl⟩
    omega
  | succ n ih =>
    rw [strncmpFrom]
    by_cases heq : s1 i = s2 i
    · by_cases hz : s1 i = 0
      · rw [if_pos (Or.inr hz), heq, sub_self]
        refine ⟨fun _ j hj _ live => ?_, fun _ => rfl⟩
        by_cases e : j = i
        · exact e ▸ heq
        · exact absurd hz (live i le_rfl (by omega))
      · have live : ¬ (s1 i ≠ s2 i ∨ s1 i = 0) := not_or.mpr ⟨not_not.mpr heq, hz⟩
        rw [if_neg live, ih (i + 1)]
        refine ⟨fun h j hj hn live => ?_, fun h j hj hn live => ?_⟩
        · by_cases e : j = i
          · exact e ▸ heq
          · exact h j (by omega) (by omega) (fun k hk hkj => live k (by omega) hkj)
        · refine h j (by omega) (by omega) (fun k hk hkj => ?_)
          by_cases e : k = i
          · exact e ▸ hz
          · exact live k (by omega) hkj
    · rw [if_pos (Or.inl heq)]
      refine ⟨fun h => absurd ?_ heq, fun h => absurd ?_ heq⟩
      · exact BitVec.eq_of_toInt_eq (by omega)
      · exact h i le_rfl (by omega) (fun k hk hki => by omega)

theorem strncmp_eq_zero_iff (s1 s2 : Memory) (n : Nat) :
    strncmp s1 s2 n = 0 ↔ SamePrefix s1 s2 n := by
  rw [strncmp, strncmpFrom_eq_zero_iff]
  simp [SamePrefix]

theorem SamePrefix.eq_of_live {s1 s2 : Memory} {n : Nat} (h : SamePrefix s1 s2 n)
    (live : ∀ j, j < n → s2 j ≠ 0) (j : Nat) (hj : j < n) : s1 j = s2 j := by
  induction j using Nat.strong_induction_on with
  | _ j ih =>
    refine h j hj fun i hi => ?_
    rw [ih i hi (by omega)]
    exact live i (by omega)

theorem length_strncpyFrom (src : Memory) (n i : Nat) : (strncpyFrom src n i).length = n := by
  induction n generalizing i with
  | zero => rfl
  | succ n ih =>
    rw [strncpyFrom]
    split
    · simp
    · simp [ih]

@[simp] theorem length_strncpy (src : Memory) (n : Nat) : (strncpy src n).length = n :=
  length_strncpyFrom src n 0

theorem strcpy_first (dest src : Memory) : strcpy dest src 0 = src 0 := by
  by_cases empty : src 0 = 0
  · have len : strlen src = 0 := scan_eq _ 0 0 le_rfl (by omega) (fun i _ hi => by omega)
      fun _ => by simp [empty]
    simp [strcpy, len, empty]
  · have pos : 0 < strlen src := lt_scan _ 0 (by decide) (by simpa using empty)
    simp [strcpy, pos]

namespace SameString

variable {s1 s2 : Memory}

theorem eq_of_le (h : SameString s1 s2) {j k : Nat} (live : ∀ i, i < k → s1 i ≠ 0) (hj : j ≤ k) :
    s1 j = s2 j :=
  h j fun i hi => live i (by omega)

theorem symm (h : SameString s1 s2) : SameString s2 s1 := by
  intro j live
  induction j using Nat.strong_induction_on with
  | _ j ih =>
    refine (h j fun i hi => ?_).symm
    rw [← ih i hi fun k hk => live k (by omega)]
    exact live i hi

theorem strncmp_iff (h : SameString s1 s2) (t : Memory) (n : Nat) :
    strncmp s1 t n = 0 ↔ strncmp s2 t n = 0 := by
  rw [strncmp_eq_zero_iff, strncmp_eq_zero_iff]
  refine ⟨fun same j hj live => ?_, fun same j hj live => ?_⟩
  · have live' : ∀ i, i < j → s1 i ≠ 0 := fun i hi => by
      rw [← h.symm.eq_of_le live hi.le]
      exact live i hi
    rw [← h j live']
    exact same j hj live'
  · have live' : ∀ i, i < j → s2 i ≠ 0 := fun i hi => by
      rw [← h.eq_of_le live hi.le]
      exact live i hi
    rw [h j live]
    exact same j hj live'

end SameString

theorem literal_sameString (text : List Byte) (rest rest' : Memory) :
    SameString (literal text rest) (literal text rest') := by
  intro j live
  by_cases inside : j < text.length
  · simp [literal, inside]
  · by_cases last : j = text.length
    · simp [literal, last]
    · refine absurd ?_ (live text.length (by omega))
      simp [literal]

def Holds (s : Memory) (text : List Byte) : Prop := ∀ i b, text[i]? = some b → s i = b

theorem Holds.at {s : Memory} {text : List Byte} (h : Holds s text) {i : Nat}
    (hi : i < text.length) : s i ∈ text := by
  rw [h i _ (List.getElem?_eq_getElem hi)]
  exact List.getElem_mem hi

theorem holds_append {s : Memory} {t u : List Byte} :
    Holds s (t ++ u) ↔ Holds s t ∧ Holds (fun i => s (t.length + i)) u := by
  refine ⟨fun h => ⟨fun i b hb => ?_, fun i b hb => ?_⟩, fun ⟨ht, hu⟩ i b hb => ?_⟩
  · obtain ⟨inside, -⟩ := List.getElem?_eq_some_iff.mp hb
    exact h i b (by rw [List.getElem?_append_left inside, hb])
  · exact h (t.length + i) b (by rw [List.getElem?_append_right (by omega)]; simpa using hb)
  · rcases Nat.lt_or_ge i t.length with inside | outside
    · rw [List.getElem?_append_left inside] at hb
      exact ht i b hb
    · rw [List.getElem?_append_right outside] at hb
      have found : s (t.length + (i - t.length)) = b := hu (i - t.length) b hb
      rwa [Nat.add_sub_of_le outside] at found

theorem holds_singleton {s : Memory} {b : Byte} : Holds s [b] ↔ s 0 = b := by
  refine ⟨fun h => h 0 b rfl, fun h i b' hb => ?_⟩
  obtain ⟨inside, value⟩ := List.getElem?_eq_some_iff.mp hb
  have first : i = 0 := by simpa using inside
  subst first
  exact h.trans value

theorem holds_cons {s : Memory} {b : Byte} {text : List Byte} :
    Holds s (b :: text) ↔ s 0 = b ∧ Holds (fun j => s (1 + j)) text :=
  (holds_append (t := [b])).trans (and_congr_left' holds_singleton)

theorem holds_literal (text : List Byte) (rest : Memory) : Holds (literal text rest) text := by
  intro i b hb
  obtain ⟨inside, value⟩ := List.getElem?_eq_some_iff.mp hb
  simp [literal, inside, value]

theorem strlen_eq {s : Memory} {n : Nat} (live : ∀ i, i < n → s i ≠ 0) (zero : s n = 0)
    (small : n ≤ 2 ^ 32) : strlen s = n :=
  scan_eq (2 ^ 32) 0 n (Nat.zero_le n) (by omega) (fun i _ hi => by simpa using live i hi)
    fun _ => by simp [zero]

theorem Holds.sameString {s s' : Memory} {a : List Byte} (h : Holds s (a ++ [0]))
    (h' : Holds s' (a ++ [0])) : SameString s s' := by
  intro j live
  have inside : j < (a ++ [0]).length := by
    by_contra outside
    simp only [List.length_append, List.length_singleton] at outside
    refine live a.length (by omega) (h _ _ ?_)
    simp
  have byte := List.getElem?_eq_getElem inside
  rw [h j _ byte, h' j _ byte]

theorem before_strlen {s : Memory} {i : Nat} (h : i < strlen s) : s i ≠ 0 := by
  have miss := scan_miss (p := fun i => s i == 0) (2 ^ 32) 0 i (Nat.zero_le i) h
  simpa using miss

theorem at_strlen {s : Memory} (h : strlen s < 2 ^ 32) : s (strlen s) = 0 := by
  have hit := scan_hit (p := fun i => s i == 0) (2 ^ 32) 0 (by simpa [strlen] using h)
  simpa [strlen] using hit

theorem le_strlen {s : Memory} {j : Nat} (live : ∀ i, i < j → s i ≠ 0) (h : strlen s < 2 ^ 32) :
    j ≤ strlen s := by
  by_contra behind
  exact live _ (by omega) (at_strlen h)

theorem strlen_lt {s : Memory} {i : Nat} (zero : s i = 0) {n : Nat} (h : i < n) :
    strlen s < n := by
  by_contra far
  exact before_strlen (by omega) zero

namespace SameString

variable {s s' : Memory}

theorem terminated (same : SameString s s') (h : ∃ i < 128, s i = 0) : ∃ i < 128, s' i = 0 := by
  obtain ⟨i, hi, zero⟩ := h
  have near := strlen_lt zero hi
  refine ⟨strlen s, near, ?_⟩
  rw [← same.eq_of_le (fun _ => before_strlen) le_rfl]
  exact at_strlen (by omega)

theorem strlen_eq (same : SameString s s') : strlen s' = strlen s := by
  refine scan_congr (2 ^ 32) 0 fun j _ hj _ => ?_
  rw [same.eq_of_le (fun _ => before_strlen) hj]

end SameString

theorem Holds.update {s : Memory} {text : List Byte} (h : Holds s text) {a : Nat}
    (behind : text.length ≤ a) (b : Byte) : Holds (Function.update s a b) text := by
  intro i c hc
  obtain ⟨inside, -⟩ := List.getElem?_eq_some_iff.mp hc
  rw [Function.update_of_ne (by omega)]
  exact h i c hc

theorem Holds.push {s : Memory} {text : List Byte} (h : Holds s text) (b : Byte) :
    Holds (Function.update s text.length b) (text ++ [b]) :=
  holds_append.mpr ⟨h.update le_rfl b, holds_singleton.mpr (by simp)⟩

theorem Holds.dropLast {s : Memory} {text : List Byte} (h : Holds s text) :
    Holds s text.dropLast := by
  intro i b hb
  obtain ⟨inside, value⟩ := List.getElem?_eq_some_iff.mp hb
  rw [List.getElem_dropLast] at value
  exact h i b (List.getElem?_eq_some_iff.mpr ⟨_, value⟩)

theorem Holds.map_range {s : Memory} {text : List Byte} (h : Holds s text) :
    (List.range text.length).map s = text := by
  refine List.ext_getElem (by simp) fun i _ hi => ?_
  simpa using h i _ (List.getElem?_eq_getElem hi)

theorem from_zero (s : Memory) : (fun j => s (0 + j)) = s := by
  funext j
  rw [Nat.zero_add]

theorem from_succ (s : Memory) (i : Nat) : (fun j => s (i + 1 + j)) = fun j => s (i + (j + 1)) := by
  funext j
  rw [Nat.add_assoc, Nat.add_comm 1]

theorem strncpyFrom_holds {s : Memory} {text : List Byte} {i : Nat}
    (h : Holds (fun j => s (i + j)) text) (live : ∀ b ∈ text, b ≠ 0) :
    strncpyFrom s text.length i = text := by
  induction text generalizing i with
  | nil => rfl
  | cons b text ih =>
    have first : s i = b := h 0 b rfl
    have rest : Holds (fun j => s (i + 1 + j)) text := by
      rw [from_succ]
      exact fun j c hc => h (j + 1) c hc
    rw [List.length_cons, strncpyFrom, first, if_neg (live b (by simp)),
      ih rest fun c hc => live c (by simp [hc])]

theorem strncpy_holds {s : Memory} {text : List Byte} (h : Holds s text)
    (live : ∀ b ∈ text, b ≠ 0) : strncpy s text.length = text :=
  strncpyFrom_holds (by simpa using h) live

structure IsString (s : Memory) (text : List Byte) : Prop where
  holds : Holds s (text ++ [0])
  live : ∀ b ∈ text, b ≠ 0

section

variable {s t : Memory} {text : List Byte}

theorem IsString.before (h : IsString s text) {i : Nat} (hi : i < text.length) : s i ≠ 0 :=
  h.live _ ((holds_append.mp h.holds).1.at hi)

theorem IsString.ends (h : IsString s text) : s text.length = 0 :=
  holds_singleton.mp (holds_append.mp h.holds).2

theorem IsString.strlen (h : IsString s text) (small : text.length ≤ 2 ^ 32) :
    strlen s = text.length :=
  strlen_eq (fun _ hi => h.before hi) h.ends small

theorem isString_nil : IsString s [] ↔ s 0 = 0 :=
  ⟨fun h => h.ends, fun h => ⟨holds_singleton.mpr h, by simp⟩⟩

theorem isString_cons {b : Byte} :
    IsString s (b :: text) ↔ s 0 = b ∧ b ≠ 0 ∧ IsString (fun i => s (i + 1)) text := by
  have split : Holds s (b :: text ++ [0]) ↔ s 0 = b ∧ Holds (fun i => s (i + 1)) (text ++ [0]) := by
    refine ⟨fun h => ⟨h 0 b rfl, fun i c hc => h (i + 1) c hc⟩, fun ⟨first, rest⟩ i c hc => ?_⟩
    cases i with
    | zero => exact first.trans (Option.some_inj.mp hc)
    | succ i => exact rest i c hc
  refine ⟨fun h => ⟨(split.mp h.holds).1, h.live b (by simp), (split.mp h.holds).2, ?_⟩, ?_⟩
  · intro c hc
    exact h.live c (by simp [hc])
  · rintro ⟨first, nonzero, rest⟩
    refine ⟨split.mpr ⟨first, rest.holds⟩, fun c hc => ?_⟩
    rcases List.mem_cons.mp hc with rfl | hc
    · exact nonzero
    · exact rest.live c hc

def chars (s : Memory) : List Byte := (List.range (CString.strlen s)).map s

theorem chars_isString {k : Nat} (zero : s k = 0) (hk : k < 2 ^ 32) : IsString s (chars s) := by
  have ends : s (CString.strlen s) = 0 := at_strlen (strlen_lt zero hk)
  have length : (chars s).length = CString.strlen s := by simp [chars]
  refine ⟨holds_append.mpr ⟨fun i b hb => ?_, ?_⟩, fun b hb => ?_⟩
  · obtain ⟨inside, value⟩ := List.getElem?_eq_some_iff.mp hb
    simpa [chars] using value
  · rw [holds_singleton, length]
    exact ends
  · obtain ⟨i, hi, rfl⟩ := List.mem_map.mp hb
    exact before_strlen (List.mem_range.mp hi)

theorem IsString.samePrefix_iff (h : IsString s text) (n : Nat) :
    SamePrefix s t n ↔ Holds t (text.take n) ∧ (text.length < n → t text.length = 0) := by
  have front := (holds_append.mp h.holds).1
  refine ⟨fun same => ⟨fun i b hb => ?_, fun short => ?_⟩, fun ⟨held, stop⟩ j hj live => ?_⟩
  · rw [List.getElem?_take, Option.ite_none_right_eq_some] at hb
    obtain ⟨inside, -⟩ := List.getElem?_eq_some_iff.mp hb.2
    rw [← same i hb.1 fun k hk => h.before (by omega)]
    exact front i b hb.2
  · rw [← same _ short fun k hk => h.before hk]
    exact h.ends
  · rcases Nat.lt_trichotomy j text.length with inside | last | behind
    · have byte := List.getElem?_eq_getElem inside
      rw [front j _ byte, held j _ (by rw [List.getElem?_take, if_pos hj, byte])]
    · rw [last, h.ends, stop (by omega)]
    · exact absurd h.ends (live _ behind)

theorem literal_isString (live : ∀ b ∈ text, b ≠ 0) (rest : Memory) :
    IsString (literal text rest) text where
  holds := holds_append.mpr ⟨holds_literal text rest, holds_singleton.mpr (by simp [literal])⟩
  live := live

end

end LumettaOS.CString
