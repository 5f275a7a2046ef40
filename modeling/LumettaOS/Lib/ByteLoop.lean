import Mathlib

/-! The plain loops that fill or copy a range of places one by one, the one that turns a
range round, and what a list of stores leaves. Memory is a function on any type of
addresses; place `i` of a range is `addr i`. -/

namespace LumettaOS.Lib.ByteLoop

variable {α β : Type*} [DecidableEq α]

def fillFrom (addr : Nat → α) (v : β) : (n i : Nat) → (α → β) → α → β
  | 0, _, m => m
  | n + 1, i, m => fillFrom addr v n (i + 1) (Function.update m (addr i) v)

def copyFrom (dest src : Nat → α) : (n i : Nat) → (α → β) → α → β
  | 0, _, m => m
  | n + 1, i, m => copyFrom dest src n (i + 1) (Function.update m (dest i) (m (src i)))

/-- Memory after a list of stores, the first one first. -/
def storeAll : List (α × β) → (α → β) → α → β
  | [], m => m
  | s :: rest, m => storeAll rest (Function.update m s.1 s.2)

/-- Exchange `m[beg]` and `m[last]` and move both ends inward, until they meet. -/
def swapFrom : (fuel beg last : Nat) → (Nat → β) → Nat → β
  | 0, _, _, m => m
  | fuel + 1, beg, last, m =>
    if beg < last then
      swapFrom fuel (beg + 1) (last - 1)
        (Function.update (Function.update m last (m beg)) beg (m last))
    else m

section Fill

variable (addr : Nat → α) (v : β)

theorem fillFrom_add (a b i : Nat) (m : α → β) :
    fillFrom addr v (a + b) i m = fillFrom addr v b (i + a) (fillFrom addr v a i m) := by
  induction a generalizing i m with
  | zero => rw [Nat.zero_add, fillFrom, Nat.add_zero]
  | succ a ih => rw [Nat.add_right_comm, fillFrom, fillFrom, ih, Nat.add_right_comm, Nat.add_assoc]

theorem fillFrom_other {n i : Nat} {x : α} (m : α → β)
    (h : ∀ j, i ≤ j → j < i + n → x ≠ addr j) : fillFrom addr v n i m x = m x := by
  induction n generalizing i m with
  | zero => rfl
  | succ n ih =>
    rw [fillFrom, ih _ fun j hj hn => h j (by omega) (by omega),
      Function.update_of_ne (h i le_rfl (by omega))]

/-- A place that holds the value keeps it, also where a later round stores it again. -/
theorem fillFrom_keeps {x : α} (n i : Nat) {m : α → β} (h : m x = v) :
    fillFrom addr v n i m x = v := by
  induction n generalizing i m with
  | zero => exact h
  | succ n ih =>
    refine ih (i + 1) ?_
    by_cases here : x = addr i
    · rw [here, Function.update_self]
    · rw [Function.update_of_ne here, h]

theorem fillFrom_at {n i j : Nat} (m : α → β) (hj : i ≤ j) (hn : j < i + n) :
    fillFrom addr v n i m (addr j) = v := by
  induction n generalizing i m with
  | zero => omega
  | succ n ih =>
    by_cases here : j = i
    · exact fillFrom_keeps addr v n (i + 1) (by rw [here, Function.update_self])
    · exact ih _ (by omega) (by omega)

end Fill

section Stores

variable {stores : List (α × β)} {x : α}

theorem storeAll_other (m : α → β) (h : ∀ s ∈ stores, x ≠ s.1) : storeAll stores m x = m x := by
  induction stores generalizing m with
  | nil => rfl
  | cons s rest ih =>
    rw [storeAll, ih _ fun s' hs => h s' (List.mem_cons_of_mem s hs),
      Function.update_of_ne (h s List.mem_cons_self)]

theorem storeAll_of_mem {b : β} (m : α → β) (once : (stores.map Prod.fst).Nodup)
    (h : (x, b) ∈ stores) : storeAll stores m x = b := by
  induction stores generalizing m with
  | nil => exact absurd h List.not_mem_nil
  | cons s rest ih =>
    rw [List.map_cons, List.nodup_cons] at once
    rw [storeAll]
    rcases List.mem_cons.mp h with here | later
    · subst here
      have last : ∀ s ∈ rest, x ≠ s.1 := fun s hs e =>
        once.1 (List.mem_map.mpr ⟨s, hs, e.symm⟩)
      rw [storeAll_other _ last, Function.update_self]
    · exact ih _ once.2 later

end Stores

section Copy

variable (dest src : Nat → α)

theorem copyFrom_add (a b i : Nat) (m : α → β) :
    copyFrom dest src (a + b) i m = copyFrom dest src b (i + a) (copyFrom dest src a i m) := by
  induction a generalizing i m with
  | zero => rw [Nat.zero_add, copyFrom, Nat.add_zero]
  | succ a ih => rw [Nat.add_right_comm, copyFrom, copyFrom, ih, Nat.add_right_comm, Nat.add_assoc]

theorem copyFrom_other {n i : Nat} {x : α} (m : α → β)
    (h : ∀ j, i ≤ j → j < i + n → x ≠ dest j) : copyFrom dest src n i m x = m x := by
  induction n generalizing i m with
  | zero => rfl
  | succ n ih =>
    rw [copyFrom, ih _ fun j hj hn => h j (by omega) (by omega),
      Function.update_of_ne (h i le_rfl (by omega))]

variable {dest src}

/-- Where no byte is overwritten before it has been read, every byte is the one the source
had at first. -/
theorem copyFrom_ahead {n i j : Nat} (m : α → β)
    (once : ∀ k l, i ≤ k → k < l → l < i + n → dest k ≠ dest l)
    (ahead : ∀ k l, i ≤ l → l < k → k < i + n → src k ≠ dest l)
    (hj : i ≤ j) (hn : j < i + n) : copyFrom dest src n i m (dest j) = m (src j) := by
  induction n generalizing i m with
  | zero => omega
  | succ n ih =>
    rw [copyFrom]
    by_cases here : j = i
    · rw [copyFrom_other dest src _ fun k hk hkn => once j k (by omega) (by omega) (by omega),
        here, Function.update_self]
    · rw [ih _ (fun k l hk hl hln => once k l (by omega) hl (by omega))
        (fun k l hl hk hkn => ahead k l (by omega) hk (by omega))
        (by omega) (by omega), Function.update_of_ne (ahead j i le_rfl (by omega) hn)]

theorem copyFrom_at {n i j : Nat} (m : α → β)
    (once : ∀ k l, i ≤ k → k < l → l < i + n → dest k ≠ dest l)
    (apart : ∀ k l, i ≤ k → k < i + n → i ≤ l → l < i + n → src k ≠ dest l)
    (hj : i ≤ j) (hn : j < i + n) : copyFrom dest src n i m (dest j) = m (src j) :=
  copyFrom_ahead m once (fun k l hl hk hkn => apart k l (by omega) hkn hl (by omega)) hj hn

end Copy

def turned (beg last : Nat) (m : Nat → β) (i : Nat) : β :=
  if beg ≤ i ∧ i ≤ last then m (beg + last - i) else m i

theorem turned_of_le {beg last : Nat} (h : last ≤ beg) (m : Nat → β) : turned beg last m = m := by
  funext i
  rw [turned]
  split
  · have same : beg + last - i = i := by omega
    rw [same]
  · rfl

theorem turned_swap {beg last : Nat} (h : beg < last) (m : Nat → β) :
    turned (beg + 1) (last - 1) (Function.update (Function.update m last (m beg)) beg (m last)) =
      turned beg last m := by
  funext i
  simp only [turned, Function.update_apply]
  by_cases first : i = beg
  · rw [if_neg (by omega), if_pos first, if_pos (by omega), first, Nat.add_sub_cancel_left]
  by_cases final : i = last
  · rw [if_neg (by omega), if_neg first, if_pos final, if_pos (by omega), final,
      Nat.add_sub_cancel]
  by_cases inside : beg < i ∧ i < last
  · have moved : beg + 1 + (last - 1) - i = beg + last - i := by omega
    rw [if_pos (by omega), moved, if_neg (by omega), if_neg (by omega), if_pos (by omega)]
  · rw [if_neg (by omega), if_neg first, if_neg final, if_neg (by omega)]

theorem swapFrom_eq {fuel beg last : Nat} (m : Nat → β) (h : last ≤ beg + 2 * fuel) :
    swapFrom fuel beg last m = turned beg last m := by
  induction fuel generalizing beg last m with
  | zero => exact (turned_of_le (by omega) m).symm
  | succ fuel ih =>
    rw [swapFrom]
    split
    · rename_i apart
      rw [ih _ (by omega), turned_swap apart]
    · exact (turned_of_le (by omega) m).symm

end LumettaOS.Lib.ByteLoop
