import Mathlib

/-! Bounded linear search, the common shape of the `while` and `for` loops that
look for an index: at most `fuel` candidates from `start` on are tried. The
search is total; running out of fuel returns the first index not tried. -/

namespace LumettaOS.Lib.Scan

variable {p q : Nat → Bool}

/-- The least `j` in `[start, start + fuel)` with `p j`, else `start + fuel`. -/
def scan (p : Nat → Bool) : (fuel start : Nat) → Nat
  | 0, start => start
  | fuel + 1, start => if p start then start else scan p fuel (start + 1)

@[simp] theorem scan_zero (p : Nat → Bool) (start : Nat) : scan p 0 start = start := rfl

theorem scan_succ (p : Nat → Bool) (fuel start : Nat) :
    scan p (fuel + 1) start = if p start then start else scan p fuel (start + 1) := rfl

theorem le_scan (p : Nat → Bool) (fuel start : Nat) : start ≤ scan p fuel start := by
  induction fuel generalizing start with
  | zero => simp
  | succ fuel ih =>
    rw [scan_succ]
    split
    · exact le_rfl
    · have h := ih (start + 1)
      omega

theorem scan_le (p : Nat → Bool) (fuel start : Nat) : scan p fuel start ≤ start + fuel := by
  induction fuel generalizing start with
  | zero => simp
  | succ fuel ih =>
    rw [scan_succ]
    split
    · omega
    · have h := ih (start + 1)
      omega

theorem scan_hit (fuel start : Nat) (h : scan p fuel start < start + fuel) :
    p (scan p fuel start) = true := by
  induction fuel generalizing start with
  | zero => simp at h
  | succ fuel ih =>
    rw [scan_succ] at h ⊢
    split
    · assumption
    · rename_i hp
      rw [if_neg hp] at h
      exact ih (start + 1) (by omega)

theorem scan_miss (fuel start j : Nat) (hs : start ≤ j) (hj : j < scan p fuel start) :
    p j = false := by
  induction fuel generalizing start with
  | zero => simp only [scan_zero] at hj; omega
  | succ fuel ih =>
    rw [scan_succ] at hj
    split at hj
    · omega
    · rename_i hp
      by_cases e : j = start
      · simpa [e] using hp
      · exact ih (start + 1) (by omega) hj

theorem lt_scan (fuel start : Nat) (hf : 0 < fuel) (h : p start = false) :
    start < scan p fuel start := by
  rcases Nat.eq_or_lt_of_le (le_scan p fuel start) with e | e
  · have hit := scan_hit (p := p) fuel start (by omega)
    rw [← e, h] at hit
    simp at hit
  · exact e

theorem scan_eq (fuel start j : Nat) (hs : start ≤ j) (hj : j ≤ start + fuel)
    (miss : ∀ i, start ≤ i → i < j → p i = false) (hit : j < start + fuel → p j = true) :
    scan p fuel start = j := by
  have lower := le_scan p fuel start
  have upper := scan_le p fuel start
  rcases Nat.lt_trichotomy (scan p fuel start) j with h | h | h
  · have found := scan_hit (p := p) fuel start (by omega)
    rw [miss _ lower h] at found
    simp at found
  · exact h
  · have skipped := scan_miss (p := p) fuel start j hs h
    rw [hit (by omega)] at skipped
    simp at skipped

theorem scan_congr (fuel start : Nat)
    (h : ∀ i, start ≤ i → i ≤ scan p fuel start → i < start + fuel → p i = q i) :
    scan q fuel start = scan p fuel start := by
  refine scan_eq fuel start _ (le_scan p fuel start) (scan_le p fuel start) ?_ ?_
  · intro i hs hi
    have upper := scan_le p fuel start
    rw [← h i hs hi.le (by omega)]
    exact scan_miss (p := p) fuel start i hs hi
  · intro hlt
    rw [← h _ (le_scan p fuel start) le_rfl hlt]
    exact scan_hit fuel start hlt

theorem scan_lt_iff (p : Nat → Bool) (fuel start : Nat) :
    scan p fuel start < start + fuel ↔ ∃ j < fuel, p (start + j) = true := by
  have lower := le_scan p fuel start
  refine ⟨fun h => ⟨scan p fuel start - start, by omega, ?_⟩, fun ⟨j, hj, found⟩ => ?_⟩
  · rw [Nat.add_sub_of_le lower]
    exact scan_hit fuel start h
  · by_contra far
    have missed := scan_miss (p := p) fuel start (start + j) (by omega) (by omega)
    rw [found] at missed
    cases missed

end LumettaOS.Lib.Scan
