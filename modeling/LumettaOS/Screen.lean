import LumettaOS.Lib.Runs
import LumettaOS.Console

/-! What the console routines do to video memory, byte by byte, and to the cursor. -/

namespace LumettaOS.Console
open Lib.Runs

variable (c : Console) (b : Byte)

def here : Nat := numCols * c.screenY + c.screenX

theorem clear_eq : c.clear = { c with
    mem := fun a => if a < 4000 then if a % 2 = 0 then 0x20 else attrib else c.mem a } := by
  let filled (n a : Nat) : Byte := if a < 2 * n then if a % 2 = 0 then 0x20 else attrib else c.mem a
  have first : c = { c with mem := filled 0 } := by simp [filled]
  refine (loop_invariant (I := fun n t => t = { c with mem := filled n }) _ first
    fun i t _ h => ?_).trans ?_
  · subst h
    simp only [poke, Console.mk.injEq, and_true, filled]
    funext a
    simp only [Function.update_apply]
    split_ifs <;> first | rfl | omega
  · simp [filled, numRows, numCols]

/-- A character is overwritten only after it has been moved up. -/
theorem scrollTerm_eq : c.scrollTerm = { c with
    mem := fun a => if a % 2 = 0 ∧ a < 4000 then if a < 3840 then c.mem (a + 160) else 0x20
      else c.mem a } := by
  let moved (n a : Nat) : Byte := if a % 2 = 0 ∧ a < 2 * n then c.mem (a + 160) else c.mem a
  have first : c = { c with mem := moved 0 } := by simp [moved]
  -- round `i` reads cell `i + 80`, where no earlier round has stored
  have up : (List.range ((numRows - 1) * numCols)).foldl
      (fun c i => c.poke (i * 2) (c.mem ((i + numCols) * 2))) c = { c with mem := moved 1920 } := by
    refine loop_invariant (I := fun n t => t = { c with mem := moved n }) _ first fun i t _ h => ?_
    subst h
    simp only [poke, Console.mk.injEq, and_true, moved, numCols]
    funext a
    simp only [Function.update_apply]
    split_ifs <;> first | rfl | omega | (congr 1; omega)
  let blank (n a : Nat) : Byte :=
    if a % 2 = 0 ∧ 3840 ≤ a ∧ a < 3840 + 2 * n then 0x20 else moved 1920 a
  have last : ∀ a, blank 0 a = moved 1920 a := fun a => if_neg (by omega)
  rw [scrollTerm, up, List.range'_eq_map_range, List.foldl_map]
  have begun : { c with mem := moved 1920 } = { c with mem := blank 0 } := by simp [funext last]
  refine (loop_invariant (I := fun n t => t = { c with mem := blank n }) numCols begun
    fun i t _ h => ?_).trans ?_
  · subst h
    simp only [poke, Console.mk.injEq, and_true, blank, numRows, numCols]
    funext a
    simp only [Function.update_apply]
    split_ifs <;> first | rfl | omega
  · simp only [Console.mk.injEq, and_true, blank, moved, numCols]
    funext a
    split_ifs <;> first | rfl | omega

theorem putCell_eq : c.putCell b = { c with
    mem := fun a => if a = 2 * c.here then b
      else if a = 2 * c.here + 1 then attrib else c.mem a } := by
  have stored : c.putCell b = Console.mk (Function.update (Function.update c.mem (c.here * 2) b)
    (c.here * 2 + 1) attrib) c.screenX c.screenY := rfl
  simp only [stored, Console.mk.injEq, and_true]
  funext a
  simp only [Function.update_apply]
  split_ifs <;> first | rfl | omega

@[simp] theorem putCell_screenX : (c.putCell b).screenX = c.screenX := rfl

@[simp] theorem putCell_screenY : (c.putCell b).screenY = c.screenY := rfl

structure InRange : Prop where
  col : c.screenX < 80
  row : c.screenY < 25

def newRow : Console :=
  if c.screenY = 24 then { c.scrollTerm with screenX := 0, screenY := 24 }
  else { c with screenX := 0, screenY := c.screenY + 1 }

section Putc

variable {c b}

theorem putcTerm_newline (h : c.screenY < 25) : c.putcTerm 0x0A = c.newRow := by
  have other : ¬ ((0x0A : Byte) = 0x08) ∧ ¬ ((0x0A : Byte) = 0x09) ∧ ¬ ((0x0A : Byte) = 0x0D) := by
    decide
  simp only [putcTerm, if_neg other.1, if_neg other.2.1, if_neg other.2.2, if_true, newRow, numRows]
  by_cases bottom : c.screenY = 24
  · rw [if_pos (by omega), if_pos bottom, scrollTerm_eq, scrollTerm_eq]
  · rw [if_neg (by omega), if_neg bottom]

theorem putcTerm_backspace (h : c.screenY < 25) : c.putcTerm 0x08 = c.backspacePressed := by
  have row : c.backspacePressed.screenY < 25 := by
    simp only [backspacePressed, putCell_eq]
    split_ifs
    all_goals first | exact h | (change _ - 1 < 25; omega)
  simp only [putcTerm, if_true, numRows, if_neg (Nat.not_le.mpr row)]

theorem putcTerm_tab (h : c.screenY < 25) :
    c.putcTerm 0x09 = { c with screenX := c.screenX + 4 } := by
  have other : ¬ ((0x09 : Byte) = 0x08) := by decide
  simp only [putcTerm, if_neg other, if_true, numRows, if_neg (Nat.not_le.mpr h)]

theorem putcTerm_return (h : c.screenY < 25) : c.putcTerm 0x0D = { c with screenX := 0 } := by
  have other : ¬ ((0x0D : Byte) = 0x08) ∧ ¬ ((0x0D : Byte) = 0x09) := by decide
  simp only [putcTerm, if_neg other.1, if_neg other.2, if_true, numRows, if_neg (Nat.not_le.mpr h)]

theorem printable_ne (h : 0x20 ≤ b) : b ≠ 0x08 ∧ b ≠ 0x09 ∧ b ≠ 0x0D ∧ b ≠ 0x0A := by
  refine ⟨?_, ?_, ?_, ?_⟩
  all_goals
    rintro rfl
    exact absurd h (by decide)

theorem advance_inner (h : c.screenX < 79) (b : Byte) :
    c.advance b = { c.putCell b with screenX := c.screenX + 1 } := by
  have inside : ¬ 80 ≤ c.screenX + 1 := by omega
  have small : (c.screenX + 1) % 80 = c.screenX + 1 := Nat.mod_eq_of_lt (by omega)
  simp only [advance, putCell_eq, numCols, if_neg inside, small]

theorem advance_edge (h : c.screenX = 79) (b : Byte) : c.advance b = (c.putCell b).newRow := by
  have outside : 80 ≤ 79 + 1 := le_rfl
  by_cases bottom : c.screenY = 24
  · simp only [advance, putCell_eq, newRow, numCols, h, bottom, if_pos outside, if_true,
      scrollTerm_eq, Nat.reduceAdd, Nat.mod_self]
  · simp only [advance, putCell_eq, newRow, numCols, h, if_pos outside, if_neg bottom,
      Nat.reduceAdd, Nat.mod_self]

theorem putcTerm_printable (h : 0x20 ≤ b) (row : c.screenY < 25) : c.putcTerm b = c.advance b := by
  obtain ⟨back, tab, ret, newline⟩ := printable_ne h
  have kept : ¬ numRows ≤ (c.advance b).screenY := by
    simp only [advance, putCell_eq, scrollTerm_eq, numRows, numCols]
    split_ifs <;> (dsimp only; omega)
  simp only [putcTerm, if_neg back, if_neg tab, if_neg ret, if_neg newline, if_pos h, if_neg kept]

theorem putcTerm_control (h : ¬ 0x20 ≤ b) (back : b ≠ 0x08) (tab : b ≠ 0x09) (ret : b ≠ 0x0D)
    (newline : b ≠ 0x0A) (row : c.screenY < 25) : c.putcTerm b = c := by
  have kept : ¬ numRows ≤ c.screenY := by rw [numRows]; omega
  simp only [putcTerm, if_neg back, if_neg tab, if_neg ret, if_neg newline, if_neg h, if_neg kept]

def stepBack (c : Console) : Console :=
  if c.screenX ≠ 0 then { c with screenX := c.screenX - 1 }
  else if c.screenY ≠ 0 then { c with screenX := 79, screenY := c.screenY - 1 }
  else c

theorem backspacePressed_eq (c : Console) : c.backspacePressed = c.stepBack.putCell 0x20 := by
  rw [backspacePressed, stepBack]
  split_ifs <;> first | rfl | omega

end Putc

end LumettaOS.Console
