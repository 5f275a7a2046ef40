import LumettaOS.Screen

/-! The cursor and the frame buffer. Every routine of the terminal keeps the cursor on
the screen and stores inside it, with one exception: a tab moves the cursor four
columns on without a look at the end of the row. -/

namespace LumettaOS.Console
open Lib.Runs

inductive Op where
  | putc (b : Byte)
  | backspace
  | clear
  deriving DecidableEq

def Op.apply : Op → Console → Console
  | .putc b, c => c.putcTerm b
  | .backspace, c => c.backspacePressed
  | .clear, c => c.clearTerm

def step (op : Op) (c : Console) : Option Console := some (op.apply c)

/-- The cursor is on the screen afterwards, and whatever the memory holds, it is
kept from the end of the screen on. -/
def Safe (op : Op) (c : Console) : Prop :=
  (op.apply c).InRange ∧
    ∀ mem a, numRows * numCols * 2 ≤ a → (op.apply { c with mem := mem }).mem a = mem a

def TabFits (op : Op) (c : Console) : Prop := op = .putc 0x09 → c.screenX < 76

section Step

variable {c : Console}

def Outside (c c' : Console) : Prop := ∀ a, 4000 ≤ a → c'.mem a = c.mem a

theorem InRange.here_lt (h : c.InRange) : c.here < 2000 := by
  have col := h.col
  have row := h.row
  rw [here, numCols]
  omega

theorem putCell_outside (h : c.here < 2000) (b : Byte) : Outside c (c.putCell b) := by
  intro a ha
  simp only [putCell_eq]
  rw [if_neg (by omega), if_neg (by omega)]

theorem scrollTerm_outside (c : Console) : Outside c c.scrollTerm := by
  intro a ha
  simp only [scrollTerm_eq]
  rw [if_neg (by omega)]

theorem clearTerm_outside (c : Console) : Outside c c.clearTerm := by
  intro a ha
  simp only [clearTerm, clear_eq]
  rw [if_neg (by omega)]

theorem clearTerm_inRange (c : Console) : c.clearTerm.InRange :=
  ⟨Nat.zero_lt_succ 79, Nat.zero_lt_succ 24⟩

theorem InRange.newRow (h : c.InRange) : c.newRow.InRange ∧ Outside c c.newRow := by
  have row := h.row
  rw [Console.newRow]
  split
  · exact ⟨⟨Nat.zero_lt_succ 79, Nat.lt_succ_self 24⟩, fun a ha => scrollTerm_outside c a ha⟩
  · exact ⟨⟨Nat.zero_lt_succ 79, by dsimp only; omega⟩, fun _ _ => rfl⟩

theorem InRange.stepBack (h : c.InRange) : c.stepBack.InRange ∧ c.stepBack.mem = c.mem := by
  have col := h.col
  have row := h.row
  rw [Console.stepBack]
  split_ifs
  · exact ⟨⟨by dsimp only; omega, row⟩, rfl⟩
  · exact ⟨⟨by dsimp only; omega, by dsimp only; omega⟩, rfl⟩
  · exact ⟨h, rfl⟩

theorem InRange.backspacePressed (h : c.InRange) :
    c.backspacePressed.InRange ∧ Outside c c.backspacePressed := by
  obtain ⟨back, same⟩ := h.stepBack
  have stored := putCell_outside back.here_lt 0x20
  rw [backspacePressed_eq]
  rw [Outside, same] at stored
  exact ⟨⟨back.col, back.row⟩, stored⟩

theorem InRange.advance (h : c.InRange) (b : Byte) :
    (c.advance b).InRange ∧ Outside c (c.advance b) := by
  have stored := putCell_outside h.here_lt b
  have cell : (c.putCell b).InRange := ⟨h.col, h.row⟩
  have col := h.col
  rcases Nat.lt_or_ge c.screenX 79 with inner | edge
  · rw [advance_inner inner]
    exact ⟨⟨by dsimp only; omega, h.row⟩, stored⟩
  · rw [advance_edge (by omega)]
    obtain ⟨range, moved⟩ := cell.newRow
    exact ⟨range, fun a ha => (moved a ha).trans (stored a ha)⟩

theorem InRange.putcTerm (h : c.InRange) {b : Byte} (fits : b = 0x09 → c.screenX < 76) :
    (c.putcTerm b).InRange ∧ Outside c (c.putcTerm b) := by
  have row := h.row
  by_cases back : b = 0x08
  · rw [back, putcTerm_backspace row]
    exact h.backspacePressed
  by_cases tab : b = 0x09
  · have room := fits tab
    rw [tab, putcTerm_tab row]
    exact ⟨⟨by dsimp only; omega, row⟩, fun _ _ => rfl⟩
  by_cases ret : b = 0x0D
  · rw [ret, putcTerm_return row]
    exact ⟨⟨Nat.zero_lt_succ 79, row⟩, fun _ _ => rfl⟩
  by_cases newline : b = 0x0A
  · rw [newline, putcTerm_newline row]
    exact h.newRow
  by_cases printable : 0x20 ≤ b
  · rw [putcTerm_printable printable row]
    exact h.advance b
  · rw [putcTerm_control printable back tab ret newline row]
    exact ⟨h, fun _ _ => rfl⟩

theorem InRange.apply (h : c.InRange) {op : Op} (fits : TabFits op c) :
    (op.apply c).InRange ∧ Outside c (op.apply c) := by
  cases op with
  | putc b => exact h.putcTerm fun tab => fits (by rw [tab])
  | backspace => exact h.backspacePressed
  | clear => exact ⟨clearTerm_inRange c, clearTerm_outside c⟩

theorem safe_iff (h : c.InRange) (op : Op) : Safe op c ↔ TabFits op c := by
  refine ⟨fun safe tab => ?_, fun fits => ⟨(h.apply fits).1, fun mem a ha => ?_⟩⟩
  · have after := safe.1.col
    rw [tab, Op.apply, putcTerm_tab h.row] at after
    dsimp only at after
    omega
  · have same : InRange { c with mem := mem } := ⟨h.col, h.row⟩
    exact (same.apply fits).2 a ha

end Step

/-- From a cleared screen on, the routines keep the cursor on the screen and store
inside it exactly as long as every tab comes before column 76. -/
theorem cursor_safe_iff (c : Console) (ops : List Op) :
    Along step Safe ops c.clearTerm ↔ Along step TabFits ops c.clearTerm := by
  refine along_congr (I := InRange) (fun op c h _ => safe_iff h op) (fun op c c' _ _ safe hs => ?_)
    (along_true ops _) (clearTerm_inRange c)
  rw [step, Option.some_inj] at hs
  exact hs ▸ safe.1

/-- A row of tabs at the bottom moves the cursor off the screen, and the next
character is stored behind it. -/
theorem tabs_leave_screen :
    ∃ c, run step (List.replicate 24 (.putc 0x0A) ++ List.replicate 20 (.putc 0x09))
        (clearTerm ⟨fun _ => 0, 0, 0⟩) = some c ∧
      ¬ c.InRange ∧ c.mem 4000 = 0 ∧ (c.putcTerm 0x61).mem 4000 = 0x61 := by
  have seen : (run step (List.replicate 24 (.putc 0x0A) ++ List.replicate 20 (.putc 0x09))
      (clearTerm ⟨fun _ => 0, 0, 0⟩)).map
        (fun c => (c.screenX, c.mem 4000, (c.putcTerm 0x61).mem 4000)) = some (80, 0, 0x61) := by
    decide +kernel
  obtain ⟨c, reached, values⟩ := Option.map_eq_some_iff.mp seen
  simp only [Prod.mk.injEq] at values
  refine ⟨c, reached, fun range => ?_, values.2⟩
  have col := range.col
  omega

end LumettaOS.Console
