import LumettaOS.Screen
import LumettaOS.Terminal

/-! Text on a sheet without end, and the screen as a window on its last rows. -/

namespace LumettaOS

/-- A sheet of rows of 80 cells, blank where nothing was written, and the place of
the next character. -/
structure Layout where
  cell : Nat → Nat → Byte
  row : Nat
  col : Nat

namespace Layout
open Console

def empty : Layout := ⟨fun _ _ => 0x20, 0, 0⟩

def newline (l : Layout) : Layout := { l with row := l.row + 1, col := 0 }

def write (l : Layout) (b : Byte) : Layout :=
  { l with cell := fun r x => if r = l.row ∧ x = l.col then b else l.cell r x }

theorem write_cell (l : Layout) (b : Byte) (r x : Nat) :
    (l.write b).cell r x = if r = l.row ∧ x = l.col then b else l.cell r x := rfl

def print (l : Layout) (b : Byte) : Layout :=
  if l.col + 1 = 80 then (l.write b).newline else { l.write b with col := l.col + 1 }

def put (l : Layout) (b : Byte) : Layout := if b = 0x0A then l.newline else l.print b

def top (l : Layout) : Nat := l.row - 24

theorem write_top (l : Layout) (b : Byte) : (l.write b).top = l.top := rfl

/-- The screen shows the sheet from row `top` on. -/
structure Shows (l : Layout) (c : Console) : Prop where
  cells : ∀ y x, y < 25 → x < 80 →
    c.mem ((80 * y + x) * 2) = l.cell (l.top + y) x ∧ c.mem ((80 * y + x) * 2 + 1) = attrib
  screenX : c.screenX = l.col
  screenY : c.screenY = l.row - l.top
  col : l.col < 80
  blank : ∀ r x, l.row < r → l.cell r x = 0x20

section Shows

variable {l : Layout} {c : Console} {b : Byte}

theorem Shows.row (h : Shows l c) : c.screenY < 25 := by
  have place := h.screenY
  rw [top] at place
  omega

theorem empty_shows (c : Console) : Shows empty c.clearTerm where
  cells y x hy hx := by
    have low : (80 * y + x) * 2 < 4000 ∧ (80 * y + x) * 2 + 1 < 4000 := by omega
    have even : (80 * y + x) * 2 % 2 = 0 ∧ ¬ ((80 * y + x) * 2 + 1) % 2 = 0 := by omega
    simp [clearTerm, clear_eq, empty, low, even]
  screenX := rfl
  screenY := rfl
  col := by simp [empty]
  blank _ _ _ := rfl

theorem scrollTerm_cell (c : Console) {y x : Nat} (hy : y < 25) (hx : x < 80) :
    c.scrollTerm.mem ((80 * y + x) * 2) =
      (if y = 24 then 0x20 else c.mem ((80 * (y + 1) + x) * 2)) ∧
    c.scrollTerm.mem ((80 * y + x) * 2 + 1) = c.mem ((80 * y + x) * 2 + 1) := by
  have odd : ¬ (((80 * y + x) * 2 + 1) % 2 = 0 ∧ (80 * y + x) * 2 + 1 < 4000) := by omega
  have even : (80 * y + x) * 2 % 2 = 0 ∧ (80 * y + x) * 2 < 4000 := by omega
  simp only [scrollTerm_eq, if_pos even, if_neg odd, and_true]
  by_cases bottom : y = 24
  · rw [if_neg (by omega), if_pos bottom]
  · have below : (80 * y + x) * 2 + 160 = (80 * (y + 1) + x) * 2 := by omega
    rw [if_pos (by omega), if_neg bottom, below]

theorem Shows.newRow (h : Shows l c) : Shows l.newline c.newRow := by
  have place := h.screenY
  rw [top] at place
  have blank : ∀ r x, l.newline.row < r → l.newline.cell r x = 0x20 := fun r x hr => by
    simp only [newline] at hr
    exact h.blank r x (by omega)
  by_cases bottom : c.screenY = 24
  -- the window moves with the text, so every cell comes from the row below it
  · have next : l.newline.top = l.top + 1 := by
      simp only [top, newline]
      omega
    rw [Console.newRow, if_pos bottom]
    refine ⟨fun y x hy hx => ?_, rfl, ?_, by simp [newline], blank⟩
    · obtain ⟨char, colour⟩ := scrollTerm_cell c hy hx
      refine ⟨?_, colour.trans (h.cells y x hy hx).2⟩
      rw [next]
      refine char.trans ?_
      split
      · rename_i last
        refine (h.blank _ x ?_).symm
        rw [top]
        omega
      · rw [(h.cells (y + 1) x (by omega) hx).1, Nat.add_right_comm]
        rfl
    · simp only [newline, top]
      omega
  · have same : l.newline.top = l.top := by
      simp only [top, newline]
      omega
    rw [Console.newRow, if_neg bottom]
    refine ⟨fun y x hy hx => ?_, rfl, ?_, by simp [newline], blank⟩
    · rw [same]
      exact h.cells y x hy hx
    · simp only [newline, top]
      omega

theorem Shows.write (h : Shows l c) (b : Byte) : Shows (l.write b) (c.putCell b) := by
  have place := h.screenY
  have column := h.screenX
  have bound := h.col
  rw [putCell_eq]
  refine ⟨fun y x hy hx => ?_, h.screenX, h.screenY, h.col, fun r x hr => ?_⟩
  · have shown := h.cells y x hy hx
    have spot : c.here = 80 * (l.row - l.top) + l.col := by rw [here, numCols, place, column]
    have below : l.top ≤ l.row := Nat.sub_le _ _
    simp only [spot, write_top, write_cell]
    by_cases same : y = l.row - l.top ∧ x = l.col
    · rw [if_pos (by omega), if_pos (by omega), if_neg (by omega), if_pos (by omega)]
      exact ⟨rfl, rfl⟩
    · have other : ¬ (l.top + y = l.row ∧ x = l.col) := fun e => same ⟨by omega, e.2⟩
      have away : 80 * y + x ≠ 80 * (l.row - l.top) + l.col := fun e => same (by omega)
      rw [if_neg (by omega), if_neg (by omega), if_neg other, if_neg (by omega), if_neg (by omega)]
      exact shown
  · have hr : l.row < r := hr
    rw [write_cell, if_neg (by omega)]
    exact h.blank r x hr

theorem Shows.put (h : Shows l c) (hb : 0x20 ≤ b ∨ b = 0x0A) : Shows (l.put b) (c.putcTerm b) := by
  rcases hb with printable | newline
  · have column := h.screenX
    have bound := h.col
    obtain ⟨-, -, -, other⟩ := printable_ne printable
    rw [putcTerm_printable printable h.row, Layout.put, if_neg other, print]
    by_cases last : l.col + 1 = 80
    · rw [if_pos last, advance_edge (by omega)]
      exact (h.write b).newRow
    · have written := h.write b
      rw [if_neg last, advance_inner (by omega)]
      refine ⟨written.cells, ?_, written.screenY, ?_, written.blank⟩
      · rw [column]
      · dsimp only
        omega
  · rw [newline, putcTerm_newline h.row]
    exact h.newRow

theorem Shows.foldl {text : List Byte} (h : Shows l c) (hb : ∀ b ∈ text, 0x20 ≤ b ∨ b = 0x0A) :
    Shows (text.foldl Layout.put l) (text.foldl putcTerm c) := by
  induction text generalizing l c with
  | nil => exact h
  | cons b text ih => exact ih (h.put (hb b (by simp))) fun b' h' => hb b' (by simp [h'])

end Shows

section Writes
open Terminal

structure Chunk where
  buf : Memory
  nbytes : Word

def Chunk.text (k : Chunk) : List Byte := (List.range k.nbytes.toNat).map k.buf

def writeAll (chunks : List Chunk) (c : Console) : Console :=
  chunks.foldl (fun c k => (terminalWrite false k.buf k.nbytes c).2) c

theorem terminalWrite_chunk (k : Chunk) (h : 0 < k.nbytes.toInt) (c : Console) :
    (terminalWrite false k.buf k.nbytes c).2 = k.text.foldl putcTerm c := by
  have accepted : ¬ (k.nbytes.toInt ≤ 0 ∨ false = true) := by simpa using h
  rw [terminalWrite, if_neg accepted, Chunk.text, List.foldl_map]

theorem writeAll_eq {chunks : List Chunk} (h : ∀ k ∈ chunks, 0 < k.nbytes.toInt) (c : Console) :
    writeAll chunks c = (chunks.flatMap Chunk.text).foldl putcTerm c := by
  induction chunks generalizing c with
  | nil => rfl
  | cons k chunks ih =>
    rw [List.flatMap_cons, List.foldl_append, ← terminalWrite_chunk k (h k (by simp)) c]
    exact ih (fun k' h' => h k' (by simp [h'])) _

/-- Text written in any pieces from a cleared screen on: the screen shows the last 25
rows of its layout, in the one colour, and the cursor is where the text ends. -/
theorem screen_shows_tail {chunks : List Chunk} {text : List Byte}
    (nonempty : ∀ k ∈ chunks, 0 < k.nbytes.toInt) (pieces : chunks.flatMap Chunk.text = text)
    (plain : ∀ b ∈ text, 0x20 ≤ b ∨ b = 0x0A) (c : Console) :
    ∃ l, l = text.foldl Layout.put empty ∧
      (∀ y x, y < 25 → x < 80 →
        (writeAll chunks c.clearTerm).mem ((80 * y + x) * 2) = l.cell (l.row - 24 + y) x ∧
        (writeAll chunks c.clearTerm).mem ((80 * y + x) * 2 + 1) = 0x07) ∧
      (writeAll chunks c.clearTerm).screenX = l.col ∧
      (writeAll chunks c.clearTerm).screenY = l.row - (l.row - 24) := by
  have shows_ := (empty_shows c).foldl plain
  rw [writeAll_eq nonempty, pieces]
  exact ⟨_, rfl, shows_.cells, shows_.screenX, shows_.screenY⟩

def twoChunks : List Chunk :=
  [⟨CString.literal [0x61, 0x0A] fun _ => 0, 2⟩, ⟨CString.literal [0x62] fun _ => 0, 1⟩]

theorem screen_shows_tail_sample :
    (writeAll twoChunks (clearTerm ⟨fun _ => 0, 3, 4⟩)).mem 0 = 0x61 ∧
    (writeAll twoChunks (clearTerm ⟨fun _ => 0, 3, 4⟩)).mem 160 = 0x62 ∧
    (writeAll twoChunks (clearTerm ⟨fun _ => 0, 3, 4⟩)).screenX = 1 ∧
    (writeAll twoChunks (clearTerm ⟨fun _ => 0, 3, 4⟩)).screenY = 1 := by
  have nonempty : ∀ k ∈ twoChunks, 0 < k.nbytes.toInt := by simp [twoChunks]
  have pieces : twoChunks.flatMap Chunk.text = [0x61, 0x0A, 0x62] := by decide
  obtain ⟨l, rfl, cells, col, row⟩ :=
    screen_shows_tail nonempty pieces (by decide) ⟨fun _ => 0, 3, 4⟩
  have first := (cells 0 0 (by decide) (by decide)).1
  have second := (cells 1 0 (by decide) (by decide)).1
  exact ⟨first, second, col, row⟩

end Writes

end Layout

end LumettaOS
