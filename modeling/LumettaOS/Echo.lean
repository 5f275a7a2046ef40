import LumettaOS.Cursor
import LumettaOS.LineEditor

/-! The screen against the line buffer. Characters are echoed and stored by different
tests, so a backspace erases the echo of what it removes only where the two agree:
not for a stored character that was never shown. -/

namespace LumettaOS

namespace Console

structure SameScreen (c c' : Console) : Prop where
  screenX : c.screenX = c'.screenX
  screenY : c.screenY = c'.screenY
  mem : ∀ a, a < 4000 → c.mem a = c'.mem a

def BlankFrom (c : Console) : Prop :=
  ∀ i, c.here ≤ i → i < 2000 → c.mem (2 * i) = 0x20 ∧ c.mem (2 * i + 1) = attrib

def Scrolls (c : Console) (b : Byte) : Prop :=
  (b = 0x0A ∧ 24 ≤ c.screenY) ∨ (0x20 ≤ b ∧ 79 ≤ c.screenX ∧ c.screenY = 24)

def replay (c : Console) (line : List Byte) : Console := line.foldl putcTerm c

theorem clearTerm_blankFrom (c : Console) : c.clearTerm.BlankFrom := by
  intro i _ top
  have even : 2 * i < 4000 ∧ 2 * i + 1 < 4000 ∧ 2 * i % 2 = 0 ∧ ¬ (2 * i + 1) % 2 = 0 := by omega
  simp [clearTerm, clear_eq, even]

section Same

variable {c c' : Console} {b : Byte}

theorem SameScreen.refl (c : Console) : SameScreen c c := ⟨rfl, rfl, fun _ _ => rfl⟩

theorem SameScreen.symm (h : SameScreen c c') : SameScreen c' c :=
  ⟨h.screenX.symm, h.screenY.symm, fun a ha => (h.mem a ha).symm⟩

theorem SameScreen.trans {c'' : Console} (h : SameScreen c c') (h' : SameScreen c' c'') :
    SameScreen c c'' :=
  ⟨h.screenX.trans h'.screenX, h.screenY.trans h'.screenY,
    fun a ha => (h.mem a ha).trans (h'.mem a ha)⟩

theorem SameScreen.here (h : SameScreen c c') : c.here = c'.here := by
  rw [Console.here, Console.here, h.screenX, h.screenY]

theorem SameScreen.putCell (h : SameScreen c c') (b : Byte) :
    SameScreen (c.putCell b) (c'.putCell b) := by
  rw [putCell_eq, putCell_eq, h.here]
  refine ⟨h.screenX, h.screenY, fun a ha => ?_⟩
  simp only [h.mem a ha]

theorem SameScreen.stepBack (h : SameScreen c c') : SameScreen c.stepBack c'.stepBack := by
  rw [Console.stepBack, Console.stepBack, h.screenX, h.screenY]
  split_ifs
  · exact ⟨rfl, rfl, h.mem⟩
  · exact ⟨rfl, rfl, h.mem⟩
  · exact h

theorem SameScreen.backspacePressed (h : SameScreen c c') :
    SameScreen c.backspacePressed c'.backspacePressed := by
  rw [backspacePressed_eq, backspacePressed_eq]
  exact h.stepBack.putCell 0x20

/-- A character that the keyboard stores, at a place where its echo stays in its row
or begins the next one. -/
def Echoable (c : Console) (b : Byte) : Prop :=
  b = 0x09 ∨ b = 0x1B ∨ (0x20 ≤ b ∧ c.screenX < 80 ∧ ¬ c.Scrolls b)

theorem putcTerm_escape (row : c.screenY < 25) : c.putcTerm 0x1B = c :=
  putcTerm_control (by decide) (by decide) (by decide) (by decide) (by decide) row

theorem putcTerm_shown (hb : 0x20 ≤ b) (col : c.screenX < 80) (row : c.screenY < 25)
    (still : ¬ c.Scrolls b) :
    c.putcTerm b = (if c.screenX = 79 then
        { c.putCell b with screenX := 0, screenY := c.screenY + 1 }
      else { c.putCell b with screenX := c.screenX + 1 }) ∧
    (c.screenX = 79 → c.screenY < 24) := by
  have higher : c.screenX = 79 → c.screenY < 24 := fun edge => by
    by_contra low
    exact still (Or.inr ⟨hb, by omega, by omega⟩)
  refine ⟨?_, higher⟩
  rw [putcTerm_printable hb row]
  split
  · rename_i edge
    have above := higher edge
    rw [advance_edge edge, newRow, putCell_screenY, if_neg (by omega)]
  · exact advance_inner (by omega) b

theorem SameScreen.putcTerm (h : SameScreen c c') (row : c'.screenY < 25) (e : Echoable c' b) :
    SameScreen (c.putcTerm b) (c'.putcTerm b) := by
  have row₁ : c.screenY < 25 := h.screenY ▸ row
  rcases e with rfl | rfl | ⟨hb, col, still⟩
  · rw [putcTerm_tab row, putcTerm_tab row₁]
    exact ⟨congrArg (· + 4) h.screenX, h.screenY, h.mem⟩
  · rw [putcTerm_escape row, putcTerm_escape row₁]
    exact h
  · have col₁ : c.screenX < 80 := h.screenX ▸ col
    have still₁ : ¬ c.Scrolls b := by rwa [Scrolls, h.screenX, h.screenY]
    have cells := (h.putCell b).mem
    rw [(putcTerm_shown hb col row still).1, (putcTerm_shown hb col₁ row₁ still₁).1, h.screenX,
      h.screenY]
    split
    · exact ⟨rfl, rfl, cells⟩
    · exact ⟨rfl, h.screenY, cells⟩

structure Ready (c : Console) : Prop where
  row : c.screenY < 25
  blank : c.BlankFrom

theorem putCell_blank (h : c.BlankFrom) (b : Byte) {i : Nat} (hi : c.here < i) (top : i < 2000) :
    (c.putCell b).mem (2 * i) = 0x20 ∧ (c.putCell b).mem (2 * i + 1) = attrib := by
  simp only [putCell_eq]
  rw [if_neg (by omega), if_neg (by omega), if_neg (by omega), if_neg (by omega)]
  exact h i (by omega) top

theorem Ready.putcTerm (h : Ready c) (e : Echoable c b) : Ready (c.putcTerm b) := by
  have row := h.row
  rcases e with rfl | rfl | ⟨hb, col, still⟩
  · rw [putcTerm_tab row]
    refine ⟨row, fun i low top => h.blank i ?_ top⟩
    simp only [here] at low ⊢
    omega
  · rw [putcTerm_escape row]
    exact h
  · obtain ⟨eq, higher⟩ := putcTerm_shown hb col row still
    rw [eq]
    split
    · rename_i edge
      have above := higher edge
      refine ⟨by dsimp only; omega, fun i low top => putCell_blank h.blank b ?_ top⟩
      simp only [here, numCols] at low ⊢
      omega
    · refine ⟨row, fun i low top => putCell_blank h.blank b ?_ top⟩
      simp only [here, putCell_screenY] at low ⊢
      omega

theorem putCell_space (h : c.BlankFrom) : SameScreen (c.putCell 0x20) c := by
  rw [putCell_eq]
  refine ⟨rfl, rfl, fun a ha => ?_⟩
  dsimp only
  split_ifs with char colour
  · rw [char, (h c.here le_rfl (by omega)).1]
  · rw [colour, (h c.here le_rfl (by omega)).2]
  · rfl

theorem putCell_putCell (c : Console) (b b' : Byte) : (c.putCell b).putCell b' = c.putCell b' := by
  have same : (c.putCell b).here = c.here := rfl
  rw [putCell_eq _ b', putCell_eq _ b', same]
  simp only [Console.mk.injEq, and_true, putCell_eq]
  funext a
  split_ifs <;> rfl

theorem Ready.undo_shown (h : Ready c) (hb : 0x20 ≤ b) (col : c.screenX < 80)
    (still : ¬ c.Scrolls b) : SameScreen (c.putcTerm b).backspacePressed c := by
  obtain ⟨eq, -⟩ := putcTerm_shown hb col h.row still
  have back : (c.putcTerm b).stepBack = c.putCell b := by
    rw [eq]
    split
    · rename_i edge
      simp only [stepBack, putCell_eq, edge]
      rfl
    · simp only [stepBack, putCell_eq]
      rfl
  rw [backspacePressed_eq, back, putCell_putCell]
  exact putCell_space h.blank

theorem backspacePressed_blank {x : Nat} (h : c.BlankFrom) (ahead : c.screenX ≤ x) :
    SameScreen { c with screenX := x + 1 }.backspacePressed { c with screenX := x } := by
  have further : BlankFrom { c with screenX := x } := fun i low top => h i
    (by simp only [here] at low ⊢; omega) top
  rw [backspacePressed_eq]
  exact putCell_space further

theorem Ready.undo_tab (h : Ready c) :
    SameScreen (c.putcTerm 0x09).backspacePressed.backspacePressed.backspacePressed.backspacePressed
      c := by
  have last := backspacePressed_blank h.blank (x := c.screenX + 3) (by omega)
  have third := backspacePressed_blank h.blank (x := c.screenX + 2) (by omega)
  have second := backspacePressed_blank h.blank (x := c.screenX + 1) (by omega)
  have first := backspacePressed_blank h.blank (x := c.screenX) le_rfl
  rw [putcTerm_tab h.row]
  have three := (last.backspacePressed.trans third).backspacePressed.trans second
  exact three.backspacePressed.trans first

theorem Ready.backspace_iff (h : Ready c) :
    SameScreen c.backspacePressed c ↔ c.screenX = 0 ∧ c.screenY = 0 := by
  rw [backspacePressed_eq]
  refine ⟨fun same => ?_, fun ⟨col, row⟩ => ?_⟩
  · have col := same.screenX
    have row := same.screenY
    simp only [putCell_screenX, putCell_screenY, stepBack] at col row
    split_ifs at col row with right below
    · have moved : c.screenX - 1 = c.screenX := col
      omega
    · have moved : c.screenY - 1 = c.screenY := row
      omega
    · omega
  · have stays : c.stepBack = c := by simp [stepBack, col, row]
    rw [stays]
    exact putCell_space h.blank

end Same

section Replay

variable {c : Console} {line : List Byte} {b : Byte}

theorem replay_concat (c : Console) (line : List Byte) (b : Byte) :
    replay c (line ++ [b]) = (replay c line).putcTerm b := by
  rw [replay, replay, List.foldl_concat]

def Typable (c : Console) (line : List Byte) : Prop :=
  ∀ p b, p ++ [b] <+: line → Echoable (replay c p) b

theorem typable_nil (c : Console) : Typable c [] := fun p b h => by simp at h

theorem typable_concat :
    Typable c (line ++ [b]) ↔ Typable c line ∧ Echoable (replay c line) b := by
  refine ⟨fun h => ⟨fun p d hp => h p d (hp.trans (List.prefix_append _ _)), h line b (by simp)⟩,
    fun ⟨h, last⟩ p d hp => ?_⟩
  rcases List.prefix_concat_iff.mp hp with whole | part
  · obtain ⟨same, char⟩ := List.append_inj' whole rfl
    rw [same, List.singleton_inj.mp char]
    exact last
  · exact h p d part

theorem Ready.replay (h : Ready c) (typable : Typable c line) : Ready (replay c line) := by
  induction line using List.reverseRecOn with
  | nil => exact h
  | append_singleton line b ih =>
    obtain ⟨front, last⟩ := typable_concat.mp typable
    rw [replay_concat]
    exact (ih front).putcTerm last

end Replay

end Console

namespace Keyboard

theorem lower_kinds : ∀ scancode, lower scancode = 0 ∨ lower scancode = 0x08 ∨
    lower scancode = 0x09 ∨ lower scancode = 0x0A ∨ lower scancode = 0x1B ∨
    0x20 ≤ lower scancode := by decide

theorem upper_kinds : ∀ scancode, upper scancode = 0 ∨ upper scancode = 0x08 ∨
    upper scancode = 0x09 ∨ upper scancode = 0x0A ∨ upper scancode = 0x1B ∨
    0x20 ≤ upper scancode := by decide

/-- The one control character in the tables that is neither a key of the editor nor
a tab is Escape. -/
theorem typedChar_kinds {status scancode c : Byte} (h : typedChar status scancode = some c) :
    c = 0 ∨ c = 0x08 ∨ c = 0x09 ∨ c = 0x0A ∨ c = 0x1B ∨ 0x20 ≤ c := by
  rcases Reader.typedChar_cases h with e | e
  · rw [e]
    exact lower_kinds scancode
  · rw [e]
    exact upper_kinds scancode

section EchoTyped

variable {k : Keyboard} {c : Byte}

theorem echoTyped_backspace (index : k.index ≠ 0) (t : Console) :
    echoTyped 0x08 k t = if k.buffer (k.index - 1) = 0x09 then
      t.backspacePressed.backspacePressed.backspacePressed.backspacePressed
      else t.putcTerm 0x08 := by
  simp [echoTyped, index]

theorem echoTyped_empty (index : k.index = 0) (t : Console) : echoTyped 0x08 k t = t := by
  simp [echoTyped, index]

theorem echoTyped_other (back : c ≠ 0x08) (newline : c ≠ 0x0A) (t : Console) :
    echoTyped c k t = if k.index < 127 then t.putcTerm c else t := by
  have shown : k.index < 127 ∧ c ≠ 0x08 ↔ k.index < 127 := and_iff_left back
  simp only [echoTyped, if_neg (fun e : c = 0x0A ∧ _ => newline e.1),
    if_neg (fun e : c = 0x08 ∧ _ => back e.1), shown]

end EchoTyped

end Keyboard

namespace Reader
open Lib.Runs CString Keyboard Console

structure Typing where
  keyboard : Keyboard
  console : Console

def Typing.next (scancode : Byte) (s : Typing) : Typing :=
  ⟨s.keyboard.handler scancode, s.keyboard.echo scancode s.console⟩

def press (scancode : Byte) (s : Typing) : Option Typing := some (s.next scancode)

structure Plain (scancode : Byte) (s : Typing) : Prop where
  enter : typedChar s.keyboard.keyStatus scancode ≠ some 0x0A
  clear : typedChar s.keyboard.keyStatus scancode = none →
    ¬ (scancode &&& 0x80 = 0 ∧ pressed s.keyboard.keyStatus scancode = none)
  still : ∀ c, typedChar s.keyboard.keyStatus scancode = some c → s.keyboard.index < 127 →
    ¬ s.console.Scrolls c

/-- No visible character is typed while a tab has the cursor off the screen. -/
def OnScreen (scancode : Byte) (s : Typing) : Prop :=
  ∀ c, typedChar s.keyboard.keyStatus scancode = some c → 0x20 ≤ c → s.keyboard.index < 127 →
    s.console.screenX < 80

/-- No backspace removes an Escape, except in the top left corner. -/
def Erasable (scancode : Byte) (s : Typing) : Prop :=
  typedChar s.keyboard.keyStatus scancode = some 0x08 → s.keyboard.index ≠ 0 →
    s.keyboard.buffer (s.keyboard.index - 1) = 0x1B → s.console.screenX = 0 ∧ s.console.screenY = 0

def Matches (start : Console) (s : Typing) : Prop :=
  SameScreen s.console
    (replay start ((List.range s.keyboard.index).map s.keyboard.buffer))

section Echo

variable {start : Console} {s : Typing} {line : List Byte}

structure Mirrors (start : Console) (s : Typing) (line : List Byte) : Prop where
  edits : Edits s.keyboard s.keyboard.keyStatus line
  typable : Typable start line
  same : SameScreen s.console (replay start line)

theorem matches_iff (edits : Edits s.keyboard s.keyboard.keyStatus line) :
    Matches start s ↔ SameScreen s.console (replay start line) := by
  have held := edits.holds.map_range
  rw [← edits.index] at held
  rw [Matches, held]

theorem Edits.last_stored {k : Keyboard} {status last : Byte} {front : List Byte}
    (h : Edits k status (front ++ [last])) :
    k.index ≠ 0 ∧ k.buffer (k.index - 1) = last := by
  have length := h.index
  rw [List.length_append, List.length_singleton] at length
  refine ⟨by omega, ?_⟩
  rw [length, Nat.add_sub_cancel]
  exact h.holds _ _ (by simp)

theorem Mirrors.erase {front : List Byte} {last : Byte} (ready : Ready start)
    (m : Mirrors start s (front ++ [last])) :
    SameScreen (echoTyped 0x08 s.keyboard s.console) (replay start front) ↔
      (last = 0x1B → s.console.screenX = 0 ∧ s.console.screenY = 0) := by
  obtain ⟨index, stored⟩ := m.edits.last_stored
  obtain ⟨typable, echoable⟩ := typable_concat.mp m.typable
  have before := ready.replay typable
  have same := m.same
  rw [replay_concat] at same
  have row : s.console.screenY < 25 := by
    rw [same.screenY]
    exact (before.putcTerm echoable).row
  rw [echoTyped_backspace index, stored]
  -- a tab has four cells, Escape none, every other character one
  rcases echoable with rfl | rfl | ⟨hb, col, still⟩
  · rw [if_pos rfl]
    refine iff_of_true ?_ fun e => absurd e (by decide)
    have undone := same.backspacePressed.backspacePressed.backspacePressed.backspacePressed
    exact undone.trans before.undo_tab
  · rw [putcTerm_escape before.row] at same
    rw [if_neg (by decide), putcTerm_backspace row, same.screenX, same.screenY,
      ← before.backspace_iff]
    refine ⟨fun h _ => same.backspacePressed.symm.trans h, fun h => ?_⟩
    exact same.backspacePressed.trans (h rfl)
  · rw [if_neg (printable_ne hb).2.1, putcTerm_backspace row]
    refine iff_of_true ?_ fun e => absurd (e ▸ hb) (by decide)
    exact same.backspacePressed.trans (before.undo_shown hb col still)

theorem Mirrors.type {c : Byte} (ready : Ready start) (m : Mirrors start s line) (back : c ≠ 0x08)
    (newline : c ≠ 0x0A) (kind : c = 0 ∨ c = 0x09 ∨ c = 0x1B ∨ 0x20 ≤ c)
    (shown : 0x20 ≤ c → s.keyboard.index < 127 → s.console.screenX < 80)
    (still : s.keyboard.index < 127 → ¬ s.console.Scrolls c) :
    Typable start (Editor.put c line) ∧
      SameScreen (echoTyped c s.keyboard s.console) (replay start (Editor.put c line)) := by
  have before := ready.replay m.typable
  have same := m.same
  have index := m.edits.index
  rw [echoTyped_other back newline, Editor.put, if_neg back]
  by_cases zero : c = 0
  · have ignored : s.console.putcTerm c = s.console := by
      rw [zero]
      exact putcTerm_control (by decide) (by decide) (by decide) (by decide) (by decide)
        (same.screenY ▸ before.row)
    rw [if_pos zero, ignored, ite_self]
    exact ⟨m.typable, same⟩
  · rw [if_neg zero, index]
    by_cases room : line.length < 127
    · have echoable : Echoable (replay start line) c := by
        rcases kind with e | e | e | hb
        · exact absurd e zero
        · exact Or.inl e
        · exact Or.inr (Or.inl e)
        · refine Or.inr (Or.inr ⟨hb, same.screenX ▸ shown hb (by omega), ?_⟩)
          have quiet := still (by omega)
          rwa [Scrolls, same.screenX, same.screenY] at quiet
      rw [if_pos room, if_pos room, replay_concat]
      exact ⟨typable_concat.mpr ⟨m.typable, echoable⟩, same.putcTerm before.row echoable⟩
    · rw [if_neg room, if_neg room]
      exact ⟨m.typable, same⟩

/-- After any key the screen is right exactly if a backspace did not miss. -/
theorem Mirrors.next (ready : Ready start) (m : Mirrors start s line) {scancode : Byte}
    (plain : Plain scancode s) (shown : OnScreen scancode s) :
    ∃ line', Edits (s.next scancode).keyboard (s.next scancode).keyboard.keyStatus line' ∧
      Typable start line' ∧
      (SameScreen (s.next scancode).console (replay start line') ↔ Erasable scancode s) := by
  have edits := m.edits
  cases ht : typedChar s.keyboard.keyStatus scancode with
  | none =>
    have kept : s.keyboard.echo scancode s.console = s.console := by
      simp only [echo, ht, if_neg (plain.clear ht)]
    refine ⟨line, ?_, m.typable, iff_of_true ?_ fun e => absurd (ht.symm.trans e) (by simp)⟩
    · simp only [Typing.next, handler_none ht]
      exact ⟨rfl, edits.index, edits.holds, edits.line⟩
    · simp only [Typing.next, kept]
      exact m.same
  | some c =>
    have newline : c ≠ 0x0A := fun e => plain.enter (e ▸ ht)
    have echoed : s.keyboard.echo scancode s.console = echoTyped c s.keyboard s.console := by
      simp only [echo, ht]
    have typed_ := edits.typed_other newline
    rw [← typed_keyStatus c s.keyboard] at typed_
    simp only [Typing.next, handler_some ht, echoed]
    refine ⟨Editor.put c line, typed_, ?_⟩
    by_cases back : c = 0x08
    · rw [Editor.put, if_pos back]
      rw [back] at ht ⊢
      rcases List.eq_nil_or_concat' line with rfl | ⟨front, last, rfl⟩
      · have empty : s.keyboard.index = 0 := edits.index
        rw [echoTyped_empty empty]
        exact ⟨m.typable, iff_of_true m.same fun _ some_ => absurd empty some_⟩
      · obtain ⟨index, stored⟩ := edits.last_stored
        rw [List.dropLast_concat, m.erase ready]
        refine ⟨(typable_concat.mp m.typable).1, fun h _ _ escape => h (stored.symm.trans escape),
          fun h escape => h ht index (stored.trans escape)⟩
    · have kind : c = 0 ∨ c = 0x09 ∨ c = 0x1B ∨ 0x20 ≤ c := by
        rcases typedChar_kinds ht with e | e | e | e | e | e
        · exact Or.inl e
        · exact absurd e back
        · exact Or.inr (Or.inl e)
        · exact absurd e newline
        · exact Or.inr (Or.inr (Or.inl e))
        · exact Or.inr (Or.inr (Or.inr e))
      obtain ⟨typable, same⟩ := m.type ready back newline kind (shown c ht) (plain.still c ht)
      refine ⟨typable, iff_of_true same fun e => absurd (ht.symm.trans e) ?_⟩
      simpa using back

/-- Keys without Enter and Ctrl+L on a screen that does not scroll: after every one of
them the screen is the first one with the line buffer echoed, exactly if no backspace
removes an Escape. -/
theorem echo_matches_iff {k : Keyboard} (index : k.index = 0) (range : start.InRange)
    (blank : start.BlankFrom) {scancodes : List Byte}
    (plain : Along press Plain scancodes ⟨k, start⟩)
    (shown : Along press OnScreen scancodes ⟨k, start⟩) :
    Along press (fun scancode s => Matches start (s.next scancode)) scancodes ⟨k, start⟩ ↔
      Along press Erasable scancodes ⟨k, start⟩ := by
  have ready : Ready start := ⟨range.row, blank⟩
  have first : Mirrors start ⟨k, start⟩ [] :=
    ⟨⟨rfl, index, fun i b hb => by simp at hb, ⟨by simp, by simp⟩⟩, typable_nil start,
      SameScreen.refl start⟩
  refine along_congr (I := fun s => ∃ line, Mirrors start s line) ?_ ?_ (along_and plain shown)
    ⟨[], first⟩
  · rintro scancode s ⟨line, m⟩ ⟨plain, shown⟩
    obtain ⟨line', edits, -, right⟩ := m.next ready plain shown
    rw [matches_iff edits, right]
  · rintro scancode s s' ⟨line, m⟩ ⟨plain, shown⟩ matched hs
    obtain ⟨line', edits, typable, -⟩ := m.next ready plain shown
    rw [press, Option.some_inj] at hs
    rw [matches_iff edits] at matched
    exact hs ▸ ⟨line', edits, typable, matched⟩

theorem plain_of_row {scancode c : Byte} (ht : typedChar s.keyboard.keyStatus scancode = some c)
    (newline : c ≠ 0x0A) (row : s.console.screenY < 24) : Plain scancode s where
  enter e := newline (Option.some_inj.mp (ht.symm.trans e))
  clear e := absurd (ht.symm.trans e) (by simp)
  still d hd _ := by
    rw [← Option.some_inj.mp (ht.symm.trans hd)]
    rintro (⟨e, -⟩ | ⟨-, -, low⟩)
    · exact newline e
    · omega

def fresh : Typing := ⟨Keyboard.init, clearTerm ⟨fun _ => 0, 0, 0⟩⟩

theorem echo_matches_iff_sample :
    ∃ s, run press [0x1E, 0x0E] fresh = some s ∧ Matches fresh.console s := by
  have plain : Along press Plain [0x1E, 0x0E] fresh :=
    along_cons (plain_of_row (c := 0x61) rfl (by decide) (by decide +kernel)) rfl
      (along_cons (plain_of_row (c := 0x08) rfl (by decide) (by decide +kernel)) rfl trivial)
  have shown : Along press OnScreen [0x1E, 0x0E] fresh :=
    along_cons (fun _ _ _ _ => by decide +kernel) rfl
      (along_cons (fun _ _ _ _ => by decide +kernel) rfl trivial)
  have erasable : Along press Erasable [0x1E, 0x0E] fresh :=
    along_cons (fun e => absurd e (by decide)) rfl
      (along_cons (fun _ _ e => absurd e (by decide +kernel)) rfl trivial)
  have all := (echo_matches_iff rfl (clearTerm_inRange _) (clearTerm_blankFrom _) plain shown).mpr
    erasable
  exact ⟨_, rfl, (all.2 _ rfl).1⟩

/-- `a`, Escape and a backspace: the line is still `a`, but the screen is empty. -/
theorem escape_erases_neighbour :
    ∃ s, run press [0x1E, 0x01, 0x0E] fresh = some s ∧
      Along press Plain [0x1E, 0x01, 0x0E] fresh ∧
      (List.range s.keyboard.index).map s.keyboard.buffer = [0x61] ∧ s.console.mem 0 = 0x20 ∧
      ¬ Matches fresh.console s := by
  have plain : Along press Plain [0x1E, 0x01, 0x0E] fresh :=
    along_cons (plain_of_row (c := 0x61) rfl (by decide) (by decide +kernel)) rfl
      (along_cons (plain_of_row (c := 0x1B) rfl (by decide) (by decide +kernel)) rfl
        (along_cons (plain_of_row (c := 0x08) rfl (by decide) (by decide +kernel)) rfl trivial))
  have seen : (run press [0x1E, 0x01, 0x0E] fresh).map
      (fun s => ((List.range s.keyboard.index).map s.keyboard.buffer, s.console.mem 0,
        s.console.screenX)) = some ([0x61], 0x20, 0) := by decide +kernel
  have echoed : (replay fresh.console [0x61]).screenX = 1 := by decide +kernel
  obtain ⟨s, reached, values⟩ := Option.map_eq_some_iff.mp seen
  simp only [Prod.mk.injEq] at values
  refine ⟨s, reached, plain, values.1, values.2.1, fun matched => ?_⟩
  have column := matched.screenX
  rw [values.1, values.2.2, echoed] at column
  omega

/-- Typed behind the end of a row, a character is not undone either: the cursor comes
back to the next row. -/
example : (run press (List.replicate 20 0x0F ++ [0x1E, 0x0E]) fresh).map
      (fun s => (s.keyboard.index, s.console.screenX, s.console.screenY)) = some (20, 0, 1) ∧
    (replay fresh.console (List.replicate 20 0x09)).screenX = 80 := by decide +kernel

end Echo

end Reader

end LumettaOS
