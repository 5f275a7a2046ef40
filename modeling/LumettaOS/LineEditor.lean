import LumettaOS.TypeAhead

/-! The line discipline. While keys arrive only as a read waits for them, the driver
is a line editor: the buffer up to its index is the line, and the reads return the
lines as they were finished. -/

namespace LumettaOS.Reader
open Lib.Runs Lib.Scan CString Keyboard Terminal

/-- The modifiers, the line being typed, and the lines that Enter has finished. -/
structure Editor where
  status : Byte
  line : List Byte
  finished : List (List Byte)

namespace Editor

def put (c : Byte) (line : List Byte) : List Byte :=
  if c = 0x08 then line.dropLast
  else if c = 0 then line
  else if line.length < 127 then line ++ [c]
  else line

/-- Modifiers, releases and Ctrl+L give no character. -/
def press (e : Editor) (scancode : Byte) : Editor :=
  match typedChar e.status scancode with
  | none => { e with status := nextStatus e.status scancode }
  | some c =>
    if c = 0x0A then { e with line := [], finished := e.finished ++ [e.line] }
    else { e with line := put c e.line }

def delivered (line : List Byte) : Line := (BitVec.ofNat 32 (line.length + 1), line ++ [0x0A])

end Editor

structure IsLine (line : List Byte) : Prop where
  short : line.length ≤ 127
  text : ∀ b ∈ line, b ≠ 0 ∧ b ≠ 0x0A

structure Edits (k : Keyboard) (status : Byte) (line : List Byte) : Prop where
  status : k.keyStatus = status
  index : k.index = line.length
  holds : Holds k.buffer line
  line : IsLine line

section Editing

variable {k : Keyboard} {status c : Byte} {line : List Byte}

theorem IsLine.put (h : IsLine line) (other : c ≠ 0x0A) : IsLine (Editor.put c line) := by
  rw [Editor.put]
  split_ifs with back zero room
  · exact ⟨by have := h.short; simp; omega, fun b hb => h.text b (List.mem_of_mem_dropLast hb)⟩
  · exact h
  · refine ⟨by simp; omega, fun b hb => ?_⟩
    rcases List.mem_append.mp hb with old | new
    · exact h.text b old
    · rw [List.mem_singleton.mp new]
      exact ⟨zero, other⟩
  · exact h

theorem typed_enter_index (k : Keyboard) : (typed 0x0A k).index = 0 := by
  simp [typed, enter]

theorem typed_keyStatus (c : Byte) (k : Keyboard) : (typed c k).keyStatus = k.keyStatus := by
  have stored (k : Keyboard) : (store c k).keyStatus = k.keyStatus := by
    rw [store]
    split <;> rfl
  have erased : (erase c k).keyStatus = k.keyStatus := by
    rw [erase]
    split <;> rfl
  rw [typed, enter]
  split
  · dsimp only
    split
    · exact (stored _).trans erased
    · exact (stored _).trans erased
  · exact (stored _).trans erased

theorem Edits.erase (h : Edits k status line) :
    Edits (Keyboard.erase 0x08 k) status line.dropLast := by
  have kept : IsLine line.dropLast := by simpa [Editor.put] using h.line.put (c := 0x08) (by decide)
  have length := h.index
  rw [Keyboard.erase]
  split
  · exact ⟨h.status, by simp [length], h.holds.dropLast, kept⟩
  · rename_i stays
    have none_ : k.index = 0 := by simpa using stays
    exact ⟨h.status, by simp; omega, h.holds.dropLast, kept⟩

theorem Edits.typed_other (h : Edits k status line) (other : c ≠ 0x0A) :
    Edits (typed c k) status (Editor.put c line) := by
  have kept := h.line.put other
  have short := h.line.short
  have length := h.index
  rw [Reader.typed_other other]
  by_cases back : c = 0x08
  · rw [store_full (Or.inr (Or.inl back)), Editor.put, if_pos back, back]
    exact h.erase
  · rw [erase_other back]
    rw [Editor.put, if_neg back] at kept ⊢
    by_cases zero : c = 0
    · rw [store_full (Or.inl zero), if_pos zero]
      exact h
    · rw [if_neg zero] at kept ⊢
      by_cases room : line.length < 127
      · rw [if_pos room] at kept ⊢
        rw [store, if_pos ⟨zero, by omega, back⟩, length]
        exact ⟨h.status, by simp, h.holds.push c, kept⟩
      · rw [store_full (Or.inr (Or.inr (by omega))), if_neg room]
        exact h

theorem Edits.enter_holds (h : Edits k status line) :
    Holds (typed 0x0A k).buffer (line ++ [0x0A]) := by
  have short := h.line.short
  have pushed := h.holds.push 0x0A
  rw [typed, erase_other (by decide), enter, if_pos rfl]
  rcases Nat.lt_or_ge line.length 127 with room | full
  · have stored : (0x0A : Byte) ≠ 0 ∧ k.index < 127 ∧ (0x0A : Byte) ≠ 0x08 :=
      ⟨by decide, by rw [h.index]; exact room, by decide⟩
    rw [store, if_pos stored, h.index]
    -- a line of 126 characters gets a second newline, behind the first
    split
    · rename_i last
      refine pushed.update ?_ _
      simp
    · exact pushed
  · have last : k.index = 127 := by rw [h.index]; omega
    rw [store_full (Or.inr (Or.inr (by omega))), if_pos last, h.index]
    exact pushed

theorem Edits.takeLine_enter (h : Edits k status line) :
    takeLine (typed 0x0A k) = Editor.delivered line := by
  have short := h.line.short
  have holds := h.enter_holds
  obtain ⟨front, last⟩ := holds_append.mp holds
  rw [holds_singleton, Nat.add_zero] at last
  have found : newlineIndex (typed 0x0A k) = line.length :=
    newlineIndex_eq (by omega) (fun j hj => (h.line.text _ (front.at hj)).2) fun e => e.2 last
  have live : ∀ b ∈ line ++ [0x0A], b ≠ 0 := by
    intro b hb
    rcases List.mem_append.mp hb with old | new
    · exact (h.line.text b old).1
    · rw [List.mem_singleton.mp new]
      decide
  have copied := strncpy_holds holds live
  rw [List.length_append, List.length_singleton] at copied
  rw [takeLine, found, copied, Editor.delivered]

end Editing

section Typing

variable {p : Keyboard × List Line} {e : Editor}

/-- The driver with its lines taken at once, against the editor. -/
structure Follows (p : Keyboard × List Line) (e : Editor) : Prop where
  edits : Edits p.1 e.status e.line
  flag : p.1.enterpress = false
  lines : p.2 = e.finished.map Editor.delivered

theorem Follows.press (h : Follows p e) (scancode : Byte) :
    Follows (typeKey p scancode) (e.press scancode) := by
  have edits := h.edits
  have complete := handler_enterpress scancode h.flag
  rw [← typedChar_enter p.1.keyStatus] at complete
  cases ht : typedChar p.1.keyStatus scancode with
  | none =>
    have down : ¬ (p.1.handler scancode).enterpress = true := by simp [complete, ht]
    rw [typeKey, if_neg down, handler_none ht]
    rw [edits.status] at ht
    simp only [Editor.press, ht]
    exact ⟨⟨by rw [edits.status], edits.index, edits.holds, edits.line⟩, h.flag, h.lines⟩
  | some c =>
    have typed_ := handler_some ht
    rw [ht, Option.some_inj] at complete
    rw [edits.status] at ht
    by_cases enter : c = 0x0A
    · rw [typeKey, if_pos (complete.mpr enter), typed_, enter, edits.takeLine_enter]
      simp only [Editor.press, ht, if_pos enter]
      have empty : IsLine [] := ⟨by simp, by simp⟩
      have status : (typed 0x0A p.1).keyStatus = e.status := by rw [typed_keyStatus, edits.status]
      exact ⟨⟨status, typed_enter_index p.1, fun i b hb => by simp at hb, empty⟩, rfl,
        by simp [h.lines]⟩
    · rw [typeKey, if_neg (mt complete.mp enter), typed_]
      simp only [Editor.press, ht, if_neg enter]
      refine ⟨edits.typed_other enter, ?_, h.lines⟩
      rw [Reader.typed_other enter, store_enterpress, erase_enterpress, h.flag]

theorem Follows.foldl (h : Follows p e) (scancodes : List Byte) :
    Follows (scancodes.foldl typeKey p) (scancodes.foldl Editor.press e) := by
  induction scancodes generalizing p e with
  | nil => exact h
  | cons scancode scancodes ih => exact ih (h.press scancode)

end Typing

section Discipline

variable {k : Keyboard} {s s' : Session}

/-- A key arrives only at a read that waits for one. -/
def Awaited : Act → Session → Prop
  | .key _, s => s.phase = .waiting ∧ s.keyboard.enterpress = false
  | _, _ => True

theorem Awaited.orderly {acts : List Act} (h : Along act Awaited acts s) :
    Along act Orderly acts s := by
  induction acts generalizing s with
  | nil => trivial
  | cons a acts ih =>
    refine ⟨?_, fun s₁ hs => ih (h.2 s₁ hs)⟩
    cases a with
    | key scancode => exact fun up => absurd (h.1.2.symm.trans up) (by decide)
    | read => trivial
    | step => trivial

def InHand (s : Session) : Prop :=
  s.keyboard.enterpress = true →
    s.keyboard.index = 0 ∧ s.phase ≠ .idle ∧ ∀ n done, s.phase ≠ .leaving n done

theorem advance_inHand (h : InHand s) (hs : advance s = some s') : InHand s' := by
  intro up
  cases hp : s.phase with
  | idle => simp [advance, hp] at hs
  | waiting =>
    simp only [advance, hp, Option.some_inj] at hs
    subst hs
    have up : s.keyboard.enterpress = true := up
    simp [(h up).1, up]
  | leaving n done =>
    simp only [advance, hp, Option.some_inj] at hs
    subst hs
    exact absurd hp ((h up).2.2 n done)
  | clearing n done j =>
    simp only [advance, hp] at hs
    split at hs
    · rw [← Option.some_inj.mp hs] at up ⊢
      exact ⟨(h up).1, by simp, by simp⟩
    · rw [← Option.some_inj.mp hs] at up
      simp at up
  | _ =>
    simp only [advance, hp] at hs
    split at hs
    all_goals
      rw [← Option.some_inj.mp hs] at up ⊢
      exact ⟨(h up).1, by simp, by simp⟩

theorem act_inHand (a : Act) (s s' : Session) (h : InHand s) (awaited : Awaited a s)
    (hs : act a s = some s') : InHand s' := by
  cases a with
  | key scancode =>
    rw [act, Option.some_inj] at hs
    subst hs
    intro up
    have enter := (handler_enterpress scancode awaited.2).mp up
    rw [← typedChar_enter s.keyboard.keyStatus] at enter
    have index : (s.keyboard.handler scancode).index = 0 := by
      rw [handler_some enter, typed_enter_index]
    exact ⟨index, by simp [awaited.1], by simp [awaited.1]⟩
  | read =>
    rw [act, Option.ite_none_right_eq_some, Option.some_inj] at hs
    rw [← hs.2]
    intro up
    exact absurd hs.1 (h up).2.1
  | step => exact advance_inHand h hs

theorem Tracks.map_buffer {p : Keyboard × List Line} {e : Editor} (t : Tracks s p) (f : Follows p e)
    (hand : InHand s) : (List.range s.keyboard.index).map s.keyboard.buffer = e.line := by
  have line := f.edits.holds.map_range
  rw [← f.edits.index] at line
  cases flag : s.keyboard.enterpress with
  | false =>
    rw [t.settled flag] at line
    exact line
  | true =>
    rw [t.pending flag] at line
    rw [← line]
    simp [finish, (hand flag).1]

theorem Tracks.length_pending {p : Keyboard × List Line} (t : Tracks s p) (hand : InHand s)
    (flag : s.keyboard.enterpress = true) : p.2.length = s.log.length + 1 := by
  obtain ⟨-, notIdle, notLeaving⟩ := hand flag
  rw [t.pending flag]
  cases hp : s.phase with
  | idle => exact absurd hp notIdle
  | leaving n done => exact absurd hp (notLeaving n done)
  | _ => simp [Phase.results, Phase.owed]

theorem Tracks.deliver {p : Keyboard × List Line} (t : Tracks s p) (hand : InHand s) :
    ∃ N s', Lib.Runs.run act (List.replicate N .step) s = some s' ∧ s'.log = p.2 := by
  cases flag : s.keyboard.enterpress with
  | true =>
    obtain ⟨N, s', hrun, t', -, done⟩ := t.finishes ⟨(hand flag).2.1, fun _ => flag⟩
    have all := t'.log_eq
    rw [done, ← t.length_pending hand flag, List.take_length] at all
    exact ⟨N, s', hrun, all⟩
  | false =>
    -- only a read at its `return` has a line that is not in the log yet
    have lines := t.settled flag
    cases hp : s.phase with
    | clearing n done j =>
      have progress := t.progress
      rw [hp] at progress
      exact absurd (flag.symm.trans progress.1) (by decide)
    | leaving n done =>
      refine ⟨1, { s with phase := .idle, log := s.log ++ [result n done] }, ?_, ?_⟩
      · simp [run_cons, act, Reader.advance, hp]
      · rw [lines, hp]
        rfl
    | _ => exact ⟨0, s, rfl, by simp [lines, hp, Phase.results]⟩

/-- Keys that arrive only while a read waits make the driver a line editor. The buffer
up to its index is the line, and the k-th read returns the k-th finished line. -/
theorem line_discipline (index : k.index = 0) (flag : k.enterpress = false) {acts : List Act}
    (awaited : Along act Awaited acts (start k)) (h : run act acts (start k) = some s) :
    ∃ e, e = (keysOf acts).foldl Editor.press ⟨k.keyStatus, [], []⟩ ∧
      (List.range s.keyboard.index).map s.keyboard.buffer = e.line ∧ e.line.length ≤ 127 ∧
      s.log = (e.finished.map Editor.delivered).take s.log.length ∧
      ∃ N t, run act (List.replicate N .step) s = some t ∧
        t.log = e.finished.map Editor.delivered := by
  have tracks := (start_tracks flag).run (Awaited.orderly awaited) h
  have begin_ : Follows (k, []) ⟨k.keyStatus, [], []⟩ :=
    ⟨⟨rfl, index, fun i b hb => by simp at hb, ⟨by simp, by simp⟩⟩, flag, rfl⟩
  have follows := begin_.foldl (keysOf acts)
  have hand : InHand s := invariant_along act_inHand awaited h
    fun up => absurd (flag.symm.trans up) (by decide)
  obtain ⟨N, t, hrun, log⟩ := tracks.deliver hand
  have logged := tracks.log_eq
  rw [follows.lines] at log logged
  exact ⟨_, rfl, tracks.map_buffer follows hand, follows.edits.line.short, logged, N, t, hrun, log⟩

theorem line_discipline_sample :
    ∃ s, run act [.read, .key 0x1E, .key 0x30, .key 0x0E, .key 0x1C] (start Keyboard.init) =
        some s ∧
      ∃ N t, run act (List.replicate N .step) s = some t ∧ t.log = [(2, [0x61, 0x0A])] := by
  have awaited : Along act Awaited [.read, .key 0x1E, .key 0x30, .key 0x0E, .key 0x1C]
      (start Keyboard.init) :=
    along_cons trivial rfl (along_cons ⟨rfl, rfl⟩ rfl (along_cons ⟨rfl, rfl⟩ rfl
      (along_cons ⟨rfl, rfl⟩ rfl (along_cons ⟨rfl, rfl⟩ rfl trivial))))
  obtain ⟨e, he, -, -, -, N, t, hrun, log⟩ := line_discipline rfl rfl awaited rfl
  refine ⟨_, rfl, N, t, hrun, ?_⟩
  rw [log, he]
  decide +kernel

end Discipline

end LumettaOS.Reader
