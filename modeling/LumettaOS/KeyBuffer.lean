import LumettaOS.Lib.Logged
import LumettaOS.Cursor
import LumettaOS.Lines

/-! `keyboard_handler` with its accesses to the line buffer and its calls to the
screen, in the order the source has them. The three conditionals behind each other
read the index that the one before has changed. -/

namespace LumettaOS.Keyboard
open Lib Lib.Logged Lib.Runs Reader

inductive Touch where
  | load (i : Nat)
  | store (i : Nat)
  | screen (op : Console.Op)
  deriving DecidableEq

def Touch.InBuffer : Touch → Prop
  | .load i => i < 128
  | .store i => i < 128
  | .screen _ => True

def screenOps (log : List Touch) : List Console.Op :=
  log.filterMap fun a => match a with
    | .screen op => some op
    | _ => none

def onScreen (op : Console.Op) (t : Console) : Logged Touch Console :=
  touch (.screen op) (some (op.apply t))

def loadByte (i : Nat) (k : Keyboard) : Logged Touch Byte := touch (.load i) (some (k.buffer i))

/-- `keyboard_buffer[keyboard_buffer_index] = c` and `keyboard_buffer_index++`. -/
def appendByte (c : Byte) (k : Keyboard) : Logged Touch Keyboard :=
  touch (.store k.index)
    (some { k with buffer := Function.update k.buffer k.index c, index := k.index + 1 })

def eraseLogged (c : Byte) (k : Keyboard) (t : Console) : Logged Touch (Keyboard × Console) :=
  if c = 0x08 ∧ k.index ≠ 0 then do
    let last ← loadByte (k.index - 1) k
    if last = 0x09 then do
      let t ← onScreen .backspace t
      let t ← onScreen .backspace t
      let t ← onScreen .backspace t
      let t ← onScreen .backspace t
      return ({ k with index := k.index - 1 }, t)
    else do
      let t ← onScreen (.putc c) t
      return ({ k with index := k.index - 1 }, t)
  else if k.index < 127 ∧ c ≠ 0x08 then do
    let t ← onScreen (.putc c) t
    return (k, t)
  else return (k, t)

def storeLogged (c : Byte) (k : Keyboard) : Logged Touch Keyboard :=
  if c ≠ 0 ∧ k.index < 127 ∧ c ≠ 0x08 then appendByte c k else return k

/-- The edge case inside the third conditional. -/
def lastLogged (c : Byte) (k : Keyboard) (t : Console) : Logged Touch (Keyboard × Console) :=
  if k.index = 127 then do
    let k ← appendByte c k
    let t ← onScreen (.putc c) t
    return (k, t)
  else return (k, t)

def enterLogged (c : Byte) (k : Keyboard) (t : Console) : Logged Touch (Keyboard × Console) :=
  if c = 0x0A then do
    let kt ← lastLogged c k t
    return ({ kt.1 with enterpress := true, index := 0 }, kt.2)
  else return (k, t)

def typedLogged (c : Byte) (k : Keyboard) (t : Console) : Logged Touch (Keyboard × Console) := do
  let kt ← eraseLogged c k t
  let k ← storeLogged c kt.1
  enterLogged c k kt.2

def handlerLogged (scancode : Byte) (k : Keyboard) (t : Console) :
    Logged Touch (Keyboard × Console) :=
  match typedChar k.keyStatus scancode with
  | some c => typedLogged c k t
  | none =>
    let k' := { k with keyStatus := nextStatus k.keyStatus scancode }
    if scancode &&& 0x80 = 0 ∧ pressed k.keyStatus scancode = none then do
      let t ← onScreen .clear t
      return (k', t)
    else return (k', t)

section Values

variable (c : Byte) (k : Keyboard) (t : Console)

def echoFirst : Console :=
  if c = 0x08 ∧ k.index ≠ 0 then
    if k.buffer (k.index - 1) = 0x09 then
      t.backspacePressed.backspacePressed.backspacePressed.backspacePressed
    else t.putcTerm c
  else if k.index < 127 ∧ c ≠ 0x08 then t.putcTerm c
  else t

theorem eraseLogged_value : (eraseLogged c k t).value = some (erase c k, echoFirst c k t) := by
  unfold eraseLogged erase echoFirst
  by_cases back : c = 0x08 ∧ k.index ≠ 0
  · simp only [if_pos back, bind_value, loadByte, touch_value, Option.bind_some]
    split
    · rfl
    · rfl
  · simp only [if_neg back]
    split
    · rfl
    · rfl

theorem storeLogged_value : (storeLogged c k).value = some (store c k) := by
  unfold storeLogged store
  split
  · rfl
  · rfl

theorem enterLogged_value :
    (enterLogged c k t).value =
      some (enter c k, if c = 0x0A ∧ k.index = 127 then t.putcTerm c else t) := by
  unfold enterLogged enter lastLogged
  by_cases newline : c = 0x0A
  · by_cases last : k.index = 127
    · simp only [if_pos newline, if_pos last, if_pos (And.intro newline last)]
      rfl
    · simp only [if_pos newline, if_neg last, if_neg fun e : _ ∧ _ => last e.2]
      rfl
  · simp only [if_neg newline, if_neg fun e : _ ∧ _ => newline e.1]
    rfl

theorem typedLogged_value :
    (typedLogged c k t).value = some (typed c k, echoTyped c k t) := by
  simp only [typedLogged, bind_value, eraseLogged_value, storeLogged_value, enterLogged_value,
    Option.bind_some]
  rfl

theorem handlerLogged_value (scancode : Byte) :
    (handlerLogged scancode k t).value = some (k.handler scancode, k.echo scancode t) := by
  unfold handlerLogged handler echo
  cases typedChar k.keyStatus scancode with
  | some c => exact typedLogged_value c k t
  | none =>
    dsimp only
    split
    · rfl
    · rfl

end Values

section Logs

variable (c : Byte) (k : Keyboard) (t : Console)

theorem eraseLogged_log : (eraseLogged c k t).log =
    if c = 0x08 ∧ k.index ≠ 0 then
      .load (k.index - 1) :: if k.buffer (k.index - 1) = 0x09
        then List.replicate 4 (.screen .backspace) else [.screen (.putc c)]
    else if k.index < 127 ∧ c ≠ 0x08 then [.screen (.putc c)]
    else [] := by
  unfold eraseLogged
  by_cases back : c = 0x08 ∧ k.index ≠ 0
  · simp only [if_pos back, loadByte, touch_bind_log]
    split
    · rfl
    · rfl
  · simp only [if_neg back]
    split
    · rfl
    · rfl

theorem storeLogged_log : (storeLogged c k).log =
    if c ≠ 0 ∧ k.index < 127 ∧ c ≠ 0x08 then [.store k.index] else [] := by
  unfold storeLogged
  split
  · rfl
  · rfl

theorem enterLogged_log : (enterLogged c k t).log =
    if c = 0x0A ∧ k.index = 127 then [.store k.index, .screen (.putc c)] else [] := by
  unfold enterLogged
  by_cases newline : c = 0x0A
  · rw [if_pos newline, bind_pure_log, lastLogged]
    by_cases last : k.index = 127
    · rw [if_pos last, if_pos ⟨newline, last⟩]
      rfl
    · rw [if_neg last, if_neg fun e => last e.2]
      rfl
  · rw [if_neg newline, if_neg fun e => newline e.1]
    rfl

theorem typedLogged_log : (typedLogged c k t).log = (eraseLogged c k t).log ++
    ((storeLogged c (erase c k)).log ++
      (enterLogged c (store c (erase c k)) (echoFirst c k t)).log) := by
  rw [typedLogged, bind_log (eraseLogged_value c k t), bind_log (storeLogged_value c _)]

end Logs

section Bounds

variable {k : Keyboard}

theorem erase_index_le (h : k.index ≤ 127) (c : Byte) : (erase c k).index ≤ 127 := by
  unfold erase
  split
  · dsimp only
    omega
  · exact h

theorem store_index_le (h : k.index ≤ 127) (c : Byte) : (store c k).index ≤ 127 := by
  unfold store
  split
  · dsimp only
    omega
  · exact h

theorem handler_index_le (h : k.index ≤ 127) (scancode : Byte) :
    (k.handler scancode).index ≤ 127 := by
  cases ht : typedChar k.keyStatus scancode with
  | none =>
    rw [handler_none ht]
    exact h
  | some c =>
    rw [handler_some ht, typed, enter]
    split
    · exact Nat.zero_le 127
    · exact store_index_le (erase_index_le h c) c

/-- Up to index 127 a character is read back from, and stored to, the 128 bytes only:
the last of them by the edge case alone. -/
theorem typedLogged_inBuffer (h : k.index ≤ 127) (c : Byte) (t : Console) :
    ∀ a ∈ (typedLogged c k t).log, a.InBuffer := by
  have back : k.index - 1 < 128 := by omega
  simp only [typedLogged_log, eraseLogged_log, storeLogged_log, enterLogged_log]
  intro a ha
  rcases List.mem_append.mp ha with ha | ha
  · split_ifs at ha
    · simp only [List.mem_cons, List.mem_replicate] at ha
      rcases ha with e | e
      · exact e ▸ back
      · exact e.2 ▸ trivial
    · simp only [List.mem_cons, List.not_mem_nil, or_false] at ha
      rcases ha with e | e
      · exact e ▸ back
      · exact e ▸ trivial
    · exact List.mem_singleton.mp ha ▸ trivial
    · simp at ha
  · rcases List.mem_append.mp ha with ha | ha
    · split_ifs at ha with stored
      · exact List.mem_singleton.mp ha ▸ (show (erase c k).index < 128 by omega)
      · simp at ha
    · split_ifs at ha with last
      · simp only [List.mem_cons, List.not_mem_nil, or_false] at ha
        rcases ha with e | e
        · exact e ▸ (show (store c (erase c k)).index < 128 by omega)
        · exact e ▸ trivial
      · simp at ha

theorem handlerLogged_inBuffer (h : k.index ≤ 127) (scancode : Byte) (t : Console) :
    ∀ a ∈ (handlerLogged scancode k t).log, a.InBuffer := by
  unfold handlerLogged
  cases typedChar k.keyStatus scancode with
  | some c => exact typedLogged_inBuffer h c t
  | none =>
    intro a ha
    dsimp only at ha
    split at ha
    · rw [bind_pure_log] at ha
      exact List.mem_singleton.mp ha ▸ trivial
    · simp at ha

theorem act_index_le (a : Act) (s s' : Session) (h : s.keyboard.index ≤ 127)
    (hs : act a s = some s') : s'.keyboard.index ≤ 127 := by
  cases a with
  | key scancode =>
    rw [act, Option.some_inj] at hs
    rw [← hs]
    exact handler_index_le h scancode
  | read =>
    rw [act, Option.ite_none_right_eq_some] at hs
    rw [← Option.some_inj.mp hs.2]
    exact h
  | step =>
    rw [act, advance] at hs
    split at hs
    · simp at hs
    all_goals
      try split at hs
      all_goals
        rw [← Option.some_inj.mp hs]
        exact h

def HandledInside (a : Act) (s : Session) : Prop :=
  ∀ scancode, a = .key scancode → (s.keyboard.handler scancode).index ≤ 127 ∧
    ∀ t, ∀ b ∈ (handlerLogged scancode s.keyboard t).log, b.InBuffer

/-- Whatever keys come, before, between and during reads, the buffer is accessed inside
its 128 bytes and the index is back below 128 after each of them. -/
theorem buffer_bounds (acts : List Act) :
    Along act HandledInside acts (Reader.start Keyboard.init) := by
  refine along_of_invariant (I := fun s => s.keyboard.index ≤ 127) (fun a s h scancode _ => ?_)
    act_index_le acts (Nat.zero_le 127)
  exact ⟨handler_index_le h scancode, handlerLogged_inBuffer h scancode⟩

end Bounds

section Enter

variable {k : Keyboard}

/-- What Enter should do: one newline behind the line, in the buffer and on the screen,
and the line is complete. -/
structure EndsLine (k : Keyboard) (t : Console) : Prop where
  buffer : (k.handler 0x1C).buffer = Function.update k.buffer k.index 0x0A
  index : (k.handler 0x1C).index = 0
  flag : (k.handler 0x1C).enterpress = true
  echo : screenOps (handlerLogged 0x1C k t).log = [.putc 0x0A]

theorem handler_enter (k : Keyboard) : k.handler 0x1C = enter 0x0A (store 0x0A k) := by
  rw [handler_some ((typedChar_enter k.keyStatus 0x1C).mpr rfl), typed, erase_other (by decide)]

theorem store_newline (room : k.index < 127) : store 0x0A k =
    { k with buffer := Function.update k.buffer k.index 0x0A, index := k.index + 1 } :=
  if_pos ⟨by decide, room, by decide⟩

theorem handlerLogged_enter (k : Keyboard) (t : Console) :
    (handlerLogged 0x1C k t).log =
      (if k.index < 127 then [.screen (.putc 0x0A), .store k.index] else []) ++
      if (store 0x0A k).index = 127 then [.store 127, .screen (.putc 0x0A)] else [] := by
  have log : (handlerLogged 0x1C k t).log = (typedLogged 0x0A k t).log := by
    rw [handlerLogged, (typedChar_enter k.keyStatus 0x1C).mpr rfl]
  have back : ¬ ((0x0A : Byte) = 0x08 ∧ k.index ≠ 0) := fun e => absurd e.1 (by decide)
  have live : (0x0A : Byte) ≠ 0 ∧ (0x0A : Byte) ≠ 0x08 := by decide
  rw [log, typedLogged_log, eraseLogged_log, storeLogged_log, enterLogged_log,
    erase_other live.2, if_neg back]
  simp only [live.1, live.2, true_and, and_true, ne_eq, not_false_eq_true]
  by_cases room : k.index < 127
  · by_cases last : (store 0x0A k).index = 127
    · simp only [if_pos room, last, List.cons_append, List.nil_append]
    · simp only [if_pos room, if_neg last, List.cons_append, List.nil_append]
  · by_cases last : (store 0x0A k).index = 127
    · simp only [if_neg room, last, List.nil_append]
    · simp only [if_neg room, if_neg last, List.nil_append]

theorem handler_enter_index (k : Keyboard) : (k.handler 0x1C).index = 0 := by
  rw [handler_enter, enter, if_pos rfl]

theorem handler_enter_enterpress (k : Keyboard) : (k.handler 0x1C).enterpress = true := by
  rw [handler_enter, enter, if_pos rfl]

theorem endsLine_short (h : k.index < 126) (t : Console) : EndsLine k t where
  buffer := by
    have next : ¬ k.index + 1 = 127 := by omega
    rw [handler_enter, store_newline (by omega), enter, if_pos rfl]
    simp only [if_neg next]
  index := handler_enter_index k
  flag := handler_enter_enterpress k
  echo := by
    have room : k.index < 127 := by omega
    have next : ¬ k.index + 1 = 127 := by omega
    rw [handlerLogged_enter, store_newline room, if_pos room, if_neg next]
    rfl

theorem endsLine_full (h : k.index = 127) (t : Console) : EndsLine k t where
  buffer := by
    rw [handler_enter, store_full (Or.inr (Or.inr (by omega))), enter, if_pos rfl]
    simp only [if_pos h]
  index := handler_enter_index k
  flag := handler_enter_enterpress k
  echo := by
    have full : ¬ k.index < 127 := by omega
    rw [handlerLogged_enter, store_full (Or.inr (Or.inr (by omega))), if_neg full, if_pos h]
    rfl

/-- With 126 characters both are: the general path moves the index to where the special
case looks for it. -/
theorem enter_twice (h : k.index = 126) (t : Console) :
    (handlerLogged 0x1C k t).log = [.screen (.putc 0x0A), .store k.index, .store 127,
      .screen (.putc 0x0A)] := by
  have room : k.index < 127 := by omega
  have next : k.index + 1 = 127 := by omega
  rw [handlerLogged_enter, store_newline room, if_pos room, if_pos next]
  rfl

theorem endsLine_iff (h : k.index ≤ 127) (t : Console) : EndsLine k t ↔ k.index ≠ 126 := by
  refine ⟨fun ends twice => ?_, fun other => ?_⟩
  · have echo := ends.echo
    rw [enter_twice twice] at echo
    exact absurd (congrArg List.length echo) (by simp [screenOps])
  · by_cases full : k.index = 127
    · exact endsLine_full full t
    · exact endsLine_short (by omega) t

/-- In every state that keys and reads lead to, the line has at most 127 characters,
and Enter ends it with one newline unless it has 126. -/
theorem one_newline_iff {acts : List Act} {s : Session}
    (h : run act acts (Reader.start Keyboard.init) = some s) (t : Console) :
    s.keyboard.index ≤ 127 ∧ (EndsLine s.keyboard t ↔ s.keyboard.index ≠ 126) := by
  have bound : s.keyboard.index ≤ 127 :=
    invariant (I := fun s => s.keyboard.index ≤ 127) act_index_le h (Nat.zero_le 127)
  exact ⟨bound, endsLine_iff bound t⟩

theorem one_newline_iff_sample :
    ∃ s, run act [.key 0x1E, .key 0x30] (Reader.start Keyboard.init) = some s ∧
      EndsLine s.keyboard ⟨fun _ => 0, 0, 0⟩ := by
  have typed_ : ∃ s, run act [.key 0x1E, .key 0x30] (Reader.start Keyboard.init) = some s ∧
      s.keyboard.index = 2 := ⟨_, rfl, by decide⟩
  obtain ⟨s, reached, two⟩ := typed_
  exact ⟨s, reached, (one_newline_iff reached _).2.mpr (by omega)⟩

/-- After 126 letters Enter is echoed twice and stored in two places. -/
theorem newline_doubled :
    ∃ s, run act (List.replicate 126 (.key 0x1E)) (Reader.start Keyboard.init) = some s ∧
      s.keyboard.index = 126 ∧
      (s.keyboard.handler 0x1C).buffer 127 = 0x0A ∧ s.keyboard.buffer 127 = 0 ∧
      ¬ EndsLine s.keyboard ⟨fun _ => 0, 0, 0⟩ := by
  have seen : (run act (List.replicate 126 (.key 0x1E)) (Reader.start Keyboard.init)).map
      (fun s => (s.keyboard.index, (s.keyboard.handler 0x1C).buffer 127,
        s.keyboard.buffer 127)) = some (126, 0x0A, 0) := by decide +kernel
  obtain ⟨s, reached, values⟩ := Option.map_eq_some_iff.mp seen
  simp only [Prod.mk.injEq] at values
  refine ⟨s, reached, values.1, values.2.1, values.2.2, fun ends => ?_⟩
  exact (endsLine_iff (by omega) _).mp ends values.1

end Enter

end LumettaOS.Keyboard
