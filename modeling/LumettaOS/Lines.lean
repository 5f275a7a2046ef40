import LumettaOS.Reader

/-! Keys against reads. With every line taken out of the buffer the moment it is
complete, the scancodes alone decide which lines there are. The reader keeps to
these lines as long as no key edits a complete line before it has been taken. -/

namespace LumettaOS.Reader
open Lib.Runs Lib.Scan CString Keyboard Terminal

theorem lower_enter : ∀ scancode, lower scancode = 0x0A → scancode = 0x1C := by decide

theorem upper_enter : ∀ scancode, upper scancode = 0x0A → scancode = 0x1C := by decide

theorem handleStandardKey_cases (status scancode : Byte) :
    handleStandardKey status scancode = lower scancode ∨
      handleStandardKey status scancode = upper scancode := by
  rw [handleStandardKey]
  split_ifs <;> simp

theorem typedChar_cases {status scancode c : Byte} (h : typedChar status scancode = some c) :
    c = lower scancode ∨ c = upper scancode := by
  rw [typedChar] at h
  split at h
  · simp at h
  · split at h
    · simp at h
    · rw [Option.ite_none_left_eq_some, Option.some_inj] at h
      rw [← h.2]
      exact handleStandardKey_cases status scancode

theorem typedChar_enter (status scancode : Byte) :
    typedChar status scancode = some 0x0A ↔ scancode = 0x1C := by
  refine ⟨fun h => ?_, fun h => ?_⟩
  · rcases typedChar_cases h with e | e
    · exact lower_enter _ e.symm
    · exact upper_enter _ e.symm
  · have plain : pressed status 0x1C = none := by simp [pressed]
    have newline : handleStandardKey status 0x1C = 0x0A := by
      rcases handleStandardKey_cases status 0x1C with e | e
      · exact e.trans (by decide)
      · exact e.trans (by decide)
    have down : ¬ ((0x1C : Byte) &&& 0x80 ≠ 0) := by decide
    have noCtrlL : ¬ (status &&& 0x04 ≠ 0 ∧ (0x1C : Byte) = 0x26) := fun e => by
      have no : (0x1C : Byte) ≠ 0x26 := by decide
      exact no e.2
    rw [h, typedChar, if_neg down, plain]
    simp only [if_neg noCtrlL, newline]

abbrev Line := Word × List Byte

/-- One key, with a line taken as soon as it is complete. -/
def typeKey (p : Keyboard × List Line) (scancode : Byte) : Keyboard × List Line :=
  if (p.1.handler scancode).enterpress then
    (consume (p.1.handler scancode), p.2 ++ [takeLine (p.1.handler scancode)])
  else (p.1.handler scancode, p.2)

section Handler

variable {k : Keyboard} {scancode c : Byte}

theorem handler_none (h : typedChar k.keyStatus scancode = none) :
    k.handler scancode = { k with keyStatus := nextStatus k.keyStatus scancode } := by
  rw [handler, h]

theorem handler_some (h : typedChar k.keyStatus scancode = some c) :
    k.handler scancode = typed c k := by
  rw [handler, h]

theorem typed_enter (k : Keyboard) : (typed 0x0A k).enterpress = true := by
  simp [typed, enter]

theorem typed_other (h : c ≠ 0x0A) (k : Keyboard) : typed c k = store c (erase c k) := by
  rw [typed, enter, if_neg h]

@[simp] theorem store_enterpress (c : Byte) (k : Keyboard) :
    (store c k).enterpress = k.enterpress := by
  rw [store]
  split <;> rfl

@[simp] theorem erase_enterpress (c : Byte) (k : Keyboard) :
    (erase c k).enterpress = k.enterpress := by
  rw [erase]
  split <;> rfl

/-- What is left of a keyboard once the read has cleared the buffer from `j` on. -/
def finish (j : Nat) (k : Keyboard) : Keyboard :=
  { k with
    buffer := fun i => if j ≤ i ∧ i < 128 then 0 else k.buffer i
    enterpress := false }

theorem finish_zero (k : Keyboard) : finish 0 k = consume k := by
  simp [finish, consume]

theorem finish_clear {j : Nat} (hj : j < 128) (k : Keyboard) :
    finish (j + 1) { k with buffer := Function.update k.buffer j 0 } = finish j k := by
  simp only [finish, Keyboard.mk.injEq, and_true]
  funext i
  by_cases e : i = j
  · simp [e, hj]
  · by_cases later : j + 1 ≤ i ∧ i < 128
    · rw [if_pos later, if_pos (by omega)]
    · rw [if_neg later, if_neg (by omega), Function.update_of_ne e]

theorem finish_end (k : Keyboard) : finish 128 k = { k with enterpress := false } := by
  have none_ : ∀ i, ¬ (128 ≤ i ∧ i < 128) := fun i => by omega
  simp [finish, none_]

theorem finish_erase (j : Nat) (c : Byte) (k : Keyboard) :
    finish j (erase c k) = erase c (finish j k) := by
  by_cases back : c = 0x08 ∧ k.index ≠ 0
  · have back' : c = 0x08 ∧ (finish j k).index ≠ 0 := back
    rw [erase, erase, if_pos back, if_pos back']
    rfl
  · have back' : ¬ (c = 0x08 ∧ (finish j k).index ≠ 0) := back
    rw [erase, erase, if_neg back, if_neg back']

theorem erase_other (h : c ≠ 0x08) (k : Keyboard) : erase c k = k :=
  if_neg fun e => h e.1

theorem store_full (h : c = 0 ∨ c = 0x08 ∨ 127 ≤ k.index) : store c k = k := by
  rw [store, if_neg]
  rintro ⟨live, room, other⟩
  rcases h with e | e | e
  · exact live e
  · exact other e
  · omega

theorem finish_store {j : Nat} (h : c = 0 ∨ c = 0x08 ∨ k.index < j ∨ 127 ≤ k.index) :
    finish j (store c k) = store c (finish j k) := by
  by_cases stored : c ≠ 0 ∧ k.index < 127 ∧ c ≠ 0x08
  · have inside : k.index < j := by
      rcases h with e | e | e | e
      · exact absurd e stored.1
      · exact absurd e stored.2.2
      · exact e
      · omega
    have stored' : c ≠ 0 ∧ (finish j k).index < 127 ∧ c ≠ 0x08 := stored
    rw [store, store, if_pos stored, if_pos stored']
    simp only [finish, Keyboard.mk.injEq, and_true]
    funext i
    by_cases e : i = k.index
    · rw [e, if_neg (by omega), Function.update_self, Function.update_self]
    · rw [Function.update_of_ne e, Function.update_of_ne e]
  · have stored' : ¬ (c ≠ 0 ∧ (finish j k).index < 127 ∧ c ≠ 0x08) := stored
    rw [store, store, if_neg stored, if_neg stored']

theorem Spares.ne_enter {j : Nat} (h : Spares j k scancode)
    (ht : typedChar k.keyStatus scancode = some c) : c ≠ 0x0A := by
  rcases h c ht with e | e | e
  · rw [e]
    decide
  · rw [e]
    decide
  · exact e.1

theorem Spares.room {j : Nat} (h : Spares j k scancode)
    (ht : typedChar k.keyStatus scancode = some c) :
    c = 0 ∨ c = 0x08 ∨ (erase c k).index < j ∨ 127 ≤ (erase c k).index := by
  by_cases back : c = 0x08
  · exact Or.inr (Or.inl back)
  · rw [erase_other back]
    rcases h c ht with e | e | e
    · exact Or.inl e
    · exact Or.inr (Or.inl e)
    · exact Or.inr (Or.inr e.2)

theorem finish_handler {j : Nat} (h : Spares j k scancode) :
    finish j (k.handler scancode) = (finish j k).handler scancode := by
  cases ht : typedChar k.keyStatus scancode with
  | none =>
    have ht' : typedChar (finish j k).keyStatus scancode = none := ht
    rw [handler_none ht, handler_none ht']
    rfl
  | some c =>
    have ht' : typedChar (finish j k).keyStatus scancode = some c := ht
    have other := h.ne_enter ht
    rw [handler_some ht, handler_some ht', typed_other other, typed_other other,
      finish_store (h.room ht), finish_erase]

theorem Spares.enterpress {j : Nat} (h : Spares j k scancode) :
    (k.handler scancode).enterpress = k.enterpress := by
  cases ht : typedChar k.keyStatus scancode with
  | none => rw [handler_none ht]
  | some c =>
    rw [handler_some ht, typed_other (h.ne_enter ht), store_enterpress, erase_enterpress]

theorem handler_buffer (h : Spares 0 k scancode) :
    (k.handler scancode).buffer = k.buffer := by
  cases ht : typedChar k.keyStatus scancode with
  | none => rw [handler_none ht]
  | some c =>
    have back : (erase c k).buffer = k.buffer := by
      rw [erase]
      split <;> rfl
    have dropped : c = 0 ∨ c = 0x08 ∨ 127 ≤ (erase c k).index := by simpa using h.room ht
    rw [handler_some ht, typed_other (h.ne_enter ht), store_full dropped, back]

end Handler

def Phase.results : Phase → List Line
  | .clearing n done _ => [result n done]
  | .leaving n done => [result n done]
  | _ => []

def Phase.owed (k : Keyboard) : Phase → List Line
  | .clearing _ _ _ => []
  | _ => [takeLine k]

/-- What the read has found out by the point it is at. -/
def Progress (k : Keyboard) : Phase → Prop
  | .scanning i => k.enterpress = true ∧ i ≤ 128 ∧ ∀ j, j < i → k.buffer j ≠ 0x0A
  | .copying n done => k.enterpress = true ∧ n = newlineIndex k + 1 ∧ done.length ≤ n ∧
    done ++ strncpyFrom k.buffer (n - done.length) done.length = strncpy k.buffer n
  | .padding n done => k.enterpress = true ∧ n = newlineIndex k + 1 ∧ done.length ≤ n ∧
    done ++ List.replicate (n - done.length) 0 = strncpy k.buffer n
  | .clearing _ _ j => k.enterpress = true ∧ j ≤ 128
  | _ => True

/-- The session against the keyboard `p.1` and the lines `p.2` of the same keys with
every line taken at once. -/
structure Tracks (s : Session) (p : Keyboard × List Line) : Prop where
  settled : s.keyboard.enterpress = false → p = (s.keyboard, s.log ++ s.phase.results)
  pending : s.keyboard.enterpress = true →
    p = (finish s.phase.cleared s.keyboard, s.log ++ s.phase.results ++ s.phase.owed s.keyboard)
  progress : Progress s.keyboard s.phase

section Simulation

variable {s s' : Session} {p : Keyboard × List Line} {k k' : Keyboard}

theorem takeLine_congr (h : k'.buffer = k.buffer) : takeLine k' = takeLine k := by
  simp only [takeLine, newlineIndex, h]

theorem Progress.congr {ph : Phase} (h : Progress k ph) (flag : k'.enterpress = k.enterpress)
    (buffer : ph.cleared = 0 → k'.buffer = k.buffer) : Progress k' ph := by
  cases ph with
  | idle => trivial
  | waiting => trivial
  | leaving n done => trivial
  | clearing n done j => exact ⟨flag.trans h.1, h.2⟩
  | scanning i => simpa only [Progress, flag, buffer rfl] using h
  | copying n done => simpa only [Progress, newlineIndex, flag, buffer rfl] using h
  | padding n done => simpa only [Progress, newlineIndex, flag, buffer rfl] using h

theorem Progress.of_settled {ph : Phase} (h : Progress k ph) (flag : k.enterpress = false) :
    ph.cleared = 0 ∧ (∀ k', Progress k' ph) ∧ ∀ k', ph.owed k' = [takeLine k'] := by
  cases ph with
  | idle => exact ⟨rfl, fun _ => trivial, fun _ => rfl⟩
  | waiting => exact ⟨rfl, fun _ => trivial, fun _ => rfl⟩
  | leaving n done => exact ⟨rfl, fun _ => trivial, fun _ => rfl⟩
  | clearing n done j => exact absurd (flag.symm.trans h.1) (by decide)
  | scanning i => exact absurd (flag.symm.trans h.1) (by decide)
  | copying n done => exact absurd (flag.symm.trans h.1) (by decide)
  | padding n done => exact absurd (flag.symm.trans h.1) (by decide)

theorem owed_congr {ph : Phase} (buffer : ph.cleared = 0 → k'.buffer = k.buffer) :
    ph.owed k' = ph.owed k := by
  cases ph with
  | clearing n done j => rfl
  | _ => simp only [Phase.owed, takeLine_congr (buffer rfl)]

theorem Tracks.key_settled (t : Tracks s p) (flag : s.keyboard.enterpress = false)
    (scancode : Byte) :
    Tracks { s with keyboard := s.keyboard.handler scancode } (typeKey p scancode) := by
  obtain ⟨cleared, anywhere, owed⟩ := t.progress.of_settled flag
  rw [t.settled flag]
  cases complete : (s.keyboard.handler scancode).enterpress with
  | true =>
    refine ⟨fun h => absurd (h.symm.trans complete) (by decide), fun _ => ?_, anywhere _⟩
    simp only [typeKey, complete, if_true, cleared, finish_zero, owed]
  | false =>
    refine ⟨fun _ => ?_, fun h => absurd (complete.symm.trans h) (by decide), anywhere _⟩
    simp [typeKey, complete]

theorem Tracks.key_pending (t : Tracks s p) (flag : s.keyboard.enterpress = true) {scancode : Byte}
    (h : Spares s.phase.cleared s.keyboard scancode) :
    Tracks { s with keyboard := s.keyboard.handler scancode } (typeKey p scancode) := by
  have flag' := h.enterpress.trans flag
  have buffer : s.phase.cleared = 0 → (s.keyboard.handler scancode).buffer = s.keyboard.buffer :=
    fun e => handler_buffer (e ▸ h)
  refine ⟨fun h => absurd (h.symm.trans flag') (by decide), fun _ => ?_,
    t.progress.congr h.enterpress buffer⟩
  have down : (finish s.phase.cleared (s.keyboard.handler scancode)).enterpress = false := rfl
  rw [t.pending flag, typeKey, ← finish_handler h, down, owed_congr buffer]
  rfl

theorem Tracks.move (t : Tracks s p) {ph ph' : Phase} (hp : s.phase = ph)
    (results : ph'.results = ph.results) (cleared : ph'.cleared = ph.cleared)
    (owed : ph'.owed s.keyboard = ph.owed s.keyboard) (progress : Progress s.keyboard ph') :
    Tracks { s with phase := ph' } p where
  settled flag := by rw [t.settled flag, hp, results]
  pending flag := by
    rw [results, cleared, owed, ← hp]
    exact t.pending flag
  progress := progress

theorem newlineIndex_eq {i : Nat} (hi : i ≤ 128) (before : ∀ j, j < i → k.buffer j ≠ 0x0A)
    (stop : ¬ (i < 128 ∧ k.buffer i ≠ 0x0A)) : newlineIndex k = i := by
  refine scan_eq 128 0 i (Nat.zero_le i) (by omega) (fun j _ hj => ?_) (fun hlt => ?_)
  · simpa using before j hj
  · have found : k.buffer i = 0x0A := by
      by_contra e
      exact stop ⟨by omega, e⟩
    simp [found]

theorem Tracks.scan {i : Nat} (t : Tracks s p) (hp : s.phase = .scanning i)
    (h : advance s = some s') : Tracks s' p := by
  obtain ⟨flag, hi, before⟩ : Progress s.keyboard (.scanning i) := hp ▸ t.progress
  simp only [advance, hp] at h
  split at h
  · rename_i more
    rw [← Option.some_inj.mp h]
    refine t.move hp rfl rfl rfl ⟨flag, by omega, ?_⟩
    intro j hj
    by_cases e : j = i
    · exact e ▸ more.2
    · exact before j (by omega)
  · rename_i stop
    rw [← Option.some_inj.mp h]
    refine t.move hp rfl rfl rfl ⟨flag, ?_, ?_, ?_⟩
    · rw [newlineIndex_eq hi before stop]
    · simp
    · simp [strncpy]

theorem Tracks.copy {n : Nat} {done : List Byte} (t : Tracks s p) (hp : s.phase = .copying n done)
    (h : advance s = some s') : Tracks s' p := by
  obtain ⟨flag, hn, len, copied⟩ : Progress s.keyboard (.copying n done) := hp ▸ t.progress
  simp only [advance, hp] at h
  split at h
  · rename_i more
    have left : n - done.length = n - (done.length + 1) + 1 := by omega
    rw [left, strncpyFrom, if_neg more.1] at copied
    rw [← Option.some_inj.mp h]
    refine t.move hp rfl rfl rfl ⟨flag, hn, ?_, ?_⟩
    · simpa using more.2
    · simpa using copied
  · rename_i stop
    rw [← Option.some_inj.mp h]
    refine t.move hp rfl rfl rfl ⟨flag, hn, len, ?_⟩
    rw [← copied]
    rcases Nat.lt_or_ge done.length n with more | all
    · have left : n - done.length = n - (done.length + 1) + 1 := by omega
      have zero : s.keyboard.buffer done.length = 0 := by
        by_contra e
        exact stop ⟨e, more⟩
      rw [left, strncpyFrom, if_pos zero]
    · rw [Nat.sub_eq_zero_of_le all]
      rfl

theorem Tracks.pad {n : Nat} {done : List Byte} (t : Tracks s p) (hp : s.phase = .padding n done)
    (h : advance s = some s') : Tracks s' p := by
  obtain ⟨flag, hn, len, padded⟩ : Progress s.keyboard (.padding n done) := hp ▸ t.progress
  simp only [advance, hp] at h
  split at h
  · rename_i more
    have left : n - done.length = n - (done.length + 1) + 1 := by omega
    rw [left, List.replicate_succ] at padded
    rw [← Option.some_inj.mp h]
    refine t.move hp rfl rfl rfl ⟨flag, hn, ?_, ?_⟩
    · simpa using more
    · simpa using padded
  · rename_i all
    rw [Nat.sub_eq_zero_of_le (by omega), List.replicate_zero, List.append_nil] at padded
    have line : takeLine s.keyboard = result n done := by
      rw [takeLine, result, ← hn, padded]
    rw [← Option.some_inj.mp h]
    refine ⟨fun e => absurd (e.symm.trans flag) (by decide), fun _ => ?_, flag, by omega⟩
    rw [t.pending flag, hp]
    simp [Phase.results, Phase.owed, Phase.cleared, line]

theorem Tracks.clear {n : Nat} {done : List Byte} {j : Nat} (t : Tracks s p)
    (hp : s.phase = .clearing n done j) (h : advance s = some s') : Tracks s' p := by
  obtain ⟨flag, bound⟩ : Progress s.keyboard (.clearing n done j) := hp ▸ t.progress
  have lines := t.pending flag
  simp only [hp, Phase.cleared] at lines
  simp only [advance, hp] at h
  split at h
  · rename_i more
    rw [← Option.some_inj.mp h]
    refine ⟨fun e => absurd (e.symm.trans flag) (by decide), fun _ => ?_, flag, by omega⟩
    rw [lines, ← finish_clear more s.keyboard]
    rfl
  · rename_i all
    have last : j = 128 := by omega
    rw [last, finish_end] at lines
    rw [← Option.some_inj.mp h]
    refine ⟨fun _ => ?_, fun e => absurd e (by simp), trivial⟩
    rw [lines]
    simp [Phase.results, Phase.owed]

theorem Tracks.leave {n : Nat} {done : List Byte} (t : Tracks s p) (hp : s.phase = .leaving n done)
    (h : advance s = some s') : Tracks s' p := by
  simp only [advance, hp, Option.some_inj] at h
  subst h
  refine ⟨fun flag => ?_, fun flag => ?_, trivial⟩
  · rw [t.settled flag, hp]
    simp [Phase.results]
  · rw [t.pending flag, hp]
    simp [Phase.results, Phase.owed, Phase.cleared]

theorem Tracks.advance (t : Tracks s p) (h : advance s = some s') : Tracks s' p := by
  cases hp : s.phase with
  | idle => simp [Reader.advance, hp] at h
  | waiting =>
    simp only [Reader.advance, hp, Option.some_inj] at h
    subst h
    cases flag : s.keyboard.enterpress with
    | true =>
      exact t.move hp rfl rfl rfl ⟨flag, by omega, fun j hj => absurd hj (Nat.not_lt_zero j)⟩
    | false => exact t.move hp rfl rfl rfl trivial
  | scanning i => exact t.scan hp h
  | copying n done => exact t.copy hp h
  | padding n done => exact t.pad hp h
  | clearing n done j => exact t.clear hp h
  | leaving n done => exact t.leave hp h

theorem start_tracks (flag : k.enterpress = false) : Tracks (start k) (k, []) :=
  ⟨fun _ => rfl, fun h => absurd (flag.symm.trans h) (by decide), trivial⟩

theorem Tracks.run {acts : List Act} (t : Tracks s p) (orderly : Along act Orderly acts s)
    (h : run act acts s = some s') : Tracks s' ((keysOf acts).foldl typeKey p) := by
  induction acts generalizing s p with
  | nil =>
    rw [run_nil, Option.some_inj] at h
    exact h ▸ t
  | cons a acts ih =>
    obtain ⟨s₁, hs, hrest⟩ := run_cons_some h
    have rest := orderly.2 s₁ hs
    cases a with
    | key scancode =>
      refine ih ?_ rest hrest
      rw [act, Option.some_inj] at hs
      rw [← hs]
      cases flag : s.keyboard.enterpress with
      | true => exact t.key_pending flag (orderly.1 flag)
      | false => exact t.key_settled flag scancode
    | read =>
      refine ih ?_ rest hrest
      rw [act, Option.ite_none_right_eq_some, Option.some_inj] at hs
      rw [← hs.2]
      exact t.move hs.1 rfl rfl rfl trivial
    | step => exact ih (t.advance hs) rest hrest

theorem Tracks.log_eq (t : Tracks s p) : s.log = p.2.take s.log.length := by
  cases flag : s.keyboard.enterpress with
  | true =>
    rw [t.pending flag]
    simp
  | false =>
    rw [t.settled flag]
    simp

end Simulation

end LumettaOS.Reader
