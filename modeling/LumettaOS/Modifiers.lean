import LumettaOS.LineEditor

/-! The modifier keys against the history of scancodes. `key_status` has one bit for
both shift keys, so a release of one of them clears it while the other may be down. -/

namespace LumettaOS.Keyboard
open Reader

section Latest

variable {α : Type} {p q : α → Bool}

def latest (p : α → Bool) (events : List α) : Option α := (events.filter p).getLast?

theorem latest_concat (p : α → Bool) (events : List α) (e : α) :
    latest p (events ++ [e]) = if p e then some e else latest p events := by
  unfold latest
  rw [List.filter_append]
  by_cases h : p e
  · simp [h]
  · simp [h]

theorem latest_kind {events : List α} {e : α} (h : latest p events = some e) : p e = true :=
  List.of_mem_filter (List.mem_of_getLast? h)

theorem latest_of_some (sub : ∀ e, q e = true → p e = true) {events : List α} {e : α}
    (h : latest p events = some e) (kind : q e = true) : latest q events = some e := by
  induction events using List.reverseRecOn with
  | nil => simp [latest] at h
  | append_singleton events e' ih =>
    rw [latest_concat] at h ⊢
    by_cases here : p e' = true
    · rw [if_pos here, Option.some_inj] at h
      rw [h, if_pos kind]
    · rw [if_neg here] at h
      rw [if_neg fun k => here (sub e' k)]
      exact ih h

theorem latest_of_none (sub : ∀ e, q e = true → p e = true) {events : List α}
    (h : latest p events = none) : latest q events = none := by
  induction events using List.reverseRecOn with
  | nil => rfl
  | append_singleton events e ih =>
    rw [latest_concat] at h ⊢
    by_cases here : p e = true
    · simp [here] at h
    · rw [if_neg here] at h
      rw [if_neg fun k => here (sub e k)]
      exact ih h

end Latest

def isLeft (scancode : Byte) : Bool := scancode = 0x2A ∨ scancode = 0xAA
def isRight (scancode : Byte) : Bool := scancode = 0x36 ∨ scancode = 0xB6
def isShift (scancode : Byte) : Bool := isLeft scancode ∨ isRight scancode

def LeftDown (codes : List Byte) : Prop := latest isLeft codes = some 0x2A
def RightDown (codes : List Byte) : Prop := latest isRight codes = some 0x36
def SomeShift (codes : List Byte) : Prop := LeftDown codes ∨ RightDown codes

def CapsOn (codes : List Byte) : Prop := codes.count 0x3A % 2 = 1

/-- One shift key was released while the other was down, and no shift key has sent a
code since. -/
def ReleasedUnderOther (codes : List Byte) : Prop :=
  (latest isShift codes = some 0xAA ∧ RightDown codes) ∨
  (latest isShift codes = some 0xB6 ∧ LeftDown codes)

def UpperCase (c : Byte) : Prop := 0x41 ≤ c ∧ c ≤ 0x5A

instance instDecidableUpperCase (c : Byte) : Decidable (UpperCase c) :=
  inferInstanceAs (Decidable (_ ∧ _))

def statusAfter (k : Keyboard) (codes : List Byte) : Byte :=
  (codes.foldl (fun k scancode => k.handler scancode) k).keyStatus

/-- The status knows the modifiers. A letter key gives what they say, except that
Ctrl+L gives no character at all. -/
structure TracksModifiers (codes : List Byte) (keyStatus : Byte) : Prop where
  shift : keyStatus &&& 0x01 ≠ 0 ↔ SomeShift codes
  caps : keyStatus &&& 0x02 ≠ 0 ↔ CapsOn codes
  letter : ∀ scancode, isLetter scancode = true →
    (UpperCase (handleStandardKey keyStatus scancode) ↔ ¬ (CapsOn codes ↔ SomeShift codes)) ∧
    (typedChar keyStatus scancode = some (handleStandardKey keyStatus scancode) ∨
      keyStatus &&& 0x04 ≠ 0 ∧ scancode = 0x26)

section Status

variable {k : Keyboard} {scancode keyStatus : Byte}

theorem shift_bit_iff (keyStatus : Byte) :
    keyStatus &&& 0x01 ≠ 0 ↔ keyStatus.getLsbD 0 = true := by
  revert keyStatus
  decide

theorem caps_bit_iff (keyStatus : Byte) :
    keyStatus &&& 0x02 ≠ 0 ↔ keyStatus.getLsbD 1 = true := by
  revert keyStatus
  decide

theorem handler_keyStatus (k : Keyboard) (scancode : Byte) :
    (k.handler scancode).keyStatus = nextStatus k.keyStatus scancode := by
  cases ht : typedChar k.keyStatus scancode with
  | none => rw [handler_none ht]
  | some c =>
    rw [handler_some ht, typed_keyStatus]
    unfold typedChar at ht
    unfold nextStatus
    by_cases up : scancode &&& 0x80 ≠ 0
    · rw [if_pos up] at ht
      simp at ht
    · rw [if_neg up] at ht ⊢
      cases hp : pressed k.keyStatus scancode with
      | none => rfl
      | some status => simp [hp] at ht

theorem statusAfter_concat (k : Keyboard) (codes : List Byte) (scancode : Byte) :
    statusAfter k (codes ++ [scancode]) = nextStatus (statusAfter k codes) scancode := by
  unfold statusAfter
  rw [List.foldl_concat, handler_keyStatus]

theorem nextStatus_shift (keyStatus scancode : Byte) :
    (nextStatus keyStatus scancode).getLsbD 0 =
      if scancode = 0x2A ∨ scancode = 0x36 then true
      else if scancode = 0xAA ∨ scancode = 0xB6 then false
      else keyStatus.getLsbD 0 := by
  unfold nextStatus
  by_cases up : scancode &&& 0x80 ≠ 0
  · have make : ¬ (scancode = 0x2A ∨ scancode = 0x36) := by
      rintro (e | e)
      all_goals
        rw [e] at up
        exact up (by decide)
    rw [if_pos up, if_neg make, released]
    split_ifs <;> simp
  · have break_ : ¬ (scancode = 0xAA ∨ scancode = 0xB6) := by
      rintro (e | e)
      all_goals
        rw [e] at up
        exact up (by decide)
    rw [if_neg up, if_neg break_, pressed]
    simp only [toggle]
    split_ifs <;> simp

theorem nextStatus_caps (keyStatus scancode : Byte) :
    (nextStatus keyStatus scancode).getLsbD 1 =
      if scancode = 0x3A then !keyStatus.getLsbD 1 else keyStatus.getLsbD 1 := by
  unfold nextStatus
  by_cases up : scancode &&& 0x80 ≠ 0
  · have other : scancode ≠ 0x3A := by
      rintro rfl
      exact up (by decide)
    rw [if_pos up, if_neg other, released]
    split_ifs <;> simp
  · rw [if_neg up, pressed]
    by_cases caps : scancode = 0x3A
    · subst caps
      simp only [toggle, caps_bit_iff]
      cases bit : keyStatus.getLsbD 1 with
      | true => simp
      | false => simp
    · simp only [toggle, if_neg caps]
      split_ifs <;> simp

end Status

section History

variable {k : Keyboard}

theorem statusAfter_shift (zero : k.keyStatus = 0) (codes : List Byte) :
    statusAfter k codes &&& 0x01 ≠ 0 ↔
      latest isShift codes = some 0x2A ∨ latest isShift codes = some 0x36 := by
  rw [shift_bit_iff]
  induction codes using List.reverseRecOn with
  | nil =>
    rw [statusAfter, List.foldl_nil, zero]
    decide
  | append_singleton codes scancode ih =>
    have kind : isShift scancode = true ↔
        (scancode = 0x2A ∨ scancode = 0x36) ∨ scancode = 0xAA ∨ scancode = 0xB6 := by
      simp only [isShift, isLeft, isRight, decide_eq_true_eq]
      tauto
    rw [statusAfter_concat, nextStatus_shift, latest_concat]
    by_cases make : scancode = 0x2A ∨ scancode = 0x36
    · rw [if_pos make, if_pos (kind.mpr (Or.inl make)), Option.some_inj, Option.some_inj]
      exact iff_of_true rfl make
    · by_cases break_ : scancode = 0xAA ∨ scancode = 0xB6
      · rw [if_neg make, if_pos break_, if_pos (kind.mpr (Or.inr break_)), Option.some_inj,
          Option.some_inj]
        exact iff_of_false (by simp) make
      · rw [if_neg make, if_neg break_, if_neg fun e => (kind.mp e).elim make break_]
        exact ih

theorem statusAfter_caps (zero : k.keyStatus = 0) (codes : List Byte) :
    statusAfter k codes &&& 0x02 ≠ 0 ↔ CapsOn codes := by
  rw [caps_bit_iff]
  unfold CapsOn
  induction codes using List.reverseRecOn with
  | nil =>
    rw [statusAfter, List.foldl_nil, zero]
    decide
  | append_singleton codes scancode ih =>
    rw [statusAfter_concat, nextStatus_caps, List.count_append]
    by_cases caps : scancode = 0x3A
    · rw [if_pos caps, Bool.not_eq_true', ← Bool.not_eq_true, ih, caps, List.count_singleton_self]
      omega
    · have other : [scancode].count 0x3A = 0 := by
        rw [List.count_eq_zero, List.mem_singleton]
        exact Ne.symm caps
      rw [if_neg caps, ih, other, Nat.add_zero]

/-- The bit and the keys agree unless the latest code was a release under the other key. -/
theorem latest_make_iff (codes : List Byte) :
    ((latest isShift codes = some 0x2A ∨ latest isShift codes = some 0x36) ↔ SomeShift codes) ↔
      ¬ ReleasedUnderOther codes := by
  have left : ∀ e, isLeft e = true → isShift e = true := fun e h => by simp [isShift, h]
  have right : ∀ e, isRight e = true → isShift e = true := fun e h => by simp [isShift, h]
  unfold SomeShift ReleasedUnderOther LeftDown RightDown
  cases last : latest isShift codes with
  | none =>
    rw [latest_of_none left last, latest_of_none right last]
    simp
  | some scancode =>
    have kind := latest_kind last
    simp only [isShift, isLeft, isRight, decide_eq_true_eq] at kind
    rcases kind with (rfl | rfl) | (rfl | rfl)
    · rw [latest_of_some left last (by decide)]
      simp
    · rw [latest_of_some left last (by decide)]
      simp
    · rw [latest_of_some right last (by decide)]
      simp
    · rw [latest_of_some right last (by decide)]
      simp

end History

section Letters

theorem letter_cases {scancode : Byte} (h : isLetter scancode = true) :
    UpperCase (upper scancode) ∧ ¬ UpperCase (lower scancode) := by
  revert scancode
  decide

theorem handleStandardKey_letter {scancode : Byte} (h : isLetter scancode = true)
    (keyStatus : Byte) : UpperCase (handleStandardKey keyStatus scancode) ↔
      ¬ (keyStatus &&& 0x02 ≠ 0 ↔ keyStatus &&& 0x01 ≠ 0) := by
  obtain ⟨high, low⟩ := letter_cases h
  unfold handleStandardKey
  by_cases caps : keyStatus &&& 0x02 ≠ 0
  · by_cases shift : keyStatus &&& 0x01 ≠ 0
    · rw [if_pos caps, if_pos h, if_pos shift]
      tauto
    · rw [if_pos caps, if_pos h, if_neg shift]
      tauto
  · by_cases shift : keyStatus &&& 0x01 ≠ 0
    · rw [if_neg caps, if_pos shift]
      tauto
    · rw [if_neg caps, if_neg shift]
      tauto

theorem typedChar_letter {scancode : Byte} (h : isLetter scancode = true) (keyStatus : Byte) :
    typedChar keyStatus scancode = some (handleStandardKey keyStatus scancode) ∨
      keyStatus &&& 0x04 ≠ 0 ∧ scancode = 0x26 := by
  have plain : ∀ scancode : Byte, isLetter scancode = true → scancode &&& 0x80 = 0 ∧
      scancode ≠ 0x2A ∧ scancode ≠ 0x36 ∧ scancode ≠ 0x3A ∧ scancode ≠ 0x1D ∧
      scancode ≠ 0x38 ∧ scancode ≠ 0x45 ∧ scancode ≠ 0x46 := by decide
  obtain ⟨down, h1, h2, h3, h4, h5, h6, h7⟩ := plain scancode h
  have none_ : pressed keyStatus scancode = none := by
    rw [pressed, if_neg (not_or.mpr ⟨h1, h2⟩), if_neg h3, if_neg h4, if_neg h5, if_neg h6,
      if_neg h7]
  by_cases ctrlL : keyStatus &&& 0x04 ≠ 0 ∧ scancode = 0x26
  · exact Or.inr ctrlL
  · left
    simp only [typedChar, none_, if_neg ctrlL, if_neg (not_not.mpr down)]

end Letters

/-- After every sequence of scancodes the modifiers are known, exactly unless a shift
key was released under the other one and neither has sent a code since. -/
theorem modifiers_tracked_iff {k : Keyboard} (zero : k.keyStatus = 0) (codes : List Byte) :
    TracksModifiers codes (statusAfter k codes) ↔ ¬ ReleasedUnderOther codes := by
  have shift := statusAfter_shift zero codes
  have caps := statusAfter_caps zero codes
  rw [← latest_make_iff, ← shift]
  refine ⟨fun tracks => tracks.shift, fun agree => ⟨agree, caps, fun scancode letter => ?_⟩⟩
  refine ⟨?_, typedChar_letter letter _⟩
  rw [handleStandardKey_letter letter, caps, agree]

theorem modifiers_tracked_iff_sample :
    TracksModifiers [0x3A, 0x2A, 0x36, 0xB6, 0x2A]
      (statusAfter Keyboard.init [0x3A, 0x2A, 0x36, 0xB6, 0x2A]) :=
  (modifiers_tracked_iff rfl _).mpr (by unfold ReleasedUnderOther LeftDown RightDown; decide)

/-- Both shift keys go down and the left one up: the right one is down, the bit is not set
and a letter is in lower case. -/
theorem shift_lost :
    RightDown [0x2A, 0x36, 0xAA] ∧ statusAfter Keyboard.init [0x2A, 0x36, 0xAA] = 0 ∧
      typedChar 0 0x1E = some 0x61 ∧
      ¬ TracksModifiers [0x2A, 0x36, 0xAA] (statusAfter Keyboard.init [0x2A, 0x36, 0xAA]) := by
  have right : RightDown [0x2A, 0x36, 0xAA] := by
    unfold RightDown
    decide
  have status : statusAfter Keyboard.init [0x2A, 0x36, 0xAA] = 0 := by decide
  refine ⟨right, status, by decide, fun tracks => ?_⟩
  have bit := tracks.shift.mpr (Or.inr right)
  rw [status] at bit
  exact bit (by decide)

end LumettaOS.Keyboard
