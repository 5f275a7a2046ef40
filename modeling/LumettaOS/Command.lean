import LumettaOS.Execute
import LumettaOS.Lookup

/-! Command lines as `sys_execute` takes them apart. The first loop stops at a
space, at a newline or after 32 bytes, but not at the end of the string. -/

namespace LumettaOS.Execute
open Lib.Scan CString

section Word

variable {c : Memory}

theorem wordEnd_le (c : Memory) : wordEnd c ≤ 32 := scan_le _ 32 0

theorem before_wordEnd {i : Nat} (h : i < wordEnd c) : c i ≠ 0x0A ∧ c i ≠ 0x20 := by
  have miss := scan_miss (p := fun i => c i == 0x0A || c i == 0x20) 32 0 i (Nat.zero_le i) h
  simpa using miss

theorem at_wordEnd (h : wordEnd c < 32) : c (wordEnd c) = 0x0A ∨ c (wordEnd c) = 0x20 := by
  have hit := scan_hit (p := fun i => c i == 0x0A || c i == 0x20) 32 0 (by simpa [wordEnd] using h)
  simpa [wordEnd] using hit

theorem lt_wordEnd {j : Nat} (hj : j < 32) (h : ∀ i, i ≤ j → c i ≠ 0x0A ∧ c i ≠ 0x20) :
    j < wordEnd c := by
  by_contra le
  have stop := at_wordEnd (c := c) (by omega)
  have clear := h (wordEnd c) (by omega)
  exact stop.elim clear.1 clear.2

theorem commandName_inside {k : Nat} (h : k < wordEnd c) : commandName c k = c k := if_pos h

theorem commandName_outside {k : Nat} (h : wordEnd c ≤ k) : commandName c k = 0 :=
  if_neg (by omega)

end Word

/-- The bytes of a command before its first space, newline or zero byte. -/
structure FirstWord (c : Memory) (w : List Byte) : Prop where
  holds : Holds c w
  plain : ∀ b ∈ w, b ≠ 0 ∧ b ≠ 0x0A ∧ b ≠ 0x20
  stop : c w.length = 0 ∨ c w.length = 0x0A ∨ c w.length = 0x20

def quitWord : List Byte := [0x71, 0x75, 0x69, 0x74]

section FirstWord

variable {c : Memory} {w : List Byte}

theorem FirstWord.lt_wordEnd (first : FirstWord c w) {i : Nat} (hi : i < w.length)
    (h32 : i < 32) : i < wordEnd c :=
  Execute.lt_wordEnd h32 fun j hj => (first.plain _ (first.holds.at (by omega))).2

theorem FirstWord.commandName_isString (first : FirstWord c w) :
    IsString (commandName c) (w.take 32) where
  holds := by
    refine holds_append.mpr ⟨fun i b hb => ?_, holds_singleton.mpr ?_⟩
    · rw [List.getElem?_take, Option.ite_none_right_eq_some] at hb
      obtain ⟨inside, -⟩ := List.getElem?_eq_some_iff.mp hb.2
      rw [commandName_inside (first.lt_wordEnd inside hb.1)]
      exact first.holds i b hb.2
    · rw [Nat.add_zero, List.length_take, commandName]
      split
      · -- the loop ran over the byte behind the word, so that byte is zero
        rename_i inside
        have bound := wordEnd_le c
        have len : min 32 w.length = w.length := by omega
        rw [len] at inside ⊢
        have clear := before_wordEnd inside
        exact (first.stop.resolve_right fun stop => stop.elim clear.1 clear.2)
      · rfl
  live b hb := (first.plain b (List.mem_of_mem_take hb)).1

theorem FirstWord.empty_iff (first : FirstWord c w) : commandName c 0 = 0 ↔ w = [] := by
  have text := first.commandName_isString
  refine ⟨fun zero => ?_, fun empty => ?_⟩
  · by_contra some_
    refine text.before ?_ zero
    rw [List.length_take]
    have pos := List.length_pos_iff.mpr some_
    omega
  · subst empty
    exact text.ends

theorem FirstWord.quit_iff (first : FirstWord c w) :
    strncmp (commandName c) quitName 4 = 0 ↔ quitWord <+: w := by
  have live : ∀ j, j < 4 → quitName j ≠ 0 := by decide
  have letters : Holds quitName quitWord := holds_literal _ _
  rw [strncmp_eq_zero_iff, first.commandName_isString.samePrefix_iff, List.take_take,
    List.length_take]
  refine ⟨fun ⟨held, stop⟩ => ?_, fun ⟨rest, e⟩ => ?_⟩
  · have long : 4 ≤ w.length := by
      by_contra short
      exact live _ (by omega) (stop (by omega))
    have word : w.take 4 = quitWord := by
      have front : Holds quitName (w.take 4) := held
      rw [← front.map_range, List.length_take, min_eq_left long]
      exact letters.map_range
    rw [← word]
    exact List.take_prefix 4 w
  · subst e
    refine ⟨?_, fun short => ?_⟩
    · exact letters
    · simp [quitWord] at short
      omega

theorem FirstWord.parse_eq (first : FirstWord c w) :
    parse c = if w = [] then .empty else if quitWord <+: w then .quit
      else .program (commandName c) (args c) := by
  simp only [parse, first.empty_iff, first.quit_iff]

end FirstWord

section TwoCommands

variable {c c' : Memory}

theorem wordEnd_congr (h : SameString c c') (live : ∀ i, i < wordEnd c → c i ≠ 0) :
    wordEnd c' = wordEnd c := by
  refine scan_congr 32 0 fun i _ hi _ => ?_
  rw [h.eq_of_le live hi]

theorem commandName_sameString (h : SameString c c') :
    SameString (commandName c) (commandName c') := by
  intro j live
  rcases Nat.lt_or_ge j (wordEnd c) with inside | outside
  · have bytes : ∀ i, i < j → c i ≠ 0 := fun i hi => by
      rw [← commandName_inside (hi.trans inside)]
      exact live i hi
    have bound := wordEnd_le c
    have inside' : j < wordEnd c' := lt_wordEnd (by omega) fun i hi => by
      rw [← h.eq_of_le bytes hi]
      exact before_wordEnd (by omega)
    rw [commandName_inside inside, commandName_inside inside', h j bytes]
  · have last : j = wordEnd c := by
      by_contra ne
      exact live (wordEnd c) (by omega) (commandName_outside le_rfl)
    have bytes : ∀ i, i < wordEnd c → c i ≠ 0 := fun i hi => by
      rw [← commandName_inside hi]
      exact live i (by omega)
    rw [commandName_outside outside, commandName_outside]
    rw [wordEnd_congr h bytes]
    exact outside

theorem live_to_argStart (live : ∀ i, i < wordEnd c → c i ≠ 0) :
    ∀ i, i < argStart c → c i ≠ 0 := by
  intro i hi
  rcases Nat.lt_or_ge i (wordEnd c) with inside | outside
  · exact live i inside
  · have space := scan_miss (p := fun i => c i != 0x20) (2 ^ 32) (wordEnd c) i outside hi
    have value : c i = 0x20 := by simpa using space
    rw [value]
    decide

theorem live_to_argEnd (live : ∀ i, i < wordEnd c → c i ≠ 0) :
    ∀ i, i < argStart c + argLen c → c i ≠ 0 := by
  intro i hi
  rcases Nat.lt_or_ge i (argStart c) with inside | outside
  · exact live_to_argStart live i inside
  · have miss := scan_miss (p := fun j => c (argStart c + j) == 0x0A || c (argStart c + j) == 0 ||
      decide (128 ≤ argStart c + j)) 128 0 (i - argStart c) (Nat.zero_le _)
      (by change _ < argLen c; omega)
    have here : argStart c + (i - argStart c) = i := by omega
    rw [here] at miss
    simp only [Bool.or_eq_false_iff, beq_eq_false_iff_ne] at miss
    exact miss.1.2

theorem argStart_congr (h : SameString c c') (live : ∀ i, i < wordEnd c → c i ≠ 0) :
    argStart c' = argStart c := by
  rw [argStart, wordEnd_congr h live]
  refine scan_congr (2 ^ 32) (wordEnd c) fun i _ hi _ => ?_
  rw [h.eq_of_le (live_to_argStart live) hi]

theorem argLen_congr (h : SameString c c') (live : ∀ i, i < wordEnd c → c i ≠ 0) :
    argLen c' = argLen c := by
  rw [argLen, argStart_congr h live]
  refine scan_congr 128 0 fun j _ hj _ => ?_
  rw [h.eq_of_le (live_to_argEnd live) (j := argStart c + j) (Nat.add_le_add_left hj _)]

theorem args_congr (h : SameString c c') (live : ∀ i, i < wordEnd c → c i ≠ 0) :
    args c' = args c := by
  funext k
  simp only [args, wordEnd_congr h live, argStart_congr h live, argLen_congr h live,
    ← h.eq_of_le live le_rfl]
  split
  · split
    · rename_i inside
      rw [h.eq_of_le (live_to_argEnd live) (by omega)]
    · rfl
  · rfl

theorem parse_cases (h : SameString c c') :
    (parse c = .empty ∧ parse c' = .empty) ∨ (parse c = .quit ∧ parse c' = .quit) ∨
    (parse c = .program (commandName c) (args c) ∧
      parse c' = .program (commandName c') (args c')) := by
  have names := commandName_sameString h
  have first : commandName c 0 = commandName c' 0 := names 0 (by simp)
  have quits := names.strncmp_iff quitName 4
  simp only [parse, ← first, ← quits]
  split
  · exact Or.inl ⟨rfl, rfl⟩
  · split
    · exact Or.inr (Or.inl ⟨rfl, rfl⟩)
    · exact Or.inr (Or.inr ⟨rfl, rfl⟩)

end TwoCommands

theorem parse_program_iff {c : Memory} :
    parse c = .program (commandName c) (args c) ↔
      commandName c 0 ≠ 0 ∧ strncmp (commandName c) quitName 4 ≠ 0 := by
  rw [parse]
  split
  · simp_all
  · split <;> simp_all

theorem findExecutable_congr (img : Image) {f g : Memory} (h : SameString f g) :
    findExecutable img f = findExecutable img g := by
  rw [findExecutable, img.readDentryByName_congr h, findExecutable]

theorem parse_shellText :
    parse shellText = .program (commandName shellText) (args shellText) := by
  rw [parse_program_iff]
  decide

theorem parse_shellText_ne_quit : parse shellText ≠ .quit := by
  rw [parse_shellText]
  simp

theorem startProgram_congr (img : Image) {n n' : Memory} (h : SameString n n') (args : Memory)
    (f : Frame) (m : Machine) :
    startProgram img n args f m = startProgram img n' args f m := by
  rw [startProgram, findExecutable_congr img h, startProgram]

theorem executeShell_eq (img : Image) (behind : Memory) (f : Frame) (m : Machine) :
    ∃ args, executeShell img behind f m = startProgram img shellText args f m := by
  have same := literal_sameString shellName (fun _ => 0) behind
  have name : SameString (commandName shellText) shellText := by
    have stop : wordEnd shellText = 32 := by decide
    intro j live
    rcases Nat.lt_or_ge j 32 with inside | outside
    · exact commandName_inside (by omega)
    · exact absurd (by decide) (live 5 (by omega))
  refine ⟨args (literal shellName behind), ?_⟩
  rcases parse_cases same with ⟨h, -⟩ | ⟨h, -⟩ | ⟨-, h⟩
  · exact absurd (h.symm.trans parse_shellText) (by simp)
  · exact absurd (h.symm.trans parse_shellText) (by simp)
  · simp only [executeShell, executeWith, h]
    rw [← startProgram_congr img (commandName_sameString same)]
    exact startProgram_congr img name _ f m

end LumettaOS.Execute
