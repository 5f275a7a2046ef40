import LumettaOS.Lifetime

/-! Arguments on their way from the command line to `sys_getargs`. The string arrives
as it was typed; behind its end the copy goes on into whatever the block holds. -/

namespace LumettaOS

namespace Execute
open Lib.Scan CString

structure IsWord (w : List Byte) : Prop where
  nonempty : 0 < w.length
  short : w.length ≤ 32
  plain : ∀ b ∈ w, b ≠ 0 ∧ b ≠ 0x0A ∧ b ≠ 0x20
  other : ¬ quitWord <+: w

section Word

variable {c : Memory} {w : List Byte}

theorem IsWord.wordEnd_eq (word : IsWord w) (holds : Holds c w)
    (stop : c w.length = 0x0A ∨ c w.length = 0x20) : wordEnd c = w.length := by
  have short := word.short
  refine scan_eq 32 0 w.length (Nat.zero_le _) (by omega) (fun i _ hi => ?_) fun _ => ?_
  · have plain := word.plain _ (holds.at hi)
    simpa using plain.2
  · simpa using stop

theorem IsWord.parse_ne_quit (word : IsWord w) (holds : Holds c w)
    (stop : c w.length = 0x0A ∨ c w.length = 0x20) : parse c ≠ .quit := by
  have first : FirstWord c w := ⟨holds, word.plain, Or.inr stop⟩
  have some_ : w ≠ [] := List.length_pos_iff.mp word.nonempty
  rw [first.parse_eq, if_neg some_, if_neg word.other]
  simp

end Word

structure CommandLine (c : Memory) (w : List Byte) (gap : Nat) (a : List Byte) (stop : Byte) :
    Prop where
  word : IsWord w
  holds : Holds c (w ++ (List.replicate gap 0x20 ++ (a ++ [stop])))
  gap_pos : 0 < gap
  nonempty : a ≠ []
  first : a.head? ≠ some 0x20
  text : ∀ b ∈ a, b ≠ 0 ∧ b ≠ 0x0A
  stop : stop = 0 ∨ stop = 0x0A
  room : w.length + gap + a.length ≤ 128

structure BareLine (c : Memory) (w : List Byte) (gap : Nat) : Prop where
  word : IsWord w
  holds : Holds c (w ++ (List.replicate gap 0x20 ++ [0x0A]))

section Line

variable {c : Memory} {w a : List Byte} {gap : Nat} {stop : Byte}

theorem holds_spaces (h : Holds c (List.replicate gap 0x20)) {i : Nat} (hi : i < gap) :
    c i = 0x20 :=
  List.eq_of_mem_replicate (h.at (by simpa using hi))

theorem lt_argStart {start i : Nat} (word : wordEnd c = start)
    (spaces : Holds (fun i => c (start + i)) (List.replicate gap 0x20)) (hi : i < start + gap)
    (small : i < start + 2 ^ 32) : i < argStart c := by
  by_contra before
  have low : start ≤ argStart c := by
    rw [← word]
    exact le_scan _ _ _
  have hit : (c (argStart c) != 0x20) = true :=
    scan_hit (2 ^ 32) (wordEnd c) (by change argStart c < _; omega)
  have space : c (start + (argStart c - start)) = 0x20 := holds_spaces spaces (by omega)
  rw [Nat.add_sub_of_le low] at space
  simp [space] at hit

theorem argStart_eq {start : Nat} (word : wordEnd c = start)
    (spaces : Holds (fun i => c (start + i)) (List.replicate gap 0x20))
    (after : c (start + gap) ≠ 0x20) (small : gap ≤ 2 ^ 32) : argStart c = start + gap := by
  rw [argStart, word]
  refine scan_eq (2 ^ 32) start _ (by omega) (by omega) (fun i low high => ?_) fun _ => ?_
  · have space : c (start + (i - start)) = 0x20 := holds_spaces spaces (by omega)
    rw [Nat.add_sub_of_le low] at space
    simp [space]
  · simpa using after

theorem CommandLine.pieces (h : CommandLine c w gap a stop) :
    Holds c w ∧ Holds (fun i => c (w.length + i)) (List.replicate gap 0x20) ∧
      Holds (fun i => c (w.length + gap + i)) a ∧ c (w.length + gap + a.length) = stop := by
  obtain ⟨word, rest⟩ := holds_append.mp h.holds
  obtain ⟨spaces, rest⟩ := holds_append.mp rest
  obtain ⟨text, last⟩ := holds_append.mp rest
  simp only [List.length_replicate, ← Nat.add_assoc] at text last
  exact ⟨word, spaces, text, holds_singleton.mp last⟩

theorem CommandLine.space (h : CommandLine c w gap a stop) : c w.length = 0x20 :=
  holds_spaces h.pieces.2.1 h.gap_pos

theorem CommandLine.argStart_eq (h : CommandLine c w gap a stop) :
    argStart c = w.length + gap := by
  obtain ⟨word, spaces, text, -⟩ := h.pieces
  have room := h.room
  refine Execute.argStart_eq (h.word.wordEnd_eq word (Or.inr h.space)) spaces ?_ (by omega)
  intro space
  obtain ⟨b, rest, rfl⟩ := List.exists_cons_of_ne_nil h.nonempty
  have first : c (w.length + gap + 0) = b := text 0 b rfl
  rw [Nat.add_zero, space] at first
  exact h.first (by rw [← first]; rfl)

theorem CommandLine.argLen_eq (h : CommandLine c w gap a stop) : argLen c = a.length := by
  obtain ⟨-, -, text, last⟩ := h.pieces
  have room := h.room
  rw [argLen, h.argStart_eq]
  refine scan_eq 128 0 a.length (Nat.zero_le _) (by omega) (fun i _ hi => ?_) fun _ => ?_
  · have plain := h.text _ (text.at hi)
    have inside : ¬ 128 ≤ w.length + gap + i := by omega
    simpa [inside] using ⟨plain.2, plain.1⟩
  · rcases h.stop with e | e <;> simp [last, e]

theorem CommandLine.args_eq (h : CommandLine c w gap a stop) (k : Nat) :
    args c k = a[k]?.getD 0 := by
  obtain ⟨word, -, text, -⟩ := h.pieces
  simp only [args, h.word.wordEnd_eq word (Or.inr h.space), h.space, if_true, h.argLen_eq,
    h.argStart_eq]
  split
  · rename_i inside
    rw [List.getElem?_eq_getElem inside]
    exact text k _ (List.getElem?_eq_getElem inside)
  · rename_i outside
    rw [List.getElem?_eq_none (by omega)]
    rfl

theorem BareLine.pieces (h : BareLine c w gap) :
    Holds c w ∧ Holds (fun i => c (w.length + i)) (List.replicate gap 0x20) ∧
      c (w.length + gap) = 0x0A := by
  obtain ⟨word, rest⟩ := holds_append.mp h.holds
  obtain ⟨spaces, last⟩ := holds_append.mp rest
  rw [holds_singleton, List.length_replicate, Nat.add_zero] at last
  exact ⟨word, spaces, last⟩

theorem BareLine.ends (h : BareLine c w gap) : c w.length = 0x0A ∨ c w.length = 0x20 := by
  obtain ⟨-, spaces, last⟩ := h.pieces
  rcases Nat.eq_zero_or_pos gap with rfl | pos
  · exact Or.inl last
  · exact Or.inr (holds_spaces spaces pos)

theorem BareLine.args_eq (h : BareLine c w gap) : args c 0 = 0 := by
  obtain ⟨word, spaces, last⟩ := h.pieces
  have stop : wordEnd c = w.length := h.word.wordEnd_eq word h.ends
  by_cases space : c w.length = 0x20
  · have ends : argLen c = 0 := by
      refine scan_eq 128 0 0 le_rfl (by omega) (fun i _ hi => by omega) fun _ => ?_
      rcases Nat.lt_or_ge (2 ^ 32) gap with large | small
      · have far := lt_argStart stop spaces (i := 127) (by omega) (by omega)
        have limit : 128 ≤ argStart c := by omega
        simp [limit]
      · have start := argStart_eq stop spaces (by rw [last]; decide) small
        simp [start, last]
    simp only [args, ends, Nat.not_lt_zero, if_false, ite_self]
  · simp only [args, stop, if_neg space]

end Line

section Getargs

variable {p : Pcb} {a : List Byte}

theorem CommandLine.strcpy_holds {c : Memory} {w : List Byte} {gap : Nat} {stop : Byte}
    (h : CommandLine c w gap a stop) (old : Memory) : Holds (strcpy old (args c)) (a ++ [0]) := by
  have room := h.room
  have len : strlen (args c) = a.length := by
    refine strlen_eq (fun i hi => ?_) ?_ (by omega)
    · rw [h.args_eq, List.getElem?_eq_getElem hi]
      exact (h.text _ (List.getElem_mem hi)).1
    · rw [h.args_eq, List.getElem?_eq_none le_rfl]
      rfl
  refine holds_append.mpr ⟨fun i b hb => ?_, holds_singleton.mpr ?_⟩
  · obtain ⟨inside, -⟩ := List.getElem?_eq_some_iff.mp hb
    rw [strcpy, len, if_pos inside, h.args_eq, hb]
    rfl
  · simp [strcpy, len]

theorem strlen_argsMemory (terminated : ∃ i < 128, p.args i = 0) (stack : Memory) :
    strlen (argsMemory p stack) = strlen p.args ∧ strlen p.args < 128 := by
  obtain ⟨i, hi, zero⟩ := terminated
  have near := strlen_lt zero hi
  refine ⟨scan_congr (2 ^ 32) 0 fun j _ hj _ => ?_, near⟩
  have inside : j < 128 := Nat.lt_of_le_of_lt hj near
  simp [argsMemory, inside]

theorem sysGetargs_eq (terminated : ∃ i < 128, p.args i = 0) (first : p.args 0 ≠ 0) {n : Word}
    (positive : 0 < n.toInt) (stack : Memory) :
    sysGetargs stack false n (some p) =
      some (if n.toNat ≤ strlen p.args then (-1, [])
        else (0, (List.range n.toNat).map (argsMemory p stack))) := by
  have accepted : ¬ (false = true ∨ n.toInt ≤ 0) := by simpa using positive
  rw [sysGetargs, if_neg accepted, Option.map_some, if_neg first,
    (strlen_argsMemory terminated stack).1]

theorem sysGetargs_text (holds : Holds p.args (a ++ [0])) (nonempty : a ≠ [])
    (text : ∀ b ∈ a, b ≠ 0) (short : a.length < 128) (stack : Memory) (n : Word) :
    (a.length < n.toInt → ∃ stored, sysGetargs stack false n (some p) = some (0, stored) ∧
      stored.length = n.toNat ∧ a ++ [0] <+: stored) ∧
    (n.toInt ≤ a.length → sysGetargs stack false n (some p) = some (-1, [])) := by
  obtain ⟨front, last⟩ := holds_append.mp holds
  rw [holds_singleton, Nat.add_zero] at last
  have len : strlen p.args = a.length :=
    strlen_eq (fun i hi => text _ (front.at hi)) last (by omega)
  have first : p.args 0 ≠ 0 := text _ (front.at (List.length_pos_iff.mpr nonempty))
  refine ⟨fun fits => ?_, fun tight => ?_⟩
  · have value := Word.toInt_of_nonneg (n := n) (by omega)
    refine ⟨(List.range n.toNat).map (argsMemory p stack), ?_, by simp, ?_⟩
    · rw [sysGetargs_eq ⟨a.length, short, last⟩ first (by omega), len, if_neg (by omega)]
    · refine List.prefix_iff_getElem?.mpr fun i hi => ?_
      have inside : i < a.length + 1 := by simpa using hi
      have byte := holds i _ (List.getElem?_eq_getElem hi)
      rw [List.getElem?_map, List.getElem?_range (by omega), Option.map_some, argsMemory,
        if_pos (by omega), byte]
  · by_cases positive : n.toInt ≤ 0
    · rw [sysGetargs, if_pos (Or.inr positive)]
    · have value := Word.toInt_of_nonneg (n := n) (by omega)
      rw [sysGetargs_eq ⟨a.length, short, last⟩ first (by omega), len, if_pos (by omega)]

theorem sysGetargs_empty (empty : p.args 0 = 0) (stack : Memory) (null : Bool) (n : Word) :
    sysGetargs stack null n (some p) = some (-1, []) := by
  rw [sysGetargs]
  split
  · rfl
  · rw [Option.map_some, if_pos empty]

/-- The buffer gets nothing, or no more than the string and its terminator. -/
def WithinString (null : Bool) (n : Word) (p : Pcb) : Prop :=
  null = true ∨ n.toInt ≤ 0 ∨ p.args 0 = 0 ∨ n.toNat ≤ strlen p.args + 1

theorem exists_other_tail (terminated : ∃ i < 128, p.args i = 0) :
    ∃ p' : Pcb, SameString p.args p'.args ∧
      ∀ stack stack', argsMemory p stack (strlen p.args + 1) ≠
        argsMemory p' stack' (strlen p.args + 1) := by
  have near := (strlen_argsMemory terminated fun _ => 0).2
  rcases Nat.lt_or_ge (strlen p.args + 1) 128 with inside | last
  · let other := p.args (strlen p.args + 1) + 1
    refine ⟨⟨p.fileDescTb, Function.update p.args (strlen p.args + 1) other, p.pid, p.parentPid,
      p.savedEsp, p.savedEbp, p.active⟩, fun j live => ?_, fun stack stack' same => ?_⟩
    · have before := le_strlen live (by omega)
      exact (Function.update_of_ne (by omega) _ _).symm
    · simp only [argsMemory, if_pos inside, Function.update_self] at same
      simp [other] at same
  · -- the string fills the field, and the byte behind it is the first of `pid`
    have edge : strlen p.args + 1 = 128 := by omega
    refine ⟨{ p with pid := p.pid + 1 }, fun j _ => rfl, fun stack stack' same => ?_⟩
    rw [edge] at same
    have values := congrArg BitVec.toNat same
    simp [argsMemory, BitVec.extractLsb'_toNat] at values
    omega

theorem sysGetargs_same_iff (terminated : ∃ i < 128, p.args i = 0) (null : Bool) (n : Word) :
    (∀ p' stack stack', SameString p.args p'.args →
      sysGetargs stack null n (some p) = sysGetargs stack' null n (some p')) ↔
    WithinString null n p := by
  refine ⟨fun all => ?_, fun within p' stack stack' same => ?_⟩
  · by_contra beyond
    simp only [WithinString, not_or, Nat.not_le, Int.not_le, Bool.not_eq_true] at beyond
    obtain ⟨rfl, positive, first, room⟩ := beyond
    obtain ⟨p', same, differ⟩ := exists_other_tail terminated
    have equal := all p' (fun _ => 0) (fun _ => 0) same
    have fits : ¬ n.toNat ≤ strlen p.args := by omega
    rw [sysGetargs_eq terminated first positive, sysGetargs_eq (same.terminated terminated)
      (by rw [← same 0 (by simp)]; exact first) positive, same.strlen_eq,
      if_neg fits, if_neg fits] at equal
    have lists := (Prod.mk.inj (Option.some_inj.mp equal)).2
    have byte := congrArg (·[strlen p.args + 1]?) lists
    simp only [List.getElem?_map, List.getElem?_range room, Option.map_some,
      Option.some_inj] at byte
    exact differ _ _ byte
  · by_cases empty : p.args 0 = 0
    · rw [sysGetargs_empty empty, sysGetargs_empty (by rw [← same 0 (by simp)]; exact empty)]
    · by_cases refused : null = true ∨ n.toInt ≤ 0
      · rw [sysGetargs, if_pos refused, sysGetargs, if_pos refused]
      · obtain ⟨buffer, positive⟩ := not_or.mp refused
        have room : n.toNat ≤ strlen p.args + 1 :=
          ((within.resolve_left buffer).resolve_left positive).resolve_left empty
        have open_ : null = false := by simpa using buffer
        subst open_
        rw [sysGetargs_eq terminated empty (by omega), sysGetargs_eq (same.terminated terminated)
          (by rw [← same 0 (by simp)]; exact empty) (by omega), same.strlen_eq]
        have bytes : (List.range n.toNat).map (argsMemory p stack) =
            (List.range n.toNat).map (argsMemory p' stack') := by
          refine List.map_congr_left fun i hi => ?_
          have near := (strlen_argsMemory terminated stack).2
          have inside : i ≤ strlen p.args := by
            have bound := List.mem_range.mp hi
            omega
          rw [argsMemory, if_pos (by omega), argsMemory, if_pos (by omega)]
          exact same.eq_of_le (fun _ => before_strlen) inside
        rw [bytes]

end Getargs

end Execute

namespace System
open Lib.Runs Execute CString

def getargs (en : Entry) (null : Bool) (n : Word) (m : Machine) : Option (Word × List Byte) :=
  sysGetargs en.env.stack null n ((getPcb (espAt m en.depth)).map m.pcbs)

section RoundTrip

variable {img : Image} {behind : Memory} {f : Frame} {m : Machine} {s s₂ : System}

/-- The text behind the first word of a command comes back, whatever the program that
was started has done, if the buffer has room for it; without such a text the call fails. -/
theorem arguments_round_trip (zero : ∀ i, (m.pcbs i).active = 0)
    (reached : ∃ s₀ before, boot img behind f m = some s₀ ∧ run (step img) before s₀ = some s)
    {en : Entry} {command : Memory} {k : Fin 6}
    (ran : ∃ e l m₁ later, sysCall img en (.execute command) s.machine = some (.starts k e l, m₁) ∧
      Along (step img) (Continues k) later ⟨m₁, some k⟩ ∧
      run (step img) later ⟨m₁, some k⟩ = some s₂)
    (back : s₂.control = some k) :
    (∀ w gap a stop, CommandLine command w gap a stop → ∀ en' (n : Word), n.toInt ≤ 4096 →
      (a.length < n.toInt → ∃ stored, getargs en' false n s₂.machine = some (0, stored) ∧
        stored.length = n.toNat ∧ a ++ [0] <+: stored) ∧
      (n.toInt ≤ a.length → getargs en' false n s₂.machine = some (-1, []))) ∧
    ∀ w gap, BareLine command w gap → ∀ en' null n,
      getargs en' null n s₂.machine = some (-1, []) := by
  have block (program : parse command ≠ .quit) (en' : Entry) (null : Bool) (n : Word) :
      ∃ p old, getargs en' null n s₂.machine = sysGetargs en'.env.stack null n (some p) ∧
        p.args = strcpy old (args command) := by
    have started : Started img behind f m s en command k s₂ := ⟨zero, reached, program, ran, back⟩
    obtain ⟨r, -, st₂, -, table, kept⟩ := started.lives
    refine ⟨s₂.machine.pcbs k, (s.machine.pcbs k).args, ?_, by rw [kept]; rfl⟩
    rw [getargs, st₂.getPcb_espAt, Option.map_some]
  refine ⟨fun w gap a stop line en' n _ => ?_, fun w gap line en' null n => ?_⟩
  · have program := line.word.parse_ne_quit line.pieces.1 (Or.inr line.space)
    obtain ⟨p, old, eq, text⟩ := block program en' false n
    have room := line.room
    have gap_pos := line.gap_pos
    rw [eq]
    exact sysGetargs_text (text ▸ line.strcpy_holds old) line.nonempty
      (fun b hb => (line.text b hb).1) (by omega) _ _
  · obtain ⟨p, old, eq, text⟩ := block (line.word.parse_ne_quit line.pieces.1 line.ends) en' null n
    rw [eq]
    refine sysGetargs_empty ?_ _ _ _
    rw [text, strcpy_first, line.args_eq]

def shellLine (a : List Byte) : Memory :=
  literal (shellName ++ (List.replicate 1 0x20 ++ (a ++ [0x0A]))) fun _ => 0

theorem shellLine_commandLine : CommandLine (shellLine [0x78]) shellName 1 [0x78] 0x0A where
  word := ⟨by decide, by decide, by decide, by decide⟩
  holds := holds_literal _ _
  gap_pos := by decide
  nonempty := by decide
  first := by decide
  text := by decide
  stop := Or.inr rfl
  room := by decide

theorem arguments_round_trip_sample :
    ∃ s k e l m₁, boot (Image.sample 0) (fun _ => 0) ⟨0x7FFF00, 0⟩ coldStart = some s ∧
      sysCall (Image.sample 0) Entry.quiet (.execute (shellLine [0x78])) s.machine =
        some (.starts k e l, m₁) ∧
      ∃ stored, getargs Entry.quiet false 3 m₁ = some (0, stored) ∧ [0x78, 0] <+: stored := by
  have trace : ∃ s e l m₁,
      boot (Image.sample 0) (fun _ => 0) ⟨0x7FFF00, 0⟩ coldStart = some s ∧
      sysCall (Image.sample 0) Entry.quiet (.execute (shellLine [0x78])) s.machine =
        some (.starts 1 e l, m₁) := ⟨_, _, _, _, rfl, rfl⟩
  obtain ⟨s, e, l, m₁, hboot, hexec⟩ := trace
  have copied := (arguments_round_trip (fun _ => rfl) ⟨s, [], hboot, rfl⟩
    ⟨e, l, m₁, [], hexec, trivial, rfl⟩ rfl).1 _ _ _ _ shellLine_commandLine
    Entry.quiet 3 (by decide)
  obtain ⟨stored, eq, -, front⟩ := copied.1 (by decide)
  exact ⟨s, 1, e, l, m₁, hboot, hexec, stored, eq, front⟩

end RoundTrip

section Leftovers

def Reachable (s : System) : Prop :=
  ∃ img behind f m s₀ events, (∀ i, (m.pcbs i).active = 0) ∧ boot img behind f m = some s₀ ∧
    run (step img) events s₀ = some s

theorem Reachable.stacked {s : System} (h : Reachable s) : ∃ r, Stacked r s := by
  obtain ⟨img, behind, f, m, s₀, events, zero, hboot, hrun⟩ := h
  exact run_stacked zero hboot hrun

theorem Reachable.getargs_eq {s : System} (h : Reachable s) {r : Fin 6}
    (running : s.control = some r) (en : Entry) (null : Bool) (n : Word) :
    getargs en null n s.machine = sysGetargs en.env.stack null n (some (s.machine.pcbs r)) := by
  obtain ⟨q, st⟩ := h.stacked
  have own : q = r := Option.some_inj.mp (st.control.symm.trans running)
  subst own
  rw [getargs, st.getPcb_espAt, Option.map_some]

/-- Two processes with the same argument string get the same bytes within the string;
for every larger buffer some block with that string gives others. -/
theorem getargs_reveals_iff {s s' : System} (reached : Reachable s) (reached' : Reachable s')
    {r r' : Fin 6} (running : s.control = some r) (running' : s'.control = some r')
    (same : SameString (s.machine.pcbs r).args (s'.machine.pcbs r').args)
    (terminated : ∃ i < 128, (s.machine.pcbs r).args i = 0) (null : Bool) (n : Word) :
    (WithinString null n (s.machine.pcbs r) →
      ∀ en en', getargs en null n s.machine = getargs en' null n s'.machine) ∧
    ((∀ p stack stack', SameString (s.machine.pcbs r).args p.args →
      sysGetargs stack null n (some (s.machine.pcbs r)) = sysGetargs stack' null n (some p)) ↔
      WithinString null n (s.machine.pcbs r)) := by
  have exact_ := sysGetargs_same_iff terminated null n
  refine ⟨fun within en en' => ?_, exact_⟩
  rw [reached.getargs_eq running, reached'.getargs_eq running']
  exact exact_.mpr within _ _ _ same

def shortOnly : List Event := [.call Entry.quiet (.execute (shellLine [0x78]))]

def shortAfterLong : List Event :=
  .call Entry.quiet (.execute (shellLine [0x61, 0x62, 0x63])) :: .call Entry.quiet (.halt 0) ::
    shortOnly

def seen (k : Fin 6) (events : List Event) :
    Option (Option (Fin 6) × List Byte × Option (Word × List Byte)) :=
  (boot (Image.sample 0) (fun _ => 0) ⟨0x7FFF00, 0⟩ coldStart).bind fun s₀ =>
    (run (step (Image.sample 0)) events s₀).map fun s =>
      (s.control, (List.range 2).map (s.machine.pcbs k).args,
        getargs Entry.quiet false 3 s.machine)

theorem seen_state {events : List Event} {copied : Option (Word × List Byte)}
    (h : seen 1 events = some (some 1, [0x78, 0], copied)) :
    ∃ s, Reachable s ∧ s.control = some 1 ∧ Holds (s.machine.pcbs 1).args [0x78, 0] ∧
      getargs Entry.quiet false 3 s.machine = copied := by
  obtain ⟨s₀, hboot, h⟩ := Option.bind_eq_some_iff.mp h
  obtain ⟨s, hrun, h⟩ := Option.map_eq_some_iff.mp h
  simp only [Prod.mk.injEq] at h
  obtain ⟨control, bytes, copy⟩ := h
  refine ⟨s, ⟨_, _, _, _, s₀, events, fun _ => rfl, hboot, hrun⟩, control, ?_, copy⟩
  intro i b hb
  rw [← bytes] at hb
  obtain ⟨inside, value⟩ := List.getElem?_eq_some_iff.mp hb
  simpa using value

theorem seen_long :
    seen 1 shortAfterLong = some (some 1, [0x78, 0], some (0, [0x78, 0, 0x63])) := by
  decide +kernel

theorem seen_short : seen 1 shortOnly = some (some 1, [0x78, 0], some (0, [0x78, 0, 0])) := by
  decide +kernel

theorem getargs_reveals_iff_sample :
    ∃ s s', Reachable s ∧ Reachable s' ∧ s.control = some 1 ∧ s'.control = some 1 ∧
      SameString (s.machine.pcbs 1).args (s'.machine.pcbs 1).args ∧
      WithinString false 2 (s.machine.pcbs 1) ∧
      getargs Entry.quiet false 2 s.machine = getargs Entry.quiet false 2 s'.machine := by
  obtain ⟨s, reached, running, holds, -⟩ := seen_state seen_long
  obtain ⟨s', reached', running', holds', -⟩ := seen_state seen_short
  have same := holds.sameString (a := [0x78]) holds'
  have zero := holds 1 0 rfl
  have live : ∀ i, i < 1 → (s.machine.pcbs 1).args i ≠ 0 := by
    intro i hi
    obtain rfl : i = 0 := by omega
    rw [holds 0 0x78 rfl]
    decide
  have within : WithinString false 2 (s.machine.pcbs 1) := by
    refine Or.inr (Or.inr (Or.inr ?_))
    rw [strlen_eq live zero (by decide)]
    decide
  exact ⟨s, s', reached, reached', running, running', same, within,
    (getargs_reveals_iff reached reached' running running' same ⟨1, by decide, zero⟩ false 2).1
      within _ _⟩

/-- The longer string of an earlier program shows behind the shorter one. -/
theorem getargs_reveals_leftover :
    ∃ s s', Reachable s ∧ Reachable s' ∧ s.control = some 1 ∧ s'.control = some 1 ∧
      SameString (s.machine.pcbs 1).args (s'.machine.pcbs 1).args ∧
      (∃ i < 128, (s.machine.pcbs 1).args i = 0) ∧
      getargs Entry.quiet false 3 s.machine = some (0, [0x78, 0, 0x63]) ∧
      getargs Entry.quiet false 3 s'.machine = some (0, [0x78, 0, 0]) := by
  obtain ⟨s, reached, running, holds, copied⟩ := seen_state seen_long
  obtain ⟨s', reached', running', holds', copied'⟩ := seen_state seen_short
  exact ⟨s, s', reached, reached', running, running', holds.sameString (a := [0x78]) holds',
    ⟨1, by decide, holds 1 0 rfl⟩, copied, copied'⟩

end Leftovers

end System

end LumettaOS
