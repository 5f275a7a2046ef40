import LumettaOS.Itoa
import LumettaOS.Lib.Orbit

/-! `printf` of lib.c, one step for each look at the format and for each character of a
string that `puts` takes. What it prints is the list of bytes handed to `putc`: the
strings it reads are not in video memory. -/

namespace LumettaOS.Printf
open Lib.ByteLoop Lib.Orbit CString Itoa Word

inductive Phase where
  /-- At the head of the `while` loop. -/
  | text
  /-- At `format_char_switch`. -/
  | conversion (alternate : Bool)
  /-- In the loop of `puts`, called for a conversion. -/
  | puts (s : Memory) (index : Nat)
  | returned

/-- `buf` and `esp` count from the format and from the first argument on. -/
structure Scanner where
  phase : Phase
  buf : Nat
  esp : Nat
  out : List Byte

/-- What a call of `printf` finds: memory, its arguments, and what happens to be in
`conv_buf` when argument `i` is converted. -/
structure Call where
  mem : Ram
  format : Word
  args : Nat → Word
  convBuf : Nat → Memory

namespace Scanner

def start : Scanner := ⟨.text, 0, 0, []⟩

def reads (s : Scanner) : Option Nat :=
  match s.phase with
  | .text => some s.buf
  | .conversion _ => some s.buf
  | .puts _ _ => none
  | .returned => none

def emit (s : Scanner) (text : List Byte) : Scanner :=
  { s with phase := .text, buf := s.buf + 1, out := s.out ++ text }

def emitArg (s : Scanner) (text : List Byte) : Scanner :=
  { s.emit text with esp := s.esp + 1 }

/-- Call `puts` with what `itoa` has left; a call of `itoa` that does not return leaves
`printf` where it is. -/
def print (s : Scanner) : Option Memory → Scanner
  | some t => { s with phase := .puts t 0 }
  | none => s

end Scanner

def itoaAt (off : Nat) (value : Word) (convBuf : Memory) (radix : Word) : Option Memory :=
  (itoa value (fun i => convBuf (off + i)) radix).map
    fun t i => if i < off then convBuf i else t (i - off)

/-- The zeros go in front of the digits, as many as the string from index 8 on is short
of eight. -/
def padded (convBuf : Memory) : Memory :=
  let startingIndex := strlen fun i => convBuf (8 + i)
  let filled := fillFrom id 0x30 (8 - startingIndex) startingIndex convBuf
  fun i => filled (startingIndex + i)

def hexText (alternate : Bool) (value : Word) (convBuf : Memory) : Option Memory :=
  if alternate then (itoaAt 8 value convBuf 16).map padded else itoa value convBuf 16

def signedText (value : Word) (convBuf : Memory) : Option Memory :=
  if value.toInt < 0 then itoaAt 1 (-value) (Function.update convBuf 0 0x2D) 10
  else itoa value convBuf 10

namespace Call

variable (c : Call)

def byte (i : Nat) : Byte := c.mem (place c.format i)

def string (i : Nat) : Memory := fun j => c.mem (place (c.args i) j)

def convert (alternate : Bool) (b : Byte) (s : Scanner) : Scanner :=
  if b = 0x25 then s.emit [0x25]
  else if b = 0x23 then { s with phase := .conversion true, buf := s.buf + 1 }
  else if b = 0x78 then s.print (hexText alternate (c.args s.esp) (c.convBuf s.esp))
  else if b = 0x75 then s.print (itoa (c.args s.esp) (c.convBuf s.esp) 10)
  else if b = 0x64 then s.print (signedText (c.args s.esp) (c.convBuf s.esp))
  else if b = 0x63 then s.emitArg [(c.args s.esp).setWidth 8]
  else if b = 0x73 then s.print (some (c.string s.esp))
  else s.emit []

def step (s : Scanner) : Scanner :=
  match s.phase with
  | .text =>
    if c.byte s.buf = 0 then { s with phase := .returned }
    else if c.byte s.buf = 0x25 then { s with phase := .conversion false, buf := s.buf + 1 }
    else s.emit [c.byte s.buf]
  | .conversion alternate => c.convert alternate (c.byte s.buf) s
  | .puts t i =>
    if t i = 0 then s.emitArg [] else { s with phase := .puts t (i + 1), out := s.out ++ [t i] }
  | .returned => s

end Call

def signedNumeral (v : Int) : List Byte :=
  if v < 0 then 0x2D :: numeral 10 v.natAbs else numeral 10 v.natAbs

def hexNumeral (alternate : Bool) (v : Nat) : List Byte :=
  if alternate then List.replicate (8 - (numeral 16 v).length) 0x30 ++ numeral 16 v
  else numeral 16 v

section Texts

variable (v : Word) (convBuf : Memory)

theorem decimal_isString : ∃ t, itoa v convBuf 10 = some t ∧ IsString t (numeral 10 v.toNat) :=
  itoa_isString (by decide) (by decide) rfl v convBuf

theorem itoaAt_spec {b : Nat} {radix : Word} (hr : radix.toNat = b) (hb : 1 < b) (hb' : b ≤ 36)
    (off : Nat) :
    ∃ t, itoaAt off v convBuf radix = some t ∧ (∀ i, i < off → t i = convBuf i) ∧
      IsString (fun i => t (off + i)) (numeral b v.toNat) := by
  obtain ⟨t, written, string⟩ := itoa_isString hb hb' hr v fun i => convBuf (off + i)
  refine ⟨_, by rw [itoaAt, written, Option.map_some], fun i hi => if_pos hi, ?_⟩
  have behind : (fun i => if off + i < off then convBuf (off + i) else t (off + i - off)) = t := by
    funext i
    rw [if_neg (by omega), Nat.add_sub_cancel_left]
  rw [behind]
  exact string

theorem length_hex : (numeral 16 v.toNat).length ≤ 8 :=
  length_numeral (by decide) (by decide) v.isLt

theorem padded_isString {convBuf : Memory} {text : List Byte} (short : text.length ≤ 8)
    (h : IsString (fun i => convBuf (8 + i)) text) :
    IsString (padded convBuf) (List.replicate (8 - text.length) 0x30 ++ text) := by
  have filled : padded convBuf =
      fun i => fillFrom id 0x30 (8 - text.length) text.length convBuf (text.length + i) := by
    rw [padded, h.strlen (by omega)]
  rw [filled]
  refine ⟨?_, fun b hb => ?_⟩
  · rw [List.append_assoc]
    refine holds_append.mpr ⟨fun i b hb => ?_, fun i b hb => ?_⟩
    · obtain ⟨inside, value⟩ := List.getElem?_eq_some_iff.mp hb
      rw [List.length_replicate] at inside
      rw [List.getElem_replicate] at value
      rw [← value]
      exact fillFrom_at id 0x30 convBuf (j := text.length + i) (by omega) (by omega)
    · have place : text.length + ((List.replicate (8 - text.length) (0x30 : Byte)).length + i) =
          8 + i := by
        rw [List.length_replicate]
        omega
      dsimp only
      rw [place, fillFrom_other id 0x30 convBuf fun j _ hj => ?_]
      · exact h.holds i b hb
      · rw [id]
        omega
  · rcases List.mem_append.mp hb with zero | inside
    · rw [(List.mem_replicate.mp zero).2]
      decide
    · exact h.live b inside

theorem hexText_isString (alternate : Bool) :
    ∃ t, hexText alternate v convBuf = some t ∧ IsString t (hexNumeral alternate v.toNat) := by
  cases alternate with
  | false => exact itoa_isString (by decide) (by decide) rfl v convBuf
  | true =>
    obtain ⟨t, written, -, string⟩ :=
      itoaAt_spec v convBuf (show (16 : Word).toNat = 16 from rfl) (by decide) (by decide) 8
    refine ⟨padded t, ?_, padded_isString (length_hex v) string⟩
    rw [hexText, if_pos rfl, written, Option.map_some]

theorem toNat_neg_of_negative {v : Word} (h : v.toInt < 0) : (-v).toNat = v.toInt.natAbs := by
  rw [BitVec.toInt_eq_toNat_cond] at h ⊢
  have small := v.isLt
  split at h
  · omega
  · rw [if_neg (by assumption), BitVec.toNat_neg]
    omega

theorem signedText_isString :
    ∃ t, signedText v convBuf = some t ∧ IsString t (signedNumeral v.toInt) := by
  rw [signedText, signedNumeral]
  by_cases negative : v.toInt < 0
  · rw [if_pos negative, if_pos negative]
    obtain ⟨t, written, front, string⟩ := itoaAt_spec (-v) (Function.update convBuf 0 0x2D)
      (show (10 : Word).toNat = 10 from rfl) (by decide) (by decide) 1
    rw [toNat_neg_of_negative negative] at string
    refine ⟨t, written, isString_cons.mpr ⟨?_, by decide, ?_⟩⟩
    · rw [front 0 (by decide), Function.update_self]
    · have shifted : (fun i => t (i + 1)) = fun i => t (1 + i) := by
        funext i
        rw [Nat.add_comm]
      rw [shifted]
      exact string
  · have magnitude : v.toInt.natAbs = v.toNat := by
      have positive := toInt_of_nonneg (n := v) (by omega)
      omega
    rw [if_neg negative, if_neg negative, magnitude]
    exact decimal_isString v convBuf

end Texts

inductive Piece where
  | char (b : Byte)
  | conversion (alternate : Bool) (b : Byte)
  /-- The format ends inside a conversion. -/
  | unfinished
  deriving DecidableEq

def pieces : Option Bool → List Byte → List Piece
  | none, [] => []
  | none, b :: text => if b = 0x25 then pieces (some false) text else .char b :: pieces none text
  | some _, [] => [.unfinished]
  | some alternate, b :: text =>
    if b = 0x23 then pieces (some true) text else .conversion alternate b :: pieces none text

def takesWord (b : Byte) : Bool := b ∈ [0x78, 0x75, 0x64, 0x63, (0x73 : Byte)]

def Piece.words : Piece → Nat
  | .conversion _ b => if takesWord b then 1 else 0
  | _ => 0

def words (ps : List Piece) : Nat := (ps.map Piece.words).sum

namespace Call

variable (c : Call)

def specified (alternate : Bool) (b : Byte) (i : Nat) : List Byte :=
  if b = 0x25 then [0x25]
  else if b = 0x78 then hexNumeral alternate (c.args i).toNat
  else if b = 0x75 then numeral 10 (c.args i).toNat
  else if b = 0x64 then signedNumeral (c.args i).toInt
  else if b = 0x63 then [(c.args i).setWidth 8]
  else if b = 0x73 then chars (c.string i)
  else []

def printed : Piece → Nat → List Byte
  | .char b, _ => [b]
  | .conversion alternate b, i => c.specified alternate b i
  | .unfinished, _ => []

def render : List Piece → Nat → List Byte
  | [], _ => []
  | p :: ps, i => c.printed p i ++ render ps (i + p.words)

def outcome (len : Nat) (s : Scanner) (ps : List Piece) : Scanner :=
  ⟨.returned, len, s.esp + words ps, s.out ++ c.render ps s.esp⟩

theorem outcome_cons {len : Nat} {s s' : Scanner} {p : Piece} (esp : s'.esp = s.esp + p.words)
    (out : s'.out = s.out ++ c.printed p s.esp) (ps : List Piece) :
    c.outcome len s' ps = c.outcome len s (p :: ps) := by
  simp [outcome, words, render, esp, out, Nat.add_assoc]

end Call

def Inside (len : Nat) (s : Scanner) : Prop := ∀ p, s.reads = some p → p ≤ len

def Returned (n : Nat) (s : Scanner) : Prop := s.phase = .returned ∧ s.esp = n

section Steps

variable {c : Call} {s : Scanner} {len : Nat}

theorem inside_puts {t : Memory} {i : Nat} (h : s.phase = .puts t i) : Inside len s := by
  intro p hp
  rw [Scanner.reads, h] at hp
  cases hp

theorem puts_leads {t : Memory} {i : Nat} {text : List Byte} (phase : s.phase = .puts t i)
    (h : IsString (fun j => t (i + j)) text) :
    Leads c.step (Inside len) s (s.emitArg text) := by
  induction text generalizing s i with
  | nil =>
    have ends : t i = 0 := isString_nil.mp h
    have last : c.step s = s.emitArg [] := by rw [Call.step, phase]; exact if_pos ends
    rw [← last]
    exact .step s
  | cons b text ih =>
    obtain ⟨first, nonzero, rest⟩ := isString_cons.mp h
    have here : t i = b := first
    have one : c.step s = { s with phase := .puts t (i + 1), out := s.out ++ [b] } := by
      rw [Call.step, phase]
      dsimp only
      rw [here, if_neg nonzero]
    have same : s.emitArg (b :: text) = (c.step s).emitArg text := by
      rw [one]
      simp [Scanner.emitArg, Scanner.emit]
    rw [same]
    refine .next (inside_puts (t := t) (i := i + 1) (by rw [one])) (ih (by rw [one]) ?_)
    rw [from_succ]
    exact rest

theorem print_leads {r : Option Memory} {text : List Byte} (one : c.step s = s.print r)
    (h : ∃ t, r = some t ∧ IsString t text) : Leads c.step (Inside len) s (s.emitArg text) := by
  obtain ⟨t, rfl, string⟩ := h
  have phase : (c.step s).phase = .puts t 0 := by rw [one]; rfl
  have same : s.emitArg text = (c.step s).emitArg text := by rw [one]; rfl
  rw [same]
  refine .next (inside_puts phase) (puts_leads phase ?_)
  rw [from_zero]
  exact string

theorem leads_of_step {s' : Scanner} (one : c.step s = s') : Leads c.step (Inside len) s s' := by
  rw [← one]
  exact .step s

theorem conversion_leads {alternate : Bool} {b : Byte} (phase : s.phase = .conversion alternate)
    (here : c.byte s.buf = b) (specifier : b ≠ 0x23)
    (ends : b = 0x73 → ∃ k < 2 ^ 32, c.string s.esp k = 0) :
    Leads c.step (Inside len) s
      (if takesWord b then s.emitArg (c.specified alternate b s.esp)
        else s.emit (c.specified alternate b s.esp)) := by
  have one : c.step s = c.convert alternate b s := by rw [Call.step, phase, ← here]
  by_cases percent : b = 0x25
  · subst percent
    exact leads_of_step one
  by_cases x : b = 0x78
  · subst x
    exact print_leads one (hexText_isString (c.args s.esp) (c.convBuf s.esp) alternate)
  by_cases u : b = 0x75
  · subst u
    exact print_leads one (decimal_isString (c.args s.esp) (c.convBuf s.esp))
  by_cases d : b = 0x64
  · subst d
    exact print_leads one (signedText_isString (c.args s.esp) (c.convBuf s.esp))
  by_cases char : b = 0x63
  · subst char
    exact leads_of_step one
  by_cases str : b = 0x73
  · subst str
    obtain ⟨k, hk, zero⟩ := ends rfl
    exact print_leads (r := some (c.string s.esp)) one ⟨_, rfl, chars_isString zero hk⟩
  · have plain : takesWord b = false := by
      simp only [takesWord, List.mem_cons, x, u, d, char, str, List.not_mem_nil, or_self,
        decide_false]
    have nothing : c.specified alternate b s.esp = [] := by
      rw [Call.specified, if_neg percent, if_neg x, if_neg u, if_neg d, if_neg char, if_neg str]
    have skipped : c.convert alternate b s = s.emit [] := by
      rw [Call.convert, if_neg percent, if_neg specifier, if_neg x, if_neg u, if_neg d,
        if_neg char, if_neg str]
    rw [plain, nothing]
    exact leads_of_step (one.trans skipped)

def phaseOf : Option Bool → Phase
  | none => .text
  | some alternate => .conversion alternate

theorem reads_of_phase {mode : Option Bool} (phase : s.phase = phaseOf mode) :
    s.reads = some s.buf := by
  cases mode with
  | none => rw [Scanner.reads, phase, phaseOf]
  | some alternate => rw [Scanner.reads, phase, phaseOf]

theorem inside_of_phase {mode : Option Bool} (phase : s.phase = phaseOf mode) (h : s.buf ≤ len) :
    Inside len s := by
  intro p hp
  rw [reads_of_phase phase, Option.some_inj] at hp
  omega

theorem char_leads (len : Nat) {mode : Option Bool} {b : Byte} (phase : s.phase = phaseOf mode)
    (here : c.byte s.buf = b) (nonzero : b ≠ 0) (ends : ∃ k < 2 ^ 32, c.string s.esp k = 0)
    (text : List Byte) :
    ∃ s' mode', Leads c.step (Inside len) s s' ∧ s'.phase = phaseOf mode' ∧ s'.buf = s.buf + 1 ∧
      (.unfinished ∈ pieces mode (b :: text) ↔ .unfinished ∈ pieces mode' text) ∧
      c.outcome len s' (pieces mode' text) = c.outcome len s (pieces mode (b :: text)) := by
  cases mode with
  | none =>
    have one : c.step s = if b = 0 then { s with phase := .returned }
        else if b = 0x25 then { s with phase := .conversion false, buf := s.buf + 1 }
        else s.emit [b] := by
      rw [Call.step, phase, phaseOf, here]
    rw [if_neg nonzero] at one
    by_cases percent : b = 0x25
    · rw [if_pos percent] at one
      refine ⟨_, some false, leads_of_step one, rfl, rfl, ?_, ?_⟩
      · rw [pieces, if_pos percent]
      · rw [pieces, if_pos percent]
        rfl
    · rw [if_neg percent] at one
      refine ⟨_, none, leads_of_step one, rfl, rfl, ?_, ?_⟩
      · rw [pieces, if_neg percent]
        simp
      · rw [pieces, if_neg percent]
        exact c.outcome_cons rfl rfl _
  | some alternate =>
    by_cases hash : b = 0x23
    · have one : c.step s = { s with phase := .conversion true, buf := s.buf + 1 } := by
        rw [Call.step, phase, phaseOf, here, hash]
        rfl
      refine ⟨_, some true, leads_of_step one, rfl, rfl, ?_, ?_⟩
      · rw [pieces, if_pos hash]
      · rw [pieces, if_pos hash]
        rfl
    · refine ⟨_, none, conversion_leads phase here hash fun _ => ends, ?_, ?_, ?_, ?_⟩
      · split <;> rfl
      · split <;> rfl
      · rw [pieces, if_neg hash]
        simp
      · rw [pieces, if_neg hash]
        refine c.outcome_cons ?_ ?_ _
        · rw [Piece.words]
          split <;> rfl
        · split <;> rfl

theorem always_still (h : s.phase = .returned) : Always c.step (Inside len) s := by
  intro n
  have fixed : c.step s = s := by rw [Call.step, h]
  rw [Function.iterate_fixed fixed]
  intro p hp
  rw [Scanner.reads, h] at hp
  cases hp

/-- What is left of the format decides where the scanner goes. Inside a conversion it takes
the terminator for a specifier and goes on behind it. -/
theorem scan_spec (ends : ∀ i, ∃ k < 2 ^ 32, c.string i k = 0) {mode : Option Bool}
    {text : List Byte} (phase : s.phase = phaseOf mode)
    (h : IsString (fun i => c.byte (s.buf + i)) text) (length : s.buf + text.length = len) :
    (Always c.step (Inside len) s ↔ .unfinished ∉ pieces mode text) ∧
      (.unfinished ∉ pieces mode text →
        Eventually c.step (· = c.outcome len s (pieces mode text)) s) := by
  have here : Inside len s := inside_of_phase phase (by omega)
  induction text generalizing s mode with
  | nil =>
    have zero : c.byte s.buf = 0 := isString_nil.mp h
    rw [List.length_nil, Nat.add_zero] at length
    cases mode with
    | none =>
      have one : c.step s = { s with phase := .returned } := by
        rw [Call.step, phase, phaseOf]
        exact if_pos zero
      have final : c.outcome len s (pieces none []) = { s with phase := .returned } := by
        simp [Call.outcome, pieces, words, Call.render, length]
      refine ⟨⟨fun _ => by simp [pieces], fun _ => ?_⟩, fun _ => ⟨1, one.trans final.symm⟩⟩
      rw [always_next here, one]
      exact always_still rfl
    | some alternate =>
      have one : c.step s = s.emit [] := by
        rw [Call.step, phase, phaseOf, zero]
        rfl
      refine ⟨⟨fun all => ?_, fun none => absurd (by simp [pieces]) none⟩,
        fun none => absurd (by simp [pieces]) none⟩
      have behind : s.buf + 1 ≤ len := all 1 (s.buf + 1) (by rw [Function.iterate_one, one]; rfl)
      omega
  | cons b text ih =>
    obtain ⟨first, nonzero, rest⟩ := isString_cons.mp h
    obtain ⟨s', mode', leads, phase', buf, unfinished, outcome⟩ :=
      char_leads len phase first nonzero (ends s.esp) text
    rw [List.length_cons] at length
    have room : s'.buf + text.length = len := by omega
    obtain ⟨always, eventually⟩ := ih phase' (by rw [buf, from_succ]; exact rest) room
      (inside_of_phase phase' (by omega))
    rw [outcome] at eventually
    have stays : ∀ t, t = c.outcome len s (pieces mode (b :: text)) → c.step t = t := by
      rintro t rfl
      rfl
    rw [unfinished, leads.always_iff here, leads.eventually_iff stays]
    exact ⟨always, eventually⟩

end Steps

theorem string_ends {c : Call} {text : List Byte} (h : IsString c.byte text) (i : Nat) :
    ∃ k < 2 ^ 32, c.string i k = 0 := by
  obtain ⟨k, hk, same⟩ := exists_place (c.args i) (place c.format text.length)
  refine ⟨k, hk, ?_⟩
  rw [Call.string, same]
  exact h.ends

theorem scan_start {c : Call} {text : List Byte} (h : IsString c.byte text) :
    (Always c.step (Inside text.length) .start ↔ .unfinished ∉ pieces none text) ∧
      (.unfinished ∉ pieces none text →
        Eventually c.step (· = c.outcome text.length .start (pieces none text)) .start) := by
  have whole : (fun i => c.byte (Scanner.start.buf + i)) = c.byte := from_zero c.byte
  exact scan_spec (string_ends h) (show Scanner.start.phase = phaseOf none from rfl)
    (by rw [whole]; exact h) (Nat.zero_add _)

def Prints (c : Call) (s : Scanner) (text : List Byte) : Prop := ∃ n, c.step^[n] s = s.emitArg text

section Numbers

variable {c : Call} {s : Scanner} {v : Word}

theorem hex_denotes (v : Word) :
    (hexNumeral true v.toNat).length = 8 ∧ Denotes 16 v.toNat (hexNumeral true v.toNat) := by
  have short := length_hex v
  obtain ⟨ds, text, below, value⟩ :=
    (numeral_spec (b := 16) (by decide) (by decide) v.toNat).denotes
  rw [hexNumeral, if_pos rfl]
  refine ⟨?_, List.replicate (8 - (numeral 16 v.toNat).length) 0 ++ ds, ?_, ?_, ?_⟩
  · rw [List.length_append, List.length_replicate]
    omega
  · rw [List.map_append, List.map_replicate, ← text]
    rfl
  · intro d hd
    rcases List.mem_append.mp hd with zero | inside
    · rw [(List.mem_replicate.mp zero).2]
      decide
    · exact below d inside
  · rw [List.reverse_append, List.reverse_replicate, Nat.ofDigits_append_replicate_zero, value]

theorem number_prints {alternate : Bool} {b : Byte} (phase : s.phase = .conversion alternate)
    (here : c.byte s.buf = b) (number : b = 0x78 ∨ b = 0x75 ∨ b = 0x64) :
    Prints c s (c.specified alternate b s.esp) := by
  have specifier : b ≠ 0x23 ∧ b ≠ 0x73 ∧ takesWord b = true := by
    rcases number with rfl | rfl | rfl
    all_goals decide
  have leads : Leads c.step (Inside 0) s _ :=
    conversion_leads phase here specifier.1 fun str => absurd str specifier.2.1
  rw [if_pos specifier.2.2] at leads
  exact leads.reaches

end Numbers

/-- `itoa` writes the numeral of every word in every base up to 36, and the number
conversions of `printf` print the numeral of their argument: `%u` of the word, `%x` in base
16, `%d` of the signed value, and `%#x` with eight digits. -/
theorem numbers_round_trip (v : Word) :
    (∀ (b : Nat) (buf : Memory), 2 ≤ b → b ≤ 36 →
      ∃ t text, itoa v buf (BitVec.ofNat 32 b) = some t ∧ IsString t text ∧ text.length ≤ 32 ∧
        Numeral b v.toNat text) ∧
    ∀ (c : Call) (s : Scanner), c.args s.esp = v →
      (∀ alternate, s.phase = .conversion alternate → c.byte s.buf = 0x75 →
        ∃ text, Numeral 10 v.toNat text ∧ Prints c s text) ∧
      (s.phase = .conversion false → c.byte s.buf = 0x78 →
        ∃ text, Numeral 16 v.toNat text ∧ Prints c s text) ∧
      (∀ alternate, s.phase = .conversion alternate → c.byte s.buf = 0x64 →
        ∃ text, Numeral 10 v.toInt.natAbs text ∧
          Prints c s (if v.toInt < 0 then 0x2D :: text else text)) ∧
      (s.phase = .conversion true → c.byte s.buf = 0x78 →
        ∃ text, text.length = 8 ∧ Denotes 16 v.toNat text ∧ Prints c s text) := by
  refine ⟨fun b buf low high => ?_, fun c s arg => ⟨?_, ?_, ?_, ?_⟩⟩
  · have radix : (BitVec.ofNat 32 b).toNat = b := by
      rw [BitVec.toNat_ofNat, Nat.mod_eq_of_lt (by omega)]
    have small : v.toNat < b ^ 32 := lt_of_lt_of_le v.isLt (Nat.pow_le_pow_left low 32)
    obtain ⟨t, written, string⟩ := itoa_isString low high radix v buf
    exact ⟨t, _, written, string, length_numeral low (by decide) small,
      numeral_spec low high v.toNat⟩
  · intro alternate phase here
    have printed := number_prints phase here (.inr (.inl rfl))
    subst arg
    exact ⟨_, numeral_spec (by decide) (by decide) _, printed⟩
  · intro phase here
    have printed := number_prints phase here (.inl rfl)
    subst arg
    exact ⟨_, numeral_spec (by decide) (by decide) _, printed⟩
  · intro alternate phase here
    have printed := number_prints phase here (.inr (.inr rfl))
    subst arg
    exact ⟨_, numeral_spec (by decide) (by decide) _, printed⟩
  · intro phase here
    have printed := number_prints phase here (.inl rfl)
    subst arg
    exact ⟨_, (hex_denotes _).1, (hex_denotes _).2, printed⟩

def sampleCall (format : Memory) (v : Word) : Call :=
  ⟨fun a => format a.toNat, 0, fun _ => v, fun _ _ => 0⟩

theorem sampleCall_isString {text : List Byte} (live : ∀ b ∈ text, b ≠ 0)
    (small : text.length + 1 < 2 ^ 32) (rest : Memory) (v : Word) :
    IsString (sampleCall (literal text rest) v).byte text := by
  have whole := literal_isString live rest
  refine ⟨fun i b hb => ?_, live⟩
  obtain ⟨inside, -⟩ := List.getElem?_eq_some_iff.mp hb
  rw [List.length_append, List.length_singleton] at inside
  have address : (place 0 i).toNat = i := by
    rw [place, zero_add, BitVec.toNat_ofNat, Nat.mod_eq_of_lt (by omega)]
  change literal text rest (place 0 i).toNat = b
  rw [address]
  exact whole.holds i b hb

theorem numbers_round_trip_sample :
    ∃ text, Numeral 10 2147483648 text ∧
      Prints (sampleCall (literal [0x25, 0x64] fun _ => 0) 0x80000000)
        ⟨.conversion false, 1, 0, []⟩ (0x2D :: text) := by
  have all := (numbers_round_trip 0x80000000).2
    (sampleCall (literal [0x25, 0x64] fun _ => 0) 0x80000000) ⟨.conversion false, 1, 0, []⟩ rfl
  obtain ⟨text, value, printed⟩ := all.2.2.1 false rfl (by decide)
  have negative : (0x80000000 : Word).toInt < 0 := by decide
  rw [if_pos negative] at printed
  exact ⟨text, value, printed⟩

theorem printf_returns (c : Call) {text : List Byte} (h : IsString c.byte text)
    (finished : .unfinished ∉ pieces none text) :
    ∃ n, c.step^[n] .start = ⟨.returned, text.length, words (pieces none text),
      c.render (pieces none text) 0⟩ := by
  obtain ⟨n, reached⟩ := (scan_start h).2 finished
  refine ⟨n, reached.trans ?_⟩
  rw [Call.outcome, Scanner.start, Nat.zero_add, List.nil_append]

/-- The scanner looks at no character behind the terminator, returns, and has taken one
argument for each conversion. -/
structure EndsAtTerminator (c : Call) (text : List Byte) : Prop where
  inside : Always c.step (Inside text.length) .start
  returns : Eventually c.step (Returned (words (pieces none text))) .start

/-- The scanner ends at the terminator exactly for the formats that do not end inside a
conversion. -/
theorem scanner_ends_iff (c : Call) {text : List Byte} (h : IsString c.byte text) :
    EndsAtTerminator c text ↔ .unfinished ∉ pieces none text := by
  obtain ⟨always, eventually⟩ := scan_start h
  refine ⟨fun ends => always.mp ends.inside, fun finished => ⟨always.mpr finished, ?_⟩⟩
  obtain ⟨n, reached⟩ := eventually finished
  refine ⟨n, ?_⟩
  rw [reached]
  exact ⟨rfl, Nat.zero_add _⟩

theorem scanner_ends_iff_sample :
    IsString (sampleCall (literal [0x25, 0x23, 0x78] fun _ => 0) 7).byte [0x25, 0x23, 0x78] ∧
      EndsAtTerminator (sampleCall (literal [0x25, 0x23, 0x78] fun _ => 0) 7)
        [0x25, 0x23, 0x78] := by
  have string : IsString (sampleCall (literal [0x25, 0x23, 0x78] fun _ => 0) 7).byte
      [0x25, 0x23, 0x78] := sampleCall_isString (by decide) (by decide) _ 7
  exact ⟨string, (scanner_ends_iff _ string).mpr (by decide)⟩

/-- Behind a single percent sign the scanner steps over the terminator and prints what lies
behind it. -/
theorem terminator_stepped_over :
    IsString (sampleCall (literal [0x25] (literal [0x41] fun _ => 0)) 0).byte [0x25] ∧
      ¬ EndsAtTerminator (sampleCall (literal [0x25] (literal [0x41] fun _ => 0)) 0) [0x25] ∧
      ((sampleCall (literal [0x25] (literal [0x41] fun _ => 0)) 0).step^[4] .start).out =
        [0x41] := by
  refine ⟨sampleCall_isString (by decide) (by decide) _ 0, fun ends => ?_, by decide⟩
  have behind : 2 ≤ 1 := ends.inside 2 2 (by decide)
  omega

end LumettaOS.Printf
