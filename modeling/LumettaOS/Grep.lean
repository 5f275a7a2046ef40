import LumettaOS.UserPrograms

/-! The search of one file in ece391grep.c. The file is read through a buffer of 1024 bytes;
a line that does not end in the buffer is moved to its front before the next read. One byte
behind the buffer is looked at as well, before anything was stored there. -/

namespace LumettaOS.User
open Execute FileCalls CString Lib.Scan

def strcpyDown (shift : Nat) : (fuel i : Nat) → Memory → Memory
  | 0, _, data => data
  | fuel + 1, i, data =>
    if data (i + shift) = 0 then Function.update data i 0
    else strcpyDown shift fuel (i + 1) (Function.update data i (data (i + shift)))

/-- The condition of the loop over `check`. The text is `const char*`, which is signed,
and the buffer `uint8_t`. -/
def matchAt (data s : Memory) (sLen check : Nat) : Bool :=
  (s 0).toInt == (data check).toNat && strncmpAt (fun j => data (check + j)) s sLen 0 == 0

def filled (last : Nat) (data buf : Memory) : Memory := fun i =>
  if i < last then data i else buf (i - last)

section DoOneFile

variable (img : Image) (o : Outside) (s fname : Memory)

def showLine (lineStart : Nat) (data : Memory) : Program Unit := do
  fdputs img o 1 fname
  say img o ":"
  fdputs img o 1 (fun i => data (lineStart + i))
  say img o "\n"

def searchLine (lineStart lineEnd : Nat) (data : Memory) : Program Unit :=
  if scan (matchAt data s (strlen s)) (lineEnd - lineStart) lineStart < lineEnd then
    showLine img o fname lineStart data
  else pure ()

def searchLines (cnt last : Nat) : (fuel lineStart : Nat) → Memory → Program (Nat × Memory)
  | 0, _, _ => fun _ => none
  | fuel + 1, lineStart, data =>
    let lineEnd := scan (fun i => data i == 0x0A) (last - lineStart) lineStart
    let data' := Function.update data lineEnd 0
    if data lineEnd ≠ 0x0A ∧ cnt ≠ 0 ∧ lineStart ≠ 0 then
      return (last - lineStart, strcpyDown lineStart (2 ^ 32) 0 data')
    else do
      searchLine img o s fname lineStart lineEnd data'
      if last ≤ lineEnd + 1 then return (0, data')
      else searchLines cnt last fuel (lineEnd + 1) data'

/-- The outer loop; a line takes at least one round of the inner one, and the buffer has
1025 bytes. -/
def searchFile (fd : Word) : (fuel last : Nat) → Memory → Program Word
  | 0, _, _ => fun _ => none
  | fuel + 1, last, data => do
    let r ← read img o fd (fun i => data (last + i)) (BitVec.ofNat 32 (1024 - last))
    if r.1 = -1 then
      say img o "file read failed\n"
      return -1
    else
      let left ← searchLines img o s fname r.1.toNat (last + r.1.toNat) 1026 0
        (filled last data r.2)
      if r.1 = 0 then
        let closed ← close img o fd
        if closed = -1 then
          say img o "file close failed\n"
          return -1
        else return 0
      else searchFile fd fuel left.1 left.2

def doOneFile (fuel : Nat) (stack : Memory) : Program Word := do
  let fd ← «open» img o fname
  if fd = -1 then
    say img o "file open failed\n"
    return -1
  else searchFile img o s fname fd fuel 0 stack

end DoOneFile

/-- The text is in the line, and does not begin with a byte that is negative as a `char`. -/
def Finds (pattern line : List Byte) : Prop := pattern <:+: line ∧ pattern.headD 0 < 0x80

instance instDecidableFinds (pattern line : List Byte) : Decidable (Finds pattern line) :=
  inferInstanceAs (Decidable (_ ∧ _))

def lineText (pattern name line : List Byte) : List Byte :=
  if Finds pattern line then name ++ (ascii ":" ++ (line ++ ascii "\n")) else []

def lines (text : List Byte) : List (List Byte) := text.splitOn 0x0A

def pieces (line : List Byte) : List (List Byte) :=
  (List.range (line.length / 1024 + 1)).map fun i => (line.drop (1024 * i)).take 1024

def grepText (pattern name text : List Byte) : List Byte :=
  ((lines text).flatMap pieces).flatMap (lineText pattern name)

section Texts

variable {pattern name line rest : List Byte}

theorem lines_cons (h : 0x0A ∉ line) : lines (line ++ 0x0A :: rest) = line :: lines rest :=
  List.splitOn_append_cons_self_of_not_mem h rest

theorem lines_last (h : 0x0A ∉ line) : lines line = [line] := List.splitOn_eq_singleton h

theorem lines_append (h : 0x0A ∉ line) (rest : List Byte) :
    ∃ l more, lines rest = l :: more ∧ lines (line ++ rest) = (line ++ l) :: more := by
  by_cases newline : 0x0A ∈ rest
  · obtain ⟨a, b, rfl, plain⟩ := List.eq_append_cons_of_mem newline
    have first : 0x0A ∉ line ++ a := fun e => (List.mem_append.mp e).elim h plain
    refine ⟨a, lines b, lines_cons plain, ?_⟩
    rw [← List.append_assoc, lines_cons first]
  · have only : 0x0A ∉ line ++ rest := fun e => (List.mem_append.mp e).elim h newline
    exact ⟨rest, [], lines_last newline, lines_last only⟩

theorem pieces_short (h : line.length < 1024) : pieces line = [line] := by
  rw [pieces, Nat.div_eq_of_lt h]
  simp [List.take_of_length_le h.le]

theorem pieces_append (h : line.length = 1024) (rest : List Byte) :
    pieces (line ++ rest) = line :: pieces rest := by
  have count : (line ++ rest).length / 1024 + 1 = rest.length / 1024 + 1 + 1 := by
    rw [List.length_append, h, Nat.add_div_left _ (by decide)]
  rw [pieces, count, List.range_succ_eq_map, List.map_cons, List.map_map, pieces]
  congr 1
  · rw [Nat.mul_zero, List.drop_zero, ← h, List.take_left]
  · refine List.map_congr_left fun i _ => ?_
    have behind : 1024 * (i + 1) = line.length + 1024 * i := by omega
    show ((line ++ rest).drop (1024 * (i + 1))).take 1024 = _
    rw [behind, List.drop_append, List.drop_eq_nil_of_le (by omega), Nat.add_sub_cancel_left,
      List.nil_append]

theorem grepText_cons (h : 0x0A ∉ line) (short : line.length < 1024) :
    grepText pattern name (line ++ 0x0A :: rest) =
      lineText pattern name line ++ grepText pattern name rest := by
  rw [grepText, lines_cons h, List.flatMap_cons, pieces_short short]
  rfl

theorem grepText_nil (nonempty : pattern ≠ []) : grepText pattern name [] = [] := by
  have nothing : lineText pattern name [] = [] := by
    rw [lineText, if_neg fun found => nonempty (List.infix_nil.mp found.1)]
  have one : grepText pattern name [] = lineText pattern name [] ++ [] := rfl
  rw [one, nothing, List.append_nil]

theorem grepText_append (nonempty : pattern ≠ []) (h : 0x0A ∉ line)
    (cut : line.length = 1024 ∨ line.length < 1024 ∧ rest = []) :
    grepText pattern name (line ++ rest) =
      lineText pattern name line ++ grepText pattern name rest := by
  rcases cut with full | ⟨short, rfl⟩
  · obtain ⟨l, more, first, whole⟩ := lines_append h rest
    rw [grepText, whole, grepText, first, List.flatMap_cons, pieces_append full]
    rfl
  · rw [grepText_nil nonempty, List.append_nil, List.append_nil, grepText, lines_last h,
      List.flatMap_singleton, pieces_short short, List.flatMap_singleton]

end Texts

section Search

variable {data s : Memory} {pattern line : List Byte}

theorem char_toInt_eq_iff (b : Byte) : b.toInt = b.toNat ↔ b < 0x80 := by
  have bound := b.isLt
  rw [BitVec.toInt_eq_toNat_cond, BitVec.lt_def]
  split <;> simp <;> omega

theorem matchAt_iff (h : IsString s pattern) (nonempty : pattern ≠ []) (check : Nat) :
    matchAt data s pattern.length check = true ↔
      Holds (fun j => data (check + j)) pattern ∧ pattern.headD 0 < 0x80 := by
  have whole : IsString (fun j => s (0 + j)) pattern := by
    rw [from_zero]
    exact h
  have compare : strncmpAt (fun j => data (check + j)) s pattern.length 0 = 0 ↔
      Holds (fun j => data (check + (0 + j))) pattern := strncmpAt_eq_zero_iff whole
  simp only [Nat.zero_add] at compare
  rw [matchAt, Bool.and_eq_true, beq_iff_eq, beq_iff_eq, compare, and_comm]
  refine and_congr_right fun held => ?_
  obtain ⟨b, text, rfl⟩ := List.exists_cons_of_ne_nil nonempty
  have first : data check = b := held 0 b rfl
  rw [(isString_cons.mp h).1, first]
  exact char_toInt_eq_iff b

theorem infix_iff (held : IsString data line) (live : ∀ b ∈ pattern, b ≠ 0)
    (nonempty : pattern ≠ []) :
    pattern <:+: line ↔ ∃ j < line.length, Holds (fun i => data (j + i)) pattern := by
  have front := (holds_append.mp held.holds).1
  refine ⟨fun ⟨a, b, e⟩ => ?_, fun ⟨j, hj, at_j⟩ => ?_⟩
  · rw [← e, List.append_assoc] at front
    have some_ := List.length_pos_iff.mpr nonempty
    refine ⟨a.length, ?_, (holds_append.mp (holds_append.mp front).2).1⟩
    rw [← e, List.length_append, List.length_append]
    omega
  · -- the terminator of the line is not in the pattern, so the pattern ends before it
    have inside : j + pattern.length ≤ line.length := by
      by_contra far
      have byte := at_j (line.length - j) _ (List.getElem?_eq_getElem (by omega))
      have zero : data (j + (line.length - j)) = 0 := by
        rw [Nat.add_sub_of_le hj.le]
        exact held.ends
      exact live _ (List.getElem_mem _) (byte.symm.trans zero)
    have taken : pattern = (line.drop j).take pattern.length := by
      refine List.ext_getElem (by simp; omega) fun i hi _ => ?_
      have byte := at_j i _ (List.getElem?_eq_getElem hi)
      have same := front (j + i) _ (List.getElem?_eq_getElem (by omega))
      rw [List.getElem_take, List.getElem_drop, ← same]
      exact byte.symm
    rw [taken]
    exact (List.take_prefix _ _).isInfix.trans (List.drop_suffix _ _).isInfix

theorem search_iff {lineStart : Nat} (h : IsString s pattern) (nonempty : pattern ≠ [])
    (held : IsString (fun i => data (lineStart + i)) line) :
    scan (matchAt data s pattern.length) line.length lineStart < lineStart + line.length ↔
      Finds pattern line := by
  rw [scan_lt_iff, Finds, infix_iff held h.live nonempty]
  simp only [matchAt_iff h nonempty, Nat.add_assoc, ← and_assoc, exists_and_right]

end Search

section Copy

variable {data : Memory} {text : List Byte}

/-- Copying down: each byte is read before the copy has got to its place. -/
theorem strcpyDown_spec {shift fuel i : Nat} (up : 0 < shift) (enough : text.length < fuel)
    (h : IsString (fun j => data (i + shift + j)) text) :
    Holds (fun j => strcpyDown shift fuel i data (i + j)) (text ++ [0]) ∧
      ∀ a, a < i ∨ i + text.length < a → strcpyDown shift fuel i data a = data a := by
  induction text generalizing fuel i data with
  | nil =>
    obtain ⟨fuel, rfl⟩ : ∃ n, fuel = n + 1 := ⟨fuel - 1, by omega⟩
    have zero : data (i + shift) = 0 := isString_nil.mp h
    rw [strcpyDown, if_pos zero]
    refine ⟨holds_singleton.mpr (Function.update_self ..), fun a other => ?_⟩
    rw [List.length_nil] at other
    exact Function.update_of_ne (by omega) _ _
  | cons b text ih =>
    obtain ⟨fuel, rfl⟩ : ∃ n, fuel = n + 1 := ⟨fuel - 1, by omega⟩
    obtain ⟨first, nonzero, rest⟩ := isString_cons.mp h
    have here : data (i + shift) = b := first
    have next : IsString (fun j => Function.update data i b (i + 1 + shift + j)) text := by
      have same : (fun j => Function.update data i b (i + 1 + shift + j)) =
          fun j => data (i + shift + (j + 1)) := by
        funext j
        rw [Function.update_of_ne (by omega)]
        congr 1
        omega
      rw [same]
      exact rest
    rw [List.length_cons] at enough
    obtain ⟨held, kept⟩ := ih (show text.length < fuel by omega) next
    rw [strcpyDown, here, if_neg nonzero, List.cons_append]
    refine ⟨holds_cons.mpr ⟨?_, ?_⟩, fun a other => ?_⟩
    · exact (kept i (Or.inl (by omega))).trans (Function.update_self ..)
    · simpa only [Nat.add_assoc] using held
    · rw [List.length_cons] at other
      rw [kept a (by omega), Function.update_of_ne (by omega)]

end Copy

section Show

variable {img : Image} {o : Outside} {w : World} {fname data : Memory} {name line : List Byte}

theorem showLine_prints (std : Stdout w) (named : IsString fname name) (some_ : name ≠ [])
    (short : name.length < 2 ^ 31) {lineStart : Nat}
    (held : IsString (fun i => data (lineStart + i)) line) (nonempty : line ≠ [])
    (small : line.length < 2 ^ 31) :
    ∃ w', showLine img o fname lineStart data w = some ((), w') ∧ w'.task.pcb = w.task.pcb ∧
      Prints o w (name ++ (ascii ":" ++ (line ++ ascii "\n"))) w' := by
  obtain ⟨w₁, h₁, pcb₁, prints₁⟩ := fdputs_stdout img o std named some_ short
  have std₁ := std.of_pcb pcb₁
  obtain ⟨w₂, h₂, pcb₂, prints₂⟩ := say_stdout img o std₁ ":" rfl
  have std₂ := std₁.of_pcb pcb₂
  obtain ⟨w₃, h₃, pcb₃, prints₃⟩ := fdputs_stdout img o std₂ held nonempty small
  obtain ⟨w₄, h₄, pcb₄, prints₄⟩ := say_stdout img o (std₂.of_pcb pcb₃) "\n" rfl
  refine ⟨w₄, ?_, by rw [pcb₄, pcb₃, pcb₂, pcb₁],
    prints₁.trans (prints₂.trans (prints₃.trans prints₄))⟩
  rw [showLine, bind_apply, h₁, Option.bind_some, bind_apply, h₂, Option.bind_some, bind_apply, h₃,
    Option.bind_some, h₄]

end Show

section Lines

variable {data : Memory} {line rest : List Byte} {lineStart last : Nat}

theorem lineEnd_eq (held : Holds (fun i => data (lineStart + i)) (line ++ rest))
    (length : lineStart + (line ++ rest).length = last) (plain : 0x0A ∉ line)
    (next : ∀ b ∈ rest.head?, b = 0x0A) :
    scan (fun i => data i == 0x0A) (last - lineStart) lineStart = lineStart + line.length := by
  rw [List.length_append] at length
  refine scan_eq _ _ _ (by omega) (by omega) (fun i low high => ?_) fun inside => ?_
  · have byte := (holds_append.mp held).1.at (i := i - lineStart) (by omega)
    simp only [Nat.add_sub_of_le low] at byte
    simpa using fun e : data i = 0x0A => plain (e ▸ byte)
  · cases rest with
    | nil =>
      rw [List.length_nil] at length
      omega
    | cons b rest =>
      have byte := (holds_append.mp held).2 0 b rfl
      have newline : b = 0x0A := next b rfl
      rw [newline] at byte
      simpa using byte

theorem terminated_isString (held : Holds (fun i => data (lineStart + i)) line)
    (live : ∀ b ∈ line, b ≠ 0) :
    IsString (fun i => Function.update data (lineStart + line.length) 0 (lineStart + i)) line := by
  refine ⟨holds_append.mpr ⟨fun i b hb => ?_, holds_singleton.mpr (by simp)⟩, live⟩
  have inside := (List.getElem?_eq_some_iff.mp hb).1
  exact (Function.update_of_ne (by omega) _ _).trans (held i b hb)

end Lines

section Loops

variable {img : Image} {o : Outside} {s fname : Memory} {pattern name : List Byte}
  (wanted : IsString s pattern) (nonempty : pattern ≠ []) (small : pattern.length < 2 ^ 32)
  (named : IsString fname name) (some_ : name ≠ []) (short : name.length < 2 ^ 31)
include wanted nonempty small named some_ short

theorem searchLine_prints {w : World} (std : Stdout w) {data : Memory} {line : List Byte}
    {lineStart : Nat} (held : IsString (fun i => data (lineStart + i)) line)
    (fits : line.length < 2 ^ 31) :
    ∃ w', searchLine img o s fname lineStart (lineStart + line.length) data w = some ((), w') ∧
      w'.task.pcb = w.task.pcb ∧ Prints o w (lineText pattern name line) w' := by
  rw [searchLine, lineText, wanted.strlen small.le, Nat.add_sub_cancel_left]
  by_cases found : Finds pattern line
  · have filled : line ≠ [] := fun e => nonempty (List.infix_nil.mp (e ▸ found.1))
    rw [if_pos ((search_iff wanted nonempty held).mpr found), if_pos found]
    exact showLine_prints std named some_ short held filled fits
  · rw [if_neg (mt (search_iff wanted nonempty held).mp found), if_neg found]
    exact ⟨w, rfl, rfl, .refl o w⟩

/-- What the inner loop leaves when the buffer held `bs` and `rem` is still in the file: `pre`
at the front of the buffer, to be searched together with `rem`. -/
structure Left (o : Outside) (pattern name bs rem pre : List Byte) (cnt : Nat) (w : World)
    (left : Nat × Memory) (w' : World) : Prop where
  pcb : w'.task.pcb = w.task.pcb
  size : left.1 = pre.length
  room : pre.length < 1024
  held : Holds left.2 pre
  behind : left.2 1024 ≠ 0x0A
  sub : ∀ b ∈ pre, b ∈ bs
  ended : cnt = 0 → pre = []
  shown : ∃ text, Prints o w text w' ∧
    grepText pattern name (bs ++ rem) = text ++ grepText pattern name (pre ++ rem)

omit wanted nonempty small named some_ short in
theorem Left.searched {bs rem text : List Byte} {cnt : Nat} {w w' : World} {data : Memory}
    (pcb : w'.task.pcb = w.task.pcb) (behind : data 1024 ≠ 0x0A) (prints : Prints o w text w')
    (same : grepText pattern name (bs ++ rem) = text ++ grepText pattern name rem) :
    Left o pattern name bs rem [] cnt w (0, data) w' where
  pcb := pcb
  size := rfl
  room := by decide
  held := fun i b hb => by simp at hb
  behind := behind
  sub := fun b hb => by simp at hb
  ended := fun _ => rfl
  shown := ⟨text, prints, same⟩

omit wanted nonempty small named some_ short in
theorem behind_update {data : Memory} (behind : data 1024 ≠ 0x0A) (a : Nat) :
    Function.update data a 0 1024 ≠ 0x0A := by
  by_cases e : 1024 = a
  · rw [← e, Function.update_self]
    decide
  · rw [Function.update_of_ne e]
    exact behind

section Inner

variable {cnt last : Nat} {rem : List Byte} (top : last ≤ 1024) (full : last = 1024 ∨ rem = [])
  (eof : cnt = 0 → rem = [])

variable (img o) in
theorem line_in_buffer {w : World} (std : Stdout w) {data : Memory} {line rest : List Byte}
    {lineStart : Nat} (held : Holds (fun i => data (lineStart + i)) (line ++ rest))
    (live : ∀ b ∈ line, b ≠ 0) (fits : line.length < 2 ^ 31) :
    ∃ w', searchLine img o s fname lineStart (lineStart + line.length)
        (Function.update data (lineStart + line.length) 0) w = some ((), w') ∧
      w'.task.pcb = w.task.pcb ∧ Prints o w (lineText pattern name line) w' :=
  searchLine_prints wanted nonempty small named some_ short std
    (terminated_isString (holds_append.mp held).1 live) fits

include top full eof

/-- No newline is left in the buffer: the rest of the buffer is moved to its front, or it is
a whole line. -/
theorem searchLines_last (fuel : Nat) {w : World} (std : Stdout w) {data : Memory}
    {bs : List Byte} {lineStart : Nat} (held : Holds (fun i => data (lineStart + i)) bs)
    (length : lineStart + bs.length = last) (live : ∀ b ∈ bs, b ≠ 0)
    (behind : data 1024 ≠ 0x0A) (plain : 0x0A ∉ bs) :
    ∃ left w' pre, searchLines img o s fname cnt last (fuel + 1) lineStart data w =
      some (left, w') ∧ Left o pattern name bs rem pre cnt w left w' := by
  have whole : Holds (fun i => data (lineStart + i)) (bs ++ []) := by
    rw [List.append_nil]
    exact held
  have lineEnd : scan (fun i => data i == 0x0A) (last - lineStart) lineStart = last := by
    have size : lineStart + (bs ++ []).length = last := by
      rw [List.append_nil]
      exact length
    rw [lineEnd_eq whole size plain (by simp), length]
  have kept := behind_update behind last
  by_cases moved : data last ≠ 0x0A ∧ cnt ≠ 0 ∧ lineStart ≠ 0
  · have started := Nat.pos_of_ne_zero moved.2.2
    have shifted : IsString (fun j => Function.update data last 0 (0 + lineStart + j)) bs := by
      rw [Nat.zero_add, ← length]
      exact terminated_isString held live
    obtain ⟨front, other⟩ := strcpyDown_spec started
      (show bs.length < 2 ^ 32 by omega) shifted
    simp only [Nat.zero_add] at front other
    refine ⟨(last - lineStart, strcpyDown lineStart (2 ^ 32) 0 (Function.update data last 0)), w,
      bs, ?_, ?_⟩
    · rw [searchLines, lineEnd, if_pos moved]
      rfl
    · exact {
        pcb := rfl
        size := show last - lineStart = bs.length by omega
        room := by omega
        held := (holds_append.mp front).1
        behind := by
          show strcpyDown lineStart (2 ^ 32) 0 (Function.update data last 0) 1024 ≠ 0x0A
          rw [other 1024 (Or.inr (by omega))]
          exact kept
        sub := fun b hb => hb
        ended := fun none => absurd none moved.2.1
        shown := ⟨[], .refl o w, rfl⟩ }
  · -- the line is complete: the file has no more bytes, or the line fills the buffer
    have complete : bs.length = 1024 ∨ rem = [] := by
      by_cases start : lineStart = 0
      · rw [start, Nat.zero_add] at length
        rwa [length]
      · by_cases none : cnt = 0
        · exact Or.inr (eof none)
        · have newline : data last = 0x0A := by
            by_contra other
            exact moved ⟨other, none, start⟩
          exact Or.inr (full.resolve_left fun e => behind (e ▸ newline))
    have cut : bs.length = 1024 ∨ bs.length < 1024 ∧ rem = [] := by
      rcases complete with full | none
      · exact Or.inl full
      · exact (by omega : bs.length = 1024 ∨ bs.length < 1024).imp_right fun e => ⟨e, none⟩
    obtain ⟨w', found, pcb, prints⟩ := line_in_buffer img o wanted nonempty small named some_
      short std whole live (by omega)
    rw [length] at found
    refine ⟨(0, Function.update data last 0), w', [], ?_, ?_⟩
    · rw [searchLines, lineEnd, if_neg moved, bind_apply, found, Option.bind_some,
        if_pos (Nat.le_succ last)]
      rfl
    · exact .searched pcb kept prints (grepText_append nonempty plain cut)

variable (img o) in
theorem searchLines_left (fuel : Nat) {w : World} (std : Stdout w) {data : Memory}
    {bs : List Byte} {lineStart : Nat} (enough : bs.length < fuel)
    (held : Holds (fun i => data (lineStart + i)) bs) (length : lineStart + bs.length = last)
    (live : ∀ b ∈ bs, b ≠ 0) (behind : data 1024 ≠ 0x0A) :
    ∃ left w' pre, searchLines img o s fname cnt last fuel lineStart data w = some (left, w') ∧
      Left o pattern name bs rem pre cnt w left w' := by
  induction fuel generalizing w data bs lineStart with
  | zero => omega
  | succ fuel ih =>
    by_cases more : 0x0A ∈ bs
    · obtain ⟨line, rest, rfl, plain⟩ := List.eq_append_cons_of_mem more
      have newline : ∀ b ∈ (0x0A :: rest).head?, b = (0x0A : Byte) := by simp
      have lineEnd := lineEnd_eq held length plain newline
      have byte : data (lineStart + line.length) = 0x0A := (holds_append.mp held).2 0 _ rfl
      have stay : ¬ (data (lineStart + line.length) ≠ 0x0A ∧ cnt ≠ 0 ∧ lineStart ≠ 0) :=
        fun e => e.1 byte
      rw [List.length_append, List.length_cons] at length enough
      have first : ∀ b ∈ line, b ≠ 0 := fun b hb => live b (List.mem_append_left _ hb)
      obtain ⟨w₁, found, pcb₁, prints₁⟩ := line_in_buffer img o wanted nonempty small named some_
        short std held first (by omega)
      have text : grepText pattern name (line ++ 0x0A :: rest ++ rem) =
          lineText pattern name line ++ grepText pattern name (rest ++ rem) := by
        rw [List.append_assoc, List.cons_append, grepText_cons plain (by omega)]
      have kept := behind_update behind (lineStart + line.length)
      by_cases empty : rest = []
      · subst empty
        rw [List.length_nil] at length
        refine ⟨(0, Function.update data (lineStart + line.length) 0), w₁, [], ?_, ?_⟩
        · rw [searchLines, lineEnd, if_neg stay, bind_apply, found, Option.bind_some,
            if_pos (by omega)]
          rfl
        · exact .searched pcb₁ kept prints₁ text
      · have there := List.length_pos_iff.mpr empty
        have behind_ : Holds (fun i => Function.update data (lineStart + line.length) 0
            (lineStart + line.length + 1 + i)) rest := by
          intro i b hb
          have byte := (holds_append.mp held).2 (i + 1) b hb
          show Function.update data (lineStart + line.length) 0 _ = b
          rw [Function.update_of_ne (by omega), ← byte]
          congr 1
          omega
        obtain ⟨left, w', pre, run, leaves⟩ := ih (std.of_pcb pcb₁) (by omega) behind_
          (by omega) (fun b hb => live b (List.mem_append_right _ (List.mem_cons_of_mem _ hb)))
          kept
        obtain ⟨shownRest, prints', same⟩ := leaves.shown
        refine ⟨left, w', pre, ?_, ?_⟩
        · rw [searchLines, lineEnd, if_neg stay, bind_apply, found, Option.bind_some,
            if_neg (by omega), run]
        · exact {
            leaves with
            pcb := leaves.pcb.trans pcb₁
            sub := fun b hb => List.mem_append_right _ (List.mem_cons_of_mem _ (leaves.sub b hb))
            shown := ⟨_, prints₁.trans prints', by rw [text, same, List.append_assoc]⟩ }
    · exact searchLines_last wanted nonempty small named some_ short top full eof fuel std held
        length live behind more

end Inner

section Outer

omit wanted nonempty small named some_ short

theorem filled_holds {data : Memory} {pre : List Byte} (held : Holds data pre)
    (piece : List Byte) :
    Holds (filled pre.length data (overlay piece fun i => data (pre.length + i)))
      (pre ++ piece) := by
  refine holds_append.mpr ⟨fun i b hb => ?_, fun i b hb => ?_⟩
  · have inside := (List.getElem?_eq_some_iff.mp hb).1
    rw [filled, if_pos inside]
    exact held i b hb
  · show filled pre.length data _ (pre.length + i) = b
    rw [filled, if_neg (by omega), Nat.add_sub_cancel_left]
    exact overlay_holds piece _ i b hb

theorem filled_behind {data : Memory} {last a : Nat} {piece : List Byte}
    (h : last + piece.length ≤ a) :
    filled last data (overlay piece fun i => data (last + i)) a = data a := by
  rw [filled, if_neg (by omega), overlay, List.getD_eq_default _ _ (by omega)]
  congr 1
  omega

variable {fd nd : Word} (h2 : 2 ≤ fd.toNat) (h8 : fd.toNat < 8)
include h2 h8

theorem close_file {w : World} {asked : Nat} (h : OnFile img fd nd asked w.task) (o : Outside) :
    ∃ w', close img o fd w = some (0, w') ∧ Prints o w [] w' := by
  have live : ((o.meets w).desc (index fd)).flag ≠ 0 := h.isOpen
  rcases sysClose_cases fd (o.meets w) with ⟨-, bad⟩ | ⟨-, -, -, done⟩
  · rcases bad with low | high | free
    · omega
    · omega
    · exact absurd free live
  · have performed : perform img (o.env w.calls) (.close fd) (o.meets w) =
        some ⟨0, [], (sysClose fd (o.meets w)).2⟩ := by rw [perform, done]
    have called := call_apply performed
    rw [shown_close, List.append_nil] at called
    have closed : close img o fd w =
        some (0, ⟨(sysClose fd (o.meets w)).2, w.calls + 1, w.out⟩) := by
      rw [close, bind_apply, called]
      rfl
    refine ⟨_, closed, (List.append_nil _).symm, fun quiet => ?_⟩
    rw [done]
    exact quiet w.calls w.task.dev

variable (hn : nd < img.nnod) (hl : (img.len nd).toNat ≤ 1023 * 4096)
include hn hl

theorem read_next {w : World} (std : Stdout w) {asked : Nat} (h : OnFile img fd nd asked w.task)
    (o : Outside) (buf : Memory) {n : Nat} (some_ : 0 < n) (small : n ≤ 1024) :
    ∃ piece rem w', read img o fd buf (BitVec.ofNat 32 n) w =
        some ((BitVec.ofNat 32 piece.length, overlay piece buf), w') ∧
      (img.content nd).drop asked = piece ++ rem ∧ (img.content nd).drop (asked + n) = rem ∧
      piece.length ≤ n ∧ (piece.length = n ∨ rem = []) ∧ (piece.length = 0 → rem = []) ∧
      OnFile img fd nd (asked + n) w'.task ∧ Stdout w' ∧ Prints o w [] w' := by
  obtain ⟨positive, -, -⟩ := small_count some_ small
  obtain ⟨w', hr, next, others, quiet⟩ := read_file h2 h8 hn hl h o buf positive.le
  have count : (((img.content nd).drop asked).take n).length =
      min n ((img.len nd).toNat - asked) := by simp
  rw [small_toNat small, ← count] at hr
  rw [small_toNat small] at next
  have past : (img.len nd).toNat ≤ asked + n → (img.content nd).drop (asked + n) = [] := fun e =>
    List.drop_eq_nil_of_le (by rwa [img.length_content])
  refine ⟨_, _, w', hr, ?_, rfl, List.length_take_le _ _, ?_, fun none => past ?_, next,
    std.of_desc (others 1 (index_ne_one h2 h8)), quiet⟩
  · rw [← List.drop_drop, List.take_append_drop]
  · by_cases more : (img.len nd).toNat ≤ asked + n
    · exact Or.inr (past more)
    · exact Or.inl (by omega)
  · omega

variable (live : ∀ b ∈ img.content nd, b ≠ 0)
include wanted nonempty small named some_ short live

theorem searchFile_shows (fuel : Nat) {w : World} (std : Stdout w) {asked : Nat}
    (h : OnFile img fd nd asked w.task) {data : Memory} {pre : List Byte}
    (held : Holds data pre) (room : pre.length < 1024) (nonzero : ∀ b ∈ pre, b ≠ 0)
    (behind : data 1024 ≠ 0x0A) (enough : (img.content nd).length - asked < fuel) :
    ∃ w', searchFile img o s fname fd fuel pre.length data w = some (0, w') ∧
      Prints o w (grepText pattern name (pre ++ (img.content nd).drop asked)) w' := by
  induction fuel generalizing w asked data pre with
  | zero => omega
  | succ fuel ih =>
    obtain ⟨piece, rem, w₁, hr, text, rest, bound, whole, eof, next, std₁, quiet₁⟩ :=
      read_next h2 h8 hn hl std h o (fun i => data (pre.length + i))
        (show 0 < 1024 - pre.length by omega) (Nat.sub_le _ _)
    have from_file : ∀ b ∈ piece, b ≠ 0 := fun b hb =>
      live b (List.mem_of_mem_drop (text ▸ List.mem_append_left _ hb))
    have fits : pre.length + piece.length ≤ 1024 := by omega
    have value : (BitVec.ofNat 32 piece.length).toNat = piece.length := small_toNat (by omega)
    have ok : BitVec.ofNat 32 piece.length ≠ (-1 : Word) := fun e => by
      have top : piece.length = (-1 : Word).toNat := by rw [← value, e]
      have big : (-1 : Word).toNat = 2 ^ 32 - 1 := by decide
      omega
    have buffer := filled_holds held piece
    rw [← from_zero (filled pre.length data _)] at buffer
    obtain ⟨left, w₂, pre', run, leaves⟩ := searchLines_left img o wanted nonempty
      small named some_ short fits (whole.imp_left fun e => by omega) eof 1026 std₁
      (show (pre ++ piece).length < 1026 by rw [List.length_append]; omega) buffer
      (by rw [List.length_append, Nat.zero_add])
      (fun b hb => (List.mem_append.mp hb).elim (nonzero b) (from_file b))
      (by rw [filled_behind fits]; exact behind)
    obtain ⟨shownText, prints, same⟩ := leaves.shown
    rw [text, ← List.append_assoc, same]
    have started := quiet₁.silent_trans prints
    have on₂ : OnFile img fd nd (asked + (1024 - pre.length)) w₂.task := by
      refine ⟨?_, next.2⟩
      rw [desc_of_pcb leaves.pcb]
      exact next.1
    by_cases last : piece.length = 0
    · have zero : BitVec.ofNat 32 piece.length = (0 : Word) := by
        rw [last]
        rfl
      obtain ⟨w₃, closed, quiet₃⟩ := close_file h2 h8 on₂ o
      refine ⟨w₃, ?_, ?_⟩
      · rw [searchFile, bind_apply, hr, Option.bind_some, if_neg ok, bind_apply, value, run,
          Option.bind_some, if_pos zero, bind_apply, closed, Option.bind_some,
          if_neg (show (0 : Word) ≠ -1 by decide)]
        rfl
      · rw [leaves.ended last, eof last, List.append_nil, grepText_nil nonempty]
        exact started.trans quiet₃
    · have more : BitVec.ofNat 32 piece.length ≠ (0 : Word) := fun e =>
        last (by rw [← value, e]; rfl)
      have length := congrArg List.length text
      rw [List.length_drop, List.length_append] at length
      obtain ⟨w₃, run₃, prints₃⟩ := ih (std₁.of_pcb leaves.pcb) on₂ leaves.held leaves.room
        (fun b hb => (List.mem_append.mp (leaves.sub b hb)).elim (nonzero b) (from_file b))
        leaves.behind (by omega)
      rw [rest] at prints₃
      refine ⟨w₃, ?_, started.trans prints₃⟩
      rw [searchFile, bind_apply, hr, Option.bind_some, if_neg ok, bind_apply, value, run,
        Option.bind_some, if_neg more, leaves.size, run₃]

end Outer

end Loops

/-- `do_one_file` on a text file shows every line that the text is in, behind the name of the
file, and returns 0: whatever the lines' lengths and their places in the buffer. A line of more
than 1024 bytes is searched and shown in pieces of 1024 bytes. A text that begins with a byte
from 0x80 on is never found. The byte behind the buffer must not happen to be a newline. -/
theorem doOneFile_shows_lines {img : Image} (wf : img.WellFormed) {w : World} (std : Stdout w)
    {s fname : Memory} {pattern name : List Byte} (wanted : IsString s pattern)
    (nonempty : pattern ≠ []) (small : pattern.length < 2 ^ 32) (named : IsString fname name)
    (some_ : name ≠ []) (short : name.length < 2 ^ 31) {d : Dentry}
    (found : img.FirstNamed (name.take 32) d) (file : d.ft = 2) (free : freeSlot w.task < 8)
    (text : ∀ b ∈ img.content d.ind, b ≠ 0) (o : Outside) {stack : Memory}
    (behind : stack 1024 ≠ 0x0A) {fuel : Nat} (enough : (img.content d.ind).length < fuel) :
    ∃ w', doOneFile img o s fname fuel stack w = some (0, w') ∧
      Prints o w (grepText pattern name (img.content d.ind)) w' := by
  have free' : freeSlot (o.meets w) < 8 := free
  obtain ⟨h2, h8, opened, hn, hl, start⟩ := open_file wf named found file free'
  obtain ⟨w₁, hopen, task, one, quiet⟩ := open_apply img o w fname
  obtain ⟨w', run, prints⟩ := searchFile_shows (o := o) (s := s) wanted nonempty small named some_
    short h2 h8 hn hl text fuel (std.of_desc one) (task ▸ start)
    (fun i b hb => by simp at hb : Holds stack []) (by decide) (by simp) behind (by omega)
  refine ⟨w', ?_, quiet.silent_trans prints⟩
  rw [doOneFile, bind_apply, hopen, Option.bind_some, if_neg opened]
  exact run

theorem doOneFile_shows_lines_sample :
    ∃ w', doOneFile (Image.sample 0) .quiet (literal (ascii "LF") fun _ => 0)
        (literal shellName fun _ => 0) 7 (fun _ => 0) (World.started []) = some (0, w') ∧
      w'.out = ascii "shell:" ++ 0x7F :: ascii "ELFAB\n" := by
  have shows : ∃ w', doOneFile (Image.sample 0) .quiet (literal (ascii "LF") fun _ => 0)
        (literal shellName fun _ => 0) 7 (fun _ => 0) (World.started []) = some (0, w') ∧
      Prints .quiet (World.started []) (grepText (ascii "LF") shellName
        ((Image.sample 0).content 0)) w' :=
    doOneFile_shows_lines Image.sample_wellFormed (started_stdout [])
      (literal_isString (by decide) _) (by decide) (by decide) (literal_isString (by decide) _)
      (by decide) (by decide) sample_shell (by decide) (by decide) (by decide) .quiet (by decide)
      (by decide)
  obtain ⟨w', run, prints⟩ := shows
  exact ⟨w', run, prints.out.trans (by decide)⟩

example : grepText (ascii "ab") (ascii "f") (ascii "xab\n\ncd\nab") = ascii "f:xab\nf:ab\n" := by
  decide

end LumettaOS.User
