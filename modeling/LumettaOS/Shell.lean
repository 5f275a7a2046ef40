import LumettaOS.LineEditor
import LumettaOS.UserLibrary

/-! The shell (ece391shell.c) at its keyboard. The keys of a round are typed while the shell
waits for its line; what the programs it starts write and return is an argument. -/

namespace LumettaOS.User
open Execute FileCalls CString Reader

section Shell

variable (img : Image) (o : Nat → Outside) (execute : Nat → Memory → Program Word)

def report (o : Outside) (rval : Word) : Program Unit :=
  if rval = -1 then say img o "no such command\n"
  else if rval = 256 then say img o "program terminated by exception\n"
  else if rval ≠ 0 then say img o "program terminated abnormally\n"
  else pure ()

def answer (i : Nat) (buf : Memory) (next : Program Word) : Program Word :=
  if strcmp buf (literal (ascii "exit") fun _ => 0) = 0 then return 0
  else if buf 0 = 0 then next
  else do
    let rval ← execute i buf
    report img (o i) rval
    next

def shellLoop : (fuel i : Nat) → Memory → Program Word
  | 0, _, _ => fun _ => none
  | fuel + 1, i, buf => do
    say img (o i) "391OS> "
    let r ← read img (o i) 0 buf 1023
    if r.1 = -1 then
      say img (o i) "read from keyboard failed\n"
      return 3
    else
      let cnt := if 0 < r.1.toInt ∧ r.2 (r.1.toNat - 1) = 0x0A then r.1.toNat - 1 else r.1.toNat
      let line := Function.update r.2 cnt 0
      answer img o execute i line (shellLoop fuel (i + 1) line)

def shell (fuel : Nat) (stack : Memory) : Program Word := do
  say img (o 0) "Starting 391 Shell\n"
  shellLoop img o execute fuel 0 stack

end Shell

inductive Ended where
  | refused
  | halted (status : Byte)

namespace Ended

def value : Ended → Word
  | refused => -1
  | halted status => status.signExtend 32

def message : Ended → List Byte
  | refused => ascii "no such command\n"
  | halted status =>
    if status = 0 then []
    else if status = 0xFF then ascii "no such command\n"
    else ascii "program terminated abnormally\n"

end Ended

def typedLine : (keys : List Byte) → Editor → Option (List Byte × Byte)
  | [], _ => none
  | key :: keys, e =>
    match (e.press key).finished with
    | line :: _ => some (line, (e.press key).status)
    | [] => typedLine keys (e.press key)

/-- From a prompt the keys make this line, and no modifier is left on. -/
def Types (keys line : List Byte) : Prop := typedLine keys ⟨0, [], []⟩ = some (line, 0)

structure Waiting (k : Keyboard) : Prop where
  status : k.keyStatus = 0
  index : k.index = 0
  flag : k.enterpress = false

structure AtPrompt (w : World) : Prop where
  stdin : (w.task.desc 0).fOp = some .terminal ∧ (w.task.desc 0).flag ≠ 0
  stdout : Stdout w
  keyboard : Waiting w.task.dev.keyboard

section Keys

variable {k : Keyboard} {line : List Byte}

theorem await_done (h : k.enterpress = true) (keys : List Byte) (c : Console) :
    Terminal.await keys k c = some (k, c) := by
  cases keys <;> rw [Terminal.await, if_pos h]

theorem await_typed {keys : List Byte} {e : Editor} {status : Byte}
    (edits : Edits k e.status e.line) (flag : k.enterpress = false) (fresh : e.finished = [])
    (h : typedLine keys e = some (line, status)) (c : Console) :
    ∃ k' c', Terminal.await keys k c = some (k', c') ∧
      Terminal.takeLine k' = Editor.delivered line ∧ IsLine line ∧ k'.keyStatus = status ∧
      k'.index = 0 := by
  induction keys generalizing k c e with
  | nil => cases h
  | cons key keys ih =>
    rw [Terminal.await, flag, if_neg (by decide)]
    by_cases enter : key = 0x1C
    · have newline : Keyboard.typedChar e.status key = some 0x0A := (typedChar_enter _ _).mpr enter
      have newline' : Keyboard.typedChar k.keyStatus key = some 0x0A := by rwa [edits.status]
      have press : e.press key = { e with line := [], finished := e.finished ++ [e.line] } := by
        simp only [Editor.press, newline, if_true]
      rw [typedLine, press, fresh] at h
      obtain ⟨rfl, rfl⟩ : e.line = line ∧ e.status = status := by simpa using h
      refine ⟨k.handler key, k.echo key c, ?_, ?_, edits.line, ?_, ?_⟩
      · exact await_done ((handler_enterpress key flag).mpr enter) keys (k.echo key c)
      · rw [handler_some newline']
        exact edits.takeLine_enter
      · rw [handler_some newline', typed_keyStatus, edits.status]
      · rw [handler_some newline', typed_enter_index]
    · have follows : Follows (k, []) e := ⟨edits, flag, by rw [fresh]; rfl⟩
      have next := follows.press key
      have down : ¬ (k.handler key).enterpress = true := mt (handler_enterpress key flag).mp enter
      rw [typeKey, if_neg down] at next
      have open_ : (e.press key).finished = [] := List.map_eq_nil_iff.mp next.lines.symm
      rw [typedLine, open_] at h
      exact ih next.edits next.flag open_ h (k.echo key c)

/-- A line typed at the prompt is what the read delivers, and the next prompt finds the
keyboard as this one did. -/
theorem terminalRead_typed {keys : List Byte} (waits : Waiting k) (h : Types keys line)
    (c : Console) :
    ∃ r, Terminal.terminalRead false keys k c = some r ∧
      (r.ret, r.stored) = Editor.delivered line ∧ IsLine line ∧ Waiting r.keyboard := by
  have edits : Edits k 0 [] :=
    ⟨waits.status, waits.index, fun i b hb => by simp at hb, ⟨by simp, by simp⟩⟩
  obtain ⟨k', c', waited, taken, short, status, index⟩ :=
    await_typed (e := ⟨0, [], []⟩) edits waits.flag rfl h c
  refine ⟨⟨_, _, Terminal.consume k', c'⟩, ?_, taken, short, ⟨status, index, rfl⟩⟩
  rw [Terminal.terminalRead, if_neg (by decide), waited]
  rfl

end Keys

section Calls

variable (img : Image) {o : Outside} {w : World}

theorem sysWrite_keyboard {env : Env} {fd : Word} {buf : Buffer} {n : Word} {t : Task}
    {r : CallResult} (h : sysWrite env fd buf n t = some r) :
    r.task.dev.keyboard = t.dev.keyboard := by
  have kept {ops : Option FileOps} {d : Word × Devices} (h : opWrite buf n t.dev ops = some d) :
      d.2.keyboard = t.dev.keyboard := by
    cases ops with
    | none => cases h
    | some ops =>
      cases ops with
      | _ =>
        cases h
        rfl
  have refused {r : CallResult} (h : some (fail t) = some r) :
      r.task.dev.keyboard = t.dev.keyboard := by
    cases h
    rfl
  unfold sysWrite at h
  split_ifs at h
  · exact refused h
  · obtain ⟨d, hd, rfl⟩ := Option.map_eq_some_iff.mp h
    exact kept hd
  · exact refused h
  · obtain ⟨d, hd, rfl⟩ := Option.map_eq_some_iff.mp h
    exact kept hd
  · exact refused h

variable {img} in
theorem write_meets {fd n r : Word} {buf : Memory} {w' : World}
    (h : write img o fd buf n w = some (r, w')) :
    w'.task.dev.keyboard = (o.between w.calls w.task.dev).keyboard ∧ w'.calls = w.calls + 1 := by
  rw [write, bind_apply, Option.bind_eq_some_iff] at h
  obtain ⟨⟨c, w₁⟩, called, e⟩ := h
  have last : w₁ = w' := (Prod.mk.inj (Option.some.inj e)).2
  obtain ⟨result, performed, e⟩ := Option.map_eq_some_iff.mp called
  rw [← last, ← (Prod.mk.inj e).2]
  exact ⟨sysWrite_keyboard performed, rfl⟩

variable {img} in
theorem fdputs_meets {s : Memory} {w' : World} (h : fdputs img o 1 s w = some ((), w')) :
    w'.task.dev.keyboard = (o.between w.calls w.task.dev).keyboard ∧ w'.calls = w.calls + 1 := by
  rw [fdputs, bind_apply, Option.bind_eq_some_iff] at h
  obtain ⟨⟨n, w₁⟩, wrote, e⟩ := h
  have last : w₁ = w' := (Prod.mk.inj (Option.some.inj e)).2
  rw [← last]
  exact write_meets wrote

-- nothing is typed before the next call
variable (quiet : ∀ dev, Waiting dev.keyboard → Waiting (o.between w.calls dev).keyboard)
include quiet

variable {img} in
theorem AtPrompt.fdputs (h : AtPrompt w) {s : Memory} {w' : World}
    (said : fdputs img o 1 s w = some ((), w')) (pcb : w'.task.pcb = w.task.pcb) : AtPrompt w' := by
  refine ⟨?_, h.stdout.of_pcb pcb, ?_⟩
  · rw [desc_of_pcb pcb]
    exact h.stdin
  · rw [(fdputs_meets said).1]
    exact quiet _ h.keyboard

theorem say_prompt (h : AtPrompt w) (s : String) (plain : sayable s = true) :
    ∃ w', say img o s w = some ((), w') ∧ AtPrompt w' ∧ w'.out = w.out ++ ascii s := by
  obtain ⟨w', said, pcb, prints⟩ := say_stdout img o h.stdout s plain
  exact ⟨w', said, h.fdputs quiet said pcb, prints.out⟩

theorem read_line (h : AtPrompt w) {line : List Byte} (types : Types (o.env w.calls).keys line)
    (buf : Memory) :
    ∃ w', read img o 0 buf 1023 w =
        some ((BitVec.ofNat 32 (line.length + 1), overlay (line ++ [0x0A]) buf), w') ∧
      IsLine line ∧ AtPrompt w' ∧ w'.out = w.out := by
  have waits : Waiting (o.meets w).dev.keyboard := quiet _ h.keyboard
  obtain ⟨r, got, delivered, short, next⟩ := terminalRead_typed waits types (o.meets w).dev.console
  rw [Editor.delivered, Prod.mk.injEq] at delivered
  have accepted : Accepted 0 (o.meets w) := ⟨by decide, by decide, by decide, h.stdin.2⟩
  have ops : ((o.meets w).desc (index 0)).fOp = some .terminal := h.stdin.1
  have performed : perform img (o.env w.calls) (.read 0 ⟨false, buf⟩ 1023) (o.meets w) =
      some ⟨r.ret, r.stored, { o.meets w with dev := { (o.meets w).dev with
        keyboard := r.keyboard, console := r.console } }⟩ := by
    rw [perform, sysRead_accepted accepted, ops, opRead, terminalRead, got]
    rfl
  have done := read_apply performed
  simp only [delivered.1, delivered.2] at done
  exact ⟨_, done, short, ⟨h.stdin, h.stdout, next⟩, rfl⟩

end Calls

/-- The programs that the shell starts: each comes back to it, having written something, and
leaves the keyboard with nothing typed. -/
def Runs (execute : Memory → Program Word) (child : Memory → List Byte × Ended) : Prop :=
  ∀ command w, AtPrompt w → ∃ w', execute command w = some ((child command).2.value, w') ∧
    AtPrompt w' ∧ w'.out = w.out ++ (child command).1

/-- The buffer of the shell before round `i`: behind the last line are the remains of
earlier ones. -/
def bufferAt (stack : Memory) (typed : Nat → List Byte) : Nat → Memory
  | 0 => stack
  | i + 1 => overlay (typed i ++ [0]) (bufferAt stack typed i)

def roundText (typed : Nat → List Byte) (child : Nat → Memory → List Byte × Ended) (i : Nat)
    (buf : Memory) : List Byte :=
  ascii "391OS> " ++
    if typed i = [] then [] else (child i buf).1 ++ (child i buf).2.message

section Rounds

theorem update_overlay (line : List Byte) (buf : Memory) :
    Function.update (overlay (line ++ [0x0A]) buf) line.length 0 = overlay (line ++ [0]) buf := by
  funext i
  by_cases here : i = line.length
  · rw [here, Function.update_self, overlay_holds (line ++ [0]) buf line.length 0 (by simp)]
  · rw [Function.update_of_ne here, overlay, overlay]
    rcases Nat.lt_or_ge i line.length with inside | outside
    · rw [List.getD_append _ _ _ _ inside, List.getD_append _ _ _ _ inside]
    · rw [List.getD_eq_default _ _ (by simp; omega), List.getD_eq_default _ _ (by simp; omega)]

theorem line_count {line : List Byte} (h : IsLine line) :
    (BitVec.ofNat 32 (line.length + 1)).toNat = line.length + 1 ∧
      0 < (BitVec.ofNat 32 (line.length + 1)).toInt ∧
      BitVec.ofNat 32 (line.length + 1) ≠ (-1 : Word) := by
  have short := h.short
  have count : (BitVec.ofNat 32 (line.length + 1)).toNat = line.length + 1 := by
    rw [BitVec.toNat_ofNat, Nat.mod_eq_of_lt (by omega)]
  have positive : 0 < (BitVec.ofNat 32 (line.length + 1)).toInt := by
    rw [Word.toInt_of_toNat_lt (k := 129) (by omega) (by decide), count]
    omega
  refine ⟨count, positive, fun e => ?_⟩
  rw [e] at positive
  exact absurd positive (by decide)

theorem overlay_isString {line : List Byte} (h : IsLine line) (buf : Memory) :
    IsString (overlay (line ++ [0]) buf) line :=
  ⟨overlay_holds _ _, fun b hb => (h.text b hb).1⟩

variable (img : Image) {o : Outside} {w : World}
  (quiet : ∀ dev, Waiting dev.keyboard → Waiting (o.between w.calls dev).keyboard)
include quiet

omit quiet in
theorem signExtend_cases : ∀ status : Byte,
    (status.signExtend 32 = -1 ↔ status = 0xFF) ∧ status.signExtend 32 ≠ 256 ∧
      (status.signExtend 32 = 0 ↔ status = 0) := by decide

theorem report_message (h : AtPrompt w) (ended : Ended) :
    ∃ w', report img o ended.value w = some ((), w') ∧ AtPrompt w' ∧
      w'.out = w.out ++ ended.message := by
  have missing := say_prompt img quiet h "no such command\n" rfl
  cases ended with
  | refused => exact missing
  | halted status =>
    obtain ⟨top, never, zero⟩ := signExtend_cases status
    rw [Ended.value, report, Ended.message]
    by_cases failed : status = 0xFF
    · rw [if_pos (top.mpr failed), if_neg (by rw [failed]; decide), if_pos failed]
      exact missing
    · rw [if_neg (mt top.mp failed), if_neg never]
      by_cases success : status = 0
      · rw [if_neg (not_not_intro (zero.mpr success)), if_pos success, List.append_nil]
        exact ⟨w, rfl, h, rfl⟩
      · rw [if_pos (mt zero.mp success), if_neg success, if_neg failed]
        exact say_prompt img quiet h "program terminated abnormally\n" rfl

end Rounds

section Session

variable (img : Image) {o : Nat → Outside} {execute : Nat → Memory → Program Word}
  {typed : Nat → List Byte} {child : Nat → Memory → List Byte × Ended}
  (quiet : ∀ i k dev, Waiting dev.keyboard → Waiting ((o i).between k dev).keyboard)
  (user : ∀ i k, Types ((o i).env k).keys (typed i))
  (children : ∀ i, Runs (execute i) (child i))
include quiet user

theorem shellLoop_line {w : World} (h : AtPrompt w) (fuel i : Nat) (buf : Memory) :
    ∃ w', AtPrompt w' ∧ w'.out = w.out ++ ascii "391OS> " ∧ IsLine (typed i) ∧
      shellLoop img o execute (fuel + 1) i buf w =
        answer img o execute i (overlay (typed i ++ [0]) buf)
          (shellLoop img o execute fuel (i + 1) (overlay (typed i ++ [0]) buf)) w' := by
  obtain ⟨w₁, said, h₁, out₁⟩ := say_prompt img (quiet i w.calls) h "391OS> " rfl
  obtain ⟨w₂, got, line, h₂, out₂⟩ := read_line img (quiet i w₁.calls) h₁ (user i w₁.calls) buf
  obtain ⟨count, positive, valid⟩ := line_count line
  have newline : overlay (typed i ++ [0x0A]) buf (typed i).length = 0x0A :=
    overlay_holds _ buf _ _ (by simp)
  refine ⟨w₂, h₂, by rw [out₂, out₁], line, ?_⟩
  rw [shellLoop, bind_apply, said, Option.bind_some, bind_apply, got, Option.bind_some,
    if_neg valid]
  simp only [count, Nat.add_sub_cancel, newline, positive, and_self, if_true, update_overlay]

include children

theorem shellLoop_round {w : World} (h : AtPrompt w) (fuel : Nat) {i : Nat}
    (goes : typed i ≠ ascii "exit") (buf : Memory) :
    ∃ w', AtPrompt w' ∧
      w'.out = w.out ++ roundText typed child i (overlay (typed i ++ [0]) buf) ∧
      shellLoop img o execute (fuel + 1) i buf w =
        shellLoop img o execute fuel (i + 1) (overlay (typed i ++ [0]) buf) w' := by
  obtain ⟨w₁, h₁, out₁, line, run⟩ := shellLoop_line img quiet user h fuel i buf
  have short := line.short
  have string := overlay_isString line buf
  have other : strcmp (overlay (typed i ++ [0]) buf) (literal (ascii "exit") fun _ => 0) ≠ 0 :=
    mt (strcmp_eq_zero_iff string (literal_isString (by decide) _) (by omega)).mp goes
  rw [run, answer, if_neg other, roundText]
  by_cases empty : typed i = []
  · rw [if_pos empty, List.append_nil]
    refine ⟨w₁, h₁, out₁, ?_⟩
    rw [empty] at string ⊢
    rw [if_pos (isString_nil.mp string)]
  · have some_ : overlay (typed i ++ [0]) buf 0 ≠ 0 :=
      string.before (List.length_pos_iff.mpr empty)
    obtain ⟨w₂, ran, h₂, out₂⟩ := children i (overlay (typed i ++ [0]) buf) w₁ h₁
    obtain ⟨w₃, said, h₃, out₃⟩ :=
      report_message img (quiet i w₂.calls) h₂ (child i (overlay (typed i ++ [0]) buf)).2
    rw [if_neg empty, if_neg some_]
    refine ⟨w₃, h₃, ?_, ?_⟩
    · rw [out₃, out₂, out₁]
      simp only [List.append_assoc]
    · rw [bind_apply, ran, Option.bind_some, bind_apply, said, Option.bind_some]

theorem shellLoop_rounds {w : World} (h : AtPrompt w) (stack : Memory) (fuel n : Nat) {i : Nat}
    (goes : ∀ j, i ≤ j → j < i + n → typed j ≠ ascii "exit") :
    ∃ w', AtPrompt w' ∧ w'.out = w.out ++ (List.range' i n).flatMap
        (fun j => roundText typed child j (bufferAt stack typed (j + 1))) ∧
      shellLoop img o execute (n + fuel) i (bufferAt stack typed i) w =
        shellLoop img o execute fuel (i + n) (bufferAt stack typed (i + n)) w' := by
  induction n generalizing i w with
  | zero => exact ⟨w, h, (List.append_nil _).symm, by rw [Nat.zero_add, Nat.add_zero]⟩
  | succ n ih =>
    obtain ⟨w₁, h₁, out₁, run₁⟩ := shellLoop_round img quiet user children h (n + fuel)
      (goes i le_rfl (by omega)) (bufferAt stack typed i)
    obtain ⟨w₂, h₂, out₂, run₂⟩ := ih h₁ (i := i + 1) fun j low high => goes j (by omega) (by omega)
    refine ⟨w₂, h₂, ?_, ?_⟩
    · rw [out₂, out₁, List.range'_succ, List.flatMap_cons, List.append_assoc]
      rfl
    · have next : i + (n + 1) = i + 1 + n := by omega
      rw [Nat.add_right_comm, run₁, next]
      exact run₂

/-- A session of the shell. Each line but `exit` and the empty one is given to
`ece391_execute` as it was typed, in order; what is written to the terminal is a prompt for
every line, and behind it what the program wrote and the shell's message about its end.
`exit` ends the shell with 0. -/
theorem shell_session {w : World} (h : AtPrompt w) {n : Nat}
    (goes : ∀ i < n, typed i ≠ ascii "exit") (last : typed n = ascii "exit") {fuel : Nat}
    (enough : n < fuel) (stack : Memory) :
    (∀ i, IsString (bufferAt stack typed (i + 1)) (typed i)) ∧
    ∃ w', shell img o execute fuel stack w = some (0, w') ∧
      w'.out = w.out ++ (ascii "Starting 391 Shell\n" ++ ((List.range n).flatMap
        (fun i => roundText typed child i (bufferAt stack typed (i + 1))) ++ ascii "391OS> ")) := by
  obtain ⟨fuel, rfl⟩ : ∃ f, fuel = n + (f + 1) := ⟨fuel - n - 1, by omega⟩
  obtain ⟨w₁, said, h₁, out₁⟩ := say_prompt img (quiet 0 w.calls) h "Starting 391 Shell\n" rfl
  obtain ⟨w₂, h₂, out₂, run⟩ := shellLoop_rounds img quiet user children h₁ stack (fuel + 1) n
    (i := 0) fun j _ high => goes j (by omega)
  rw [Nat.zero_add] at run
  obtain ⟨w₃, h₃, out₃, line, ends⟩ := shellLoop_line img quiet user h₂ fuel n
    (bufferAt stack typed n)
  have string := overlay_isString line (bufferAt stack typed n)
  have equal : strcmp (overlay (typed n ++ [0]) (bufferAt stack typed n))
      (literal (ascii "exit") fun _ => 0) = 0 := by
    refine (strcmp_eq_zero_iff string (literal_isString (by decide) _) ?_).mpr last
    rw [last]
    decide
  refine ⟨fun i => ?_, w₃, ?_, ?_⟩
  · obtain ⟨-, -, -, line, -⟩ := terminalRead_typed h.keyboard (user i 0) w.task.dev.console
    exact overlay_isString line _
  · rw [shell, bind_apply, said, Option.bind_some]
    refine run.trans (ends.trans ?_)
    rw [answer, if_pos equal]
    rfl
  · rw [out₃, out₂, out₁, List.range_eq_range']
    simp only [List.append_assoc]

end Session

theorem started_atPrompt : AtPrompt (World.started []) :=
  ⟨⟨rfl, (by decide : (1 : Word) ≠ 0)⟩, started_stdout [], ⟨rfl, rfl, rfl⟩⟩

def Outside.typing (keys : List Byte) : Outside :=
  ⟨fun _ => { Env.quiet with keys := keys }, fun _ dev => dev⟩

theorem shell_session_sample :
    ∃ w', shell (Image.sample 0)
        (fun i => .typing ([[0x1E, 0x1C], [0x1C]].getD i [0x12, 0x2D, 0x17, 0x14, 0x1C]))
        (fun _ _ => pure (-1)) 3 (fun _ => 0) (World.started []) = some (0, w') ∧
      w'.out = ascii "Starting 391 Shell\n391OS> no such command\n391OS> 391OS> " := by
  have line (i k : Nat) : Types ((Outside.typing ([[0x1E, 0x1C], [0x1C]].getD i
      [0x12, 0x2D, 0x17, 0x14, 0x1C])).env k).keys
        ([ascii "a", []].getD i (ascii "exit")) := by
    match i with
    | 0 => rfl
    | 1 => rfl
    | i + 2 => rfl
  have refused (i : Nat) : Runs (fun _ => pure (-1)) fun _ => ([], .refused) :=
    fun command w h => ⟨w, rfl, h, (List.append_nil _).symm⟩
  have goes : ∀ i < 2, [ascii "a", []].getD i (ascii "exit") ≠ ascii "exit" := by decide
  obtain ⟨-, w', run, out⟩ := shell_session (Image.sample 0) (fun _ _ _ waits => waits) line refused
    started_atPrompt goes rfl (by decide : 2 < 3) fun _ => 0
  exact ⟨w', run, out.trans rfl⟩

end LumettaOS.User
