import LumettaOS.Arguments
import LumettaOS.FileStream

/-! What a user program works with: the system calls as the kernel answers them, and the
functions of ece391support.c. Between two calls any interrupts may change the devices,
and a call may meet any interrupts of its own. A program is a function of the world,
with no result where a call never returns. -/

namespace LumettaOS.User
open Execute FileCalls CString

/-- The calling process, the number of calls it has made, and the bytes that its writes
sent to the terminal. -/
structure World where
  task : Task
  calls : Nat
  out : List Byte

/-- What the program does not determine: what each call meets, and what the interrupts
before each call do to the devices. -/
structure Outside where
  env : Nat → Env
  between : Nat → Devices → Devices

def Outside.quiet : Outside := ⟨fun _ => Env.quiet, fun _ dev => dev⟩

abbrev Program (α : Type) := StateT World Option α

def shown : FileCall → Word → List Byte
  | .write fd buf n, ret => if fd = 1 ∧ ret ≠ -1 then (List.range n.toNat).map buf.bytes else []
  | _, _ => []

@[simp] theorem shown_read (fd : Word) (buf : Buffer) (n ret : Word) :
    shown (.read fd buf n) ret = [] := rfl

@[simp] theorem shown_open (name : Memory) (ret : Word) : shown (.open name) ret = [] := rfl

@[simp] theorem shown_close (fd ret : Word) : shown (.close fd) ret = [] := rfl

def Outside.meets (o : Outside) (w : World) : Task :=
  { w.task with dev := o.between w.calls w.task.dev }

section Calls

variable (img : Image) (o : Outside)

def call (c : FileCall) : Program (Word × List Byte) := fun w =>
  (perform img (o.env w.calls) c (o.meets w)).map fun r =>
    ((r.ret, r.stored), ⟨r.task, w.calls + 1, w.out ++ shown c r.ret⟩)

def getargs (n : Word) : Program (Word × List Byte) := fun w =>
  (sysGetargs (o.env w.calls).stack false n (some w.task.pcb)).map fun r =>
    (r, { w with calls := w.calls + 1 })

def «open» (name : Memory) : Program Word := do return (← call img o (.open name)).1

def close (fd : Word) : Program Word := do return (← call img o (.close fd)).1

def overlay (stored : List Byte) (buf : Memory) : Memory := fun i => stored.getD i (buf i)

def read (fd : Word) (buf : Memory) (n : Word) : Program (Word × Memory) := do
  let r ← call img o (.read fd ⟨false, buf⟩ n)
  return (r.1, overlay r.2 buf)

def write (fd : Word) (buf : Memory) (n : Word) : Program Word := do
  return (← call img o (.write fd ⟨false, buf⟩ n)).1

def fdputs (fd : Word) (s : Memory) : Program Unit := do
  let _ ← write img o fd s (BitVec.ofNat 32 (strlen s))

def say (s : String) : Program Unit := fdputs img o 1 (literal (ascii s) fun _ => 0)

end Calls

section Compare

variable {s1 s2 : Memory} {a b : List Byte}

def strncmpAt (s1 s2 : Memory) : (n i : Nat) → Int
  | 0, _ => 0
  | n + 1, i =>
    if s1 i = s2 i then
      if s1 i = 0 ∨ n = 0 then 0 else strncmpAt s1 s2 n (i + 1)
    else (s1 i).toNat - (s2 i).toNat

def strcmpAt (s1 s2 : Memory) : (fuel i : Nat) → Int
  | 0, _ => 0
  | fuel + 1, i =>
    if s1 i = s2 i then
      if s1 i = 0 then 0 else strcmpAt s1 s2 fuel (i + 1)
    else (s1 i).toNat - (s2 i).toNat

/-- No string is longer than memory. -/
def strcmp (s1 s2 : Memory) : Int := strcmpAt s1 s2 (2 ^ 32) 0

theorem byte_sub_ne_zero {x y : Byte} (h : x ≠ y) : (x.toNat : Int) - y.toNat ≠ 0 := fun e =>
  h (BitVec.eq_of_toNat_eq (by omega))

theorem strncmpAt_eq_zero_iff {i : Nat} (h : IsString (fun j => s2 (i + j)) a) :
    strncmpAt s1 s2 a.length i = 0 ↔ Holds (fun j => s1 (i + j)) a := by
  induction a generalizing i with
  | nil => exact ⟨fun _ j b hb => by simp at hb, fun _ => rfl⟩
  | cons b text ih =>
    obtain ⟨first, nonzero, rest⟩ := isString_cons.mp h
    have next : IsString (fun j => s2 (i + 1 + j)) text := by
      rw [from_succ]
      exact rest
    have here : s2 i = b := first
    rw [List.length_cons, strncmpAt, here, holds_cons]
    have behind : (fun j => s1 (i + (1 + j))) = fun j => s1 (i + 1 + j) := by
      funext j
      rw [Nat.add_assoc]
    by_cases same : s1 i = b
    · rw [if_pos same]
      by_cases last : text = []
      · rw [last, List.length_nil, if_pos (Or.inr rfl)]
        exact ⟨fun _ => ⟨same, fun j c hc => by simp at hc⟩, fun _ => rfl⟩
      · have more : ¬ (s1 i = 0 ∨ text.length = 0) := by
          rw [same, List.length_eq_zero_iff]
          exact fun e => e.elim nonzero last
        rw [if_neg more, ih next, behind]
        simp [same]
    · rw [if_neg same]
      exact ⟨fun e => absurd e (byte_sub_ne_zero same), fun e => absurd e.1 same⟩

theorem strcmpAt_eq_zero_iff {fuel i : Nat} (h1 : IsString (fun j => s1 (i + j)) a)
    (h2 : IsString (fun j => s2 (i + j)) b) (enough : a.length < fuel) :
    strcmpAt s1 s2 fuel i = 0 ↔ a = b := by
  induction a generalizing fuel i b with
  | nil =>
    obtain ⟨fuel, rfl⟩ : ∃ n, fuel = n + 1 := ⟨fuel - 1, by omega⟩
    have zero : s1 i = 0 := isString_nil.mp h1
    rw [strcmpAt, zero]
    cases b with
    | nil =>
      have zero' : s2 i = 0 := isString_nil.mp h2
      simp [zero']
    | cons y b =>
      obtain ⟨first, nonzero, -⟩ := isString_cons.mp h2
      have first : s2 i = y := first
      rw [first, if_neg nonzero.symm]
      simpa using byte_sub_ne_zero nonzero.symm
  | cons x a ih =>
    obtain ⟨fuel, rfl⟩ : ∃ n, fuel = n + 1 := ⟨fuel - 1, by omega⟩
    obtain ⟨first, nonzero, rest⟩ := isString_cons.mp h1
    have first : s1 i = x := first
    rw [List.length_cons] at enough
    rw [strcmpAt, first]
    cases b with
    | nil =>
      have zero : s2 i = 0 := isString_nil.mp h2
      rw [zero, if_neg nonzero]
      simpa using byte_sub_ne_zero nonzero
    | cons y b =>
      obtain ⟨first', -, rest'⟩ := isString_cons.mp h2
      have first' : s2 i = y := first'
      rw [← from_succ] at rest rest'
      rw [first', List.cons.injEq]
      by_cases same : x = y
      · rw [if_pos same, if_neg nonzero, ih rest rest' (by omega)]
        simp [same]
      · rw [if_neg same]
        simpa [same] using byte_sub_ne_zero same

theorem strcmp_eq_zero_iff (h1 : IsString s1 a) (h2 : IsString s2 b) (small : a.length < 2 ^ 32) :
    strcmp s1 s2 = 0 ↔ a = b := by
  rw [← from_zero s1] at h1
  rw [← from_zero s2] at h2
  exact strcmpAt_eq_zero_iff h1 h2 small

end Compare

def Stdout (w : World) : Prop := (w.task.desc 1).fOp = some .terminal ∧ (w.task.desc 1).flag ≠ 0

/-- From `w` to `w'` the program showed exactly these bytes; where no interrupt in between
writes to the screen, they are what was added to it. -/
structure Prints (o : Outside) (w : World) (text : List Byte) (w' : World) : Prop where
  out : w'.out = w.out ++ text
  console : (∀ k dev, (o.between k dev).console = dev.console) →
    w'.task.dev.console = text.foldl Console.putcTerm w.task.dev.console

namespace Prints

variable {o : Outside} {w w' w'' : World} {s s' : List Byte}

theorem refl (o : Outside) (w : World) : Prints o w [] w := ⟨(List.append_nil _).symm, fun _ => rfl⟩

theorem trans (h : Prints o w s w') (h' : Prints o w' s' w'') : Prints o w (s ++ s') w'' where
  out := by rw [h'.out, h.out, List.append_assoc]
  console quiet := by rw [h'.console quiet, h.console quiet, List.foldl_append]

theorem silent_trans (h : Prints o w [] w') (h' : Prints o w' s w'') : Prints o w s w'' :=
  h.trans h'

end Prints

theorem bind_apply {α β : Type} (x : Program α) (f : α → Program β) (w : World) :
    (x >>= f) w = (x w).bind fun r => f r.1 r.2 := rfl

theorem call_apply {img : Image} {o : Outside} {w : World} {c : FileCall} {r : CallResult}
    (h : perform img (o.env w.calls) c (o.meets w) = some r) :
    call img o c w = some ((r.ret, r.stored), ⟨r.task, w.calls + 1, w.out ++ shown c r.ret⟩) := by
  rw [call, h, Option.map_some]

theorem read_apply {img : Image} {o : Outside} {w : World} {fd n : Word} {buf : Memory}
    {r : CallResult}
    (h : perform img (o.env w.calls) (.read fd ⟨false, buf⟩ n) (o.meets w) = some r) :
    read img o fd buf n w =
      some ((r.ret, overlay r.stored buf), ⟨r.task, w.calls + 1, w.out⟩) := by
  rw [read, bind_apply, call_apply h, shown_read, List.append_nil]
  rfl

theorem overlay_holds (stored : List Byte) (buf : Memory) : Holds (overlay stored buf) stored :=
  fun i b hb => by rw [overlay, List.getD_eq_getElem?_getD, hb, Option.getD_some]

theorem sysWrite_stdout {t : Task} (ops : (t.desc 1).fOp = some .terminal)
    (flag : (t.desc 1).flag ≠ 0) (env : Env) (buf : Memory) {n : Word} (positive : 0 < n.toInt) :
    sysWrite env 1 ⟨false, buf⟩ n t = some ⟨n, [], { t with dev := { t.dev with
      console := ((List.range n.toNat).map buf).foldl Console.putcTerm t.dev.console } }⟩ := by
  have accepted : ¬ (n.toInt ≤ 0 ∨ false = true) := by simpa using positive
  have flag1 : flagAt env 1 t ≠ 0 := flag
  have ops1 : (t.desc (index 1)).fOp = some .terminal := ops
  rw [sysWrite, if_neg flag1, if_neg (by decide), if_neg (by decide), if_pos rfl, ops1]
  simp only [opWrite, Option.map_some, Terminal.terminalWrite, if_neg accepted, List.foldl_map]

def World.started (arg : List Byte) : World :=
  ⟨{ Task.fresh with pcb := { Task.fresh.pcb with args := literal arg fun _ => 0 } }, 0, []⟩

theorem started_stdout (arg : List Byte) : Stdout (World.started arg) :=
  ⟨rfl, (by decide : (1 : Word) ≠ 0)⟩

theorem started_args {arg : List Byte} (live : ∀ b ∈ arg, b ≠ 0) :
    IsString (World.started arg).task.pcb.args arg := literal_isString live fun _ => 0

def sayable (s : String) : Bool :=
  (ascii s).all (· != 0) && !(ascii s).isEmpty && decide ((ascii s).length < 2 ^ 31)

theorem sayable_iff {s : String} : sayable s = true ↔
    (∀ b ∈ ascii s, b ≠ 0) ∧ ascii s ≠ [] ∧ (ascii s).length < 2 ^ 31 := by
  simp [sayable, and_assoc]

section Spec

variable (img : Image) (o : Outside) {w : World}

theorem write_stdout (std : Stdout w) (buf : Memory) {n : Word} (positive : 0 < n.toInt) :
    ∃ w', write img o 1 buf n w = some (n, w') ∧ w'.task.pcb = w.task.pcb ∧
      Prints o w ((List.range n.toNat).map buf) w' := by
  have value : n ≠ -1 := by
    intro e
    rw [e] at positive
    exact absurd positive (by decide)
  have result : perform img (o.env w.calls) (.write 1 ⟨false, buf⟩ n) (o.meets w) = _ :=
    sysWrite_stdout (t := o.meets w) std.1 std.2 (o.env w.calls) buf positive
  have called := call_apply result
  rw [shown, if_pos ⟨rfl, value⟩] at called
  have written : write img o 1 buf n w = some (n, ⟨{ o.meets w with dev := { (o.meets w).dev with
      console := ((List.range n.toNat).map buf).foldl Console.putcTerm (o.meets w).dev.console } },
        w.calls + 1, w.out ++ (List.range n.toNat).map buf⟩) := by
    rw [write, bind_apply, called]
    rfl
  refine ⟨_, written, rfl, rfl, fun quiet => ?_⟩
  exact congrArg (fun c => ((List.range n.toNat).map buf).foldl Console.putcTerm c)
    (quiet w.calls w.task.dev)

theorem fdputs_stdout (std : Stdout w) {s : Memory} {text : List Byte} (h : IsString s text)
    (nonempty : text ≠ []) (small : text.length < 2 ^ 31) :
    ∃ w', fdputs img o 1 s w = some ((), w') ∧ w'.task.pcb = w.task.pcb ∧ Prints o w text w' := by
  have len : strlen s = text.length := h.strlen (by omega)
  have count : (BitVec.ofNat 32 text.length).toNat = text.length := by
    rw [BitVec.toNat_ofNat, Nat.mod_eq_of_lt (by omega)]
  have positive : 0 < (BitVec.ofNat 32 text.length).toInt := by
    rw [Word.toInt_of_toNat_lt (k := 2 ^ 31) (by omega) (by decide), count]
    exact_mod_cast List.length_pos_iff.mpr nonempty
  obtain ⟨w', hw, pcb, prints⟩ := write_stdout img o std s positive
  rw [count, (holds_append.mp h.holds).1.map_range] at prints
  refine ⟨w', ?_, pcb, prints⟩
  rw [fdputs, len, bind_apply, hw]
  rfl

theorem say_stdout (std : Stdout w) (s : String) (plain : sayable s = true) :
    ∃ w', say img o s w = some ((), w') ∧ w'.task.pcb = w.task.pcb ∧ Prints o w (ascii s) w' := by
  obtain ⟨live, nonempty, small⟩ := sayable_iff.mp plain
  exact fdputs_stdout img o std (literal_isString live _) nonempty small

end Spec

theorem desc_of_pcb {t t' : Task} (h : t'.pcb = t.pcb) : t'.desc = t.desc := by
  unfold Task.desc
  rw [h]

theorem Stdout.of_desc {w w' : World} (std : Stdout w) (h : w'.task.desc 1 = w.task.desc 1) :
    Stdout w' := by
  rw [Stdout, h]
  exact std

theorem Stdout.of_pcb {w w' : World} (std : Stdout w) (h : w'.task.pcb = w.task.pcb) :
    Stdout w' := std.of_desc (by rw [desc_of_pcb h])

end LumettaOS.User
