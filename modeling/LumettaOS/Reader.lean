import LumettaOS.Lib.Runs
import LumettaOS.Terminal

/-! `terminal_read` one memory access at a time. It runs with interrupts enabled from
its `sti` to its `cli`, so a key may be handled before every access to the line
buffer and to `enterpress`; between two reads the program runs, and keys are
handled there too. -/

namespace LumettaOS.Reader
open Lib.Runs Keyboard

/-- Where the program is: outside a read, or at a point of `terminal_read`. The
numbers are `i` and `n = i + 1`; `done` is what `strncpy` has stored so far. -/
inductive Phase where
  | idle
  | waiting
  | scanning (i : Nat)
  | copying (n : Nat) (done : List Byte)
  | padding (n : Nat) (done : List Byte)
  | clearing (n : Nat) (done : List Byte) (j : Nat)
  | leaving (n : Nat) (done : List Byte)
  deriving DecidableEq

/-- `log` lists the finished reads: the return value and the bytes stored. -/
structure Session where
  keyboard : Keyboard
  phase : Phase
  log : List (Word × List Byte)

inductive Act where
  | key (scancode : Byte)
  | read
  | step
  deriving DecidableEq

def result (n : Nat) (done : List Byte) : Word × List Byte := (BitVec.ofNat 32 n, done)

def advance (s : Session) : Option Session :=
  match s.phase with
  | .idle => none
  | .waiting => some { s with phase := if s.keyboard.enterpress then .scanning 0 else .waiting }
  | .scanning i =>
    if i < 128 ∧ s.keyboard.buffer i ≠ 0x0A then some { s with phase := .scanning (i + 1) }
    else some { s with phase := .copying (i + 1) [] }
  | .copying n done =>
    if s.keyboard.buffer done.length ≠ 0 ∧ done.length < n then
      some { s with phase := .copying n (done ++ [s.keyboard.buffer done.length]) }
    else some { s with phase := .padding n done }
  | .padding n done =>
    if done.length < n then some { s with phase := .padding n (done ++ [0]) }
    else some { s with phase := .clearing n done 0 }
  | .clearing n done j =>
    if j < 128 then
      some { s with
        keyboard := { s.keyboard with buffer := Function.update s.keyboard.buffer j 0 }
        phase := .clearing n done (j + 1) }
    else some { s with
      keyboard := { s.keyboard with enterpress := false }
      phase := .leaving n done }
  | .leaving n done => some { s with phase := .idle, log := s.log ++ [result n done] }

def act : Act → Session → Option Session
  | .key scancode, s => some { s with keyboard := s.keyboard.handler scancode }
  | .read, s => if s.phase = .idle then some { s with phase := .waiting } else none
  | .step, s => advance s

def start (k : Keyboard) : Session := ⟨k, .idle, []⟩

def keysOf (acts : List Act) : List Byte :=
  acts.filterMap fun a => match a with
    | .key scancode => some scancode
    | _ => none

def readsOf (acts : List Act) : Nat := acts.count .read

def Phase.cleared : Phase → Nat
  | .clearing _ _ j => j
  | _ => 0

/-- A key that edits the buffer below `j` only: it gives no character, or 0, or a
backspace, or a character other than Enter that goes to a place below `j` or is
dropped because the buffer is full. -/
def Spares (j : Nat) (k : Keyboard) (scancode : Byte) : Prop :=
  ∀ c, typedChar k.keyStatus scancode = some c →
    c = 0 ∨ c = 0x08 ∨ (c ≠ 0x0A ∧ (k.index < j ∨ 127 ≤ k.index))

/-- While a line is complete and not yet taken, no key edits what the read has not
yet cleared. -/
def Orderly : Act → Session → Prop
  | .key scancode, s =>
    s.keyboard.enterpress = true → Spares s.phase.cleared s.keyboard scancode
  | _, _ => True

end LumettaOS.Reader
