import LumettaOS.Itoa
import LumettaOS.Shell

/-! The program `counter` (ece391counter.c): a choice from the keyboard, and the numerals up
to the number it stands for. `ece391_itoa` and `ece391_strrev` are the kernel's `itoa` and
`strrev`. -/

namespace LumettaOS.User
open Execute FileCalls CString Reader

section Counter

variable (img : Image) (o : Outside)

def countLoop : (left : Nat) → (i : Word) → Memory → Program Unit
  | 0, _, _ => pure ()
  | left + 1, i, buf =>
    match Itoa.itoa (i + 1) buf 10 with
    | none => fun _ => none
    | some buf => do
      fdputs img o 1 buf
      say img o "\n"
      countLoop left (i + 1) buf

def maxOf (choice : Byte) : Nat :=
  if choice = 0x30 then 100
  else if choice = 0x31 then 10000
  else if choice = 0x32 then 100000
  else 0

def counter (stack : Memory) : Program Word := do
  say img o "Enter the Test Number: (0): 100, (1): 10000, (2): 100000\n"
  let r ← read img o 0 stack 1023
  if r.1 = -1 then
    say img o "Can't read the number from keyboard.\n"
    return 3
  else
    let buf := Function.update r.2 r.1.toNat 0
    if 2 < strlen buf ∨ strlen buf = 2 ∧ (buf 0 < 0x30 ∨ 0x32 < buf 0) then
      say img o "Wrong Choice!\n"
      return 0
    else
      countLoop img o (maxOf (buf 0)) 0 buf
      return 0

end Counter

section Count

variable (img : Image) {o : Outside} {w : World}

variable
  (quiet : ∀ k dev, k ≤ w.calls + 1 → Waiting dev.keyboard → Waiting (o.between k dev).keyboard)
include quiet

end Count

end LumettaOS.User
