import LumettaOS.CString
import LumettaOS.Keyboard

/-! The terminal driver of terminal.c. `terminal_read` clamps its count to 128 and
then never looks at it again, so the count has no place in the model; the keys
that arrive while it waits are an argument. Interrupts stay on behind the wait: what
the keys that arrive there do is the subject of `Reader`, whose reads go one access at
a time, and `Reader.run_terminalRead` is the case without such keys. -/

namespace LumettaOS.Terminal
open Lib.Scan

/-- `while(!enterpress);` while the given keys arrive, one interrupt each. `none`:
it still waits after all of them. -/
def await : (keys : List Byte) → Keyboard → Console → Option (Keyboard × Console)
  | keys, k, t =>
    if k.enterpress then some (k, t)
    else match keys with
      | [] => none
      | key :: keys => await keys (k.handler key) (k.echo key t)

def newlineIndex (k : Keyboard) : Nat := scan (fun i => k.buffer i == 0x0A) 128 0

def consume (k : Keyboard) : Keyboard :=
  { k with buffer := fun i => if i < 128 then 0 else k.buffer i, enterpress := false }

/-- What `terminal_read` delivers once its wait is over. -/
def takeLine (k : Keyboard) : Word × List Byte :=
  (BitVec.ofNat 32 (newlineIndex k + 1), CString.strncpy k.buffer (newlineIndex k + 1))

structure ReadResult where
  ret : Word
  stored : List Byte
  keyboard : Keyboard
  console : Console

def terminalRead (null : Bool) (keys : List Byte) (k : Keyboard) (t : Console) :
    Option ReadResult :=
  if null then some ⟨-1, [], k, t⟩
  else (await keys k t).map fun kt =>
    ⟨(takeLine kt.1).1, (takeLine kt.1).2, consume kt.1, kt.2⟩

def terminalWrite (null : Bool) (buf : Memory) (nbytes : Word) (t : Console) : Word × Console :=
  if nbytes.toInt ≤ 0 ∨ null then (-1, t)
  else (nbytes, (List.range nbytes.toNat).foldl (fun t i => t.putcTerm (buf i)) t)

end LumettaOS.Terminal
