import LumettaOS.Word

/-! The text screen of lib.c: video memory and the cursor that `putc_term` moves.
`move_cursor` only programs the VGA cursor registers and leaves this state alone,
so it has no counterpart here. -/

namespace LumettaOS

/-- `mem k` is the byte at `video_mem + k`; the screen is the first 4000 bytes. -/
structure Console where
  mem : Memory
  screenX : Nat
  screenY : Nat

namespace Console

def numCols : Nat := 80
def numRows : Nat := 25
def attrib : Byte := 0x07

def poke (c : Console) (a : Nat) (b : Byte) : Console :=
  { c with mem := Function.update c.mem a b }

def clear (c : Console) : Console :=
  (List.range (numRows * numCols)).foldl
    (fun c i => (c.poke (i * 2) 0x20).poke (i * 2 + 1) attrib) c

/-- Both loops of `scroll_term` store character bytes only, never an attribute. -/
def scrollTerm (c : Console) : Console :=
  let moved := (List.range ((numRows - 1) * numCols)).foldl
    (fun c i => c.poke (i * 2) (c.mem ((i + numCols) * 2))) c
  (List.range' ((numRows - 1) * numCols) numCols).foldl (fun c i => c.poke (i * 2) 0x20) moved

def clearTerm (c : Console) : Console := { c.clear with screenX := 0, screenY := 0 }

def putCell (c : Console) (b : Byte) : Console :=
  (c.poke ((numCols * c.screenY + c.screenX) * 2) b).poke
    ((numCols * c.screenY + c.screenX) * 2 + 1) attrib

def backspacePressed (c : Console) : Console :=
  let back :=
    if c.screenX = 0 then
      if c.screenY ≠ 0 then { c with screenX := numCols - 1, screenY := c.screenY - 1 } else c
    else { c with screenX := c.screenX - 1 }
  back.putCell 0x20

/-- The printable branch of `putc_term`, with the wrap at the last column. -/
def advance (c : Console) (b : Byte) : Console :=
  let c := c.putCell b
  let c := { c with screenX := c.screenX + 1 }
  let c :=
    if numCols ≤ c.screenX then
      if c.screenY = 24 then c.scrollTerm else { c with screenY := c.screenY + 1 }
    else c
  { c with screenX := c.screenX % numCols }

def putcTerm (c : Console) (b : Byte) : Console :=
  let c :=
    if b = 0x08 then c.backspacePressed
    else if b = 0x09 then { c with screenX := c.screenX + 4 }
    else if b = 0x0D then { c with screenX := 0 }
    else if b = 0x0A then { c with screenX := 0, screenY := c.screenY + 1 }
    else if 0x20 ≤ b then c.advance b
    else c
  if numRows ≤ c.screenY then { c.scrollTerm with screenY := numRows - 1 } else c

end Console

end LumettaOS
