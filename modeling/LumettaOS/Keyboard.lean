import LumettaOS.Console

/-! The keyboard driver of keyboard.c: one run of `keyboard_handler` for one
scancode. The line buffer and the screen are updated in the same branches; here
`handler` is what the interrupt does to the driver's variables and `echo` what it
does to the screen. -/

namespace LumettaOS

/-- `buffer k` is the byte at `keyboard_buffer + k`; the array has 128 of them. -/
structure Keyboard where
  buffer : Memory
  index : Nat
  enterpress : Bool
  keyStatus : Byte

namespace Keyboard

def init : Keyboard := ⟨fun _ => 0, 0, false, 0⟩

def keymap : List Byte :=
  [0x00, 0x1B, 0x31, 0x32, 0x33, 0x34, 0x35, 0x36, 0x37, 0x38, 0x39, 0x30, 0x2D, 0x3D, 0x08, 0x09,
   0x71, 0x77, 0x65, 0x72, 0x74, 0x79, 0x75, 0x69, 0x6F, 0x70, 0x5B, 0x5D, 0x0A, 0x00, 0x61, 0x73,
   0x64, 0x66, 0x67, 0x68, 0x6A, 0x6B, 0x6C, 0x3B, 0x27, 0x60, 0x00, 0x5C, 0x7A, 0x78, 0x63, 0x76,
   0x62, 0x6E, 0x6D, 0x2C, 0x2E, 0x2F, 0x00, 0x2A, 0x00, 0x20, 0x00, 0x00, 0x00, 0x00, 0x00, 0x00,
   0x00, 0x00, 0x00, 0x00, 0x00, 0x00, 0x00, 0x00, 0x00, 0x00, 0x2D, 0x00, 0x00, 0x00, 0x2B]

def keymapUpper : List Byte :=
  [0x00, 0x1B, 0x21, 0x40, 0x23, 0x24, 0x25, 0x5E, 0x26, 0x2A, 0x28, 0x29, 0x5F, 0x2B, 0x08, 0x09,
   0x51, 0x57, 0x45, 0x52, 0x54, 0x59, 0x55, 0x49, 0x4F, 0x50, 0x7B, 0x7D, 0x0A, 0x00, 0x41, 0x53,
   0x44, 0x46, 0x47, 0x48, 0x4A, 0x4B, 0x4C, 0x3A, 0x22, 0x7E, 0x00, 0x7C, 0x5A, 0x58, 0x43, 0x56,
   0x42, 0x4E, 0x4D, 0x3C, 0x3E, 0x3F, 0x00, 0x2A, 0x00, 0x20, 0x00, 0x00, 0x00, 0x00, 0x00, 0x00,
   0x00, 0x00, 0x00, 0x00, 0x00, 0x00, 0x00, 0x00, 0x00, 0x00, 0x2D, 0x00, 0x00, 0x00, 0x2B]

def lower (scancode : Byte) : Byte := keymap.getD scancode.toNat 0
def upper (scancode : Byte) : Byte := keymapUpper.getD scancode.toNat 0

def isLetter (scancode : Byte) : Bool :=
  (0x10 ≤ scancode ∧ scancode ≤ 0x19) ∨ (0x1E ≤ scancode ∧ scancode ≤ 0x26) ∨
    (0x2C ≤ scancode ∧ scancode ≤ 0x32)

def handleStandardKey (keyStatus scancode : Byte) : Byte :=
  if keyStatus &&& 0x02 ≠ 0 then
    if isLetter scancode then
      if keyStatus &&& 0x01 ≠ 0 then lower scancode else upper scancode
    else if keyStatus &&& 0x01 ≠ 0 then upper scancode else lower scancode
  else if keyStatus &&& 0x01 ≠ 0 then upper scancode else lower scancode

def toggle (keyStatus bit : Byte) : Byte :=
  if keyStatus &&& bit ≠ 0 then keyStatus &&& ~~~bit else keyStatus ||| bit

def released (keyStatus scancode : Byte) : Byte :=
  if scancode = 0xAA ∨ scancode = 0xB6 then keyStatus &&& ~~~0x01
  else if scancode = 0x9D then keyStatus &&& ~~~0x04
  else if scancode = 0xB8 then keyStatus &&& ~~~0x08
  else keyStatus

/-- The key-down branches of the modifiers; `none` for every other key. -/
def pressed (keyStatus scancode : Byte) : Option Byte :=
  if scancode = 0x2A ∨ scancode = 0x36 then some (keyStatus ||| 0x01)
  else if scancode = 0x3A then some (toggle keyStatus 0x02)
  else if scancode = 0x1D then some (keyStatus ||| 0x04)
  else if scancode = 0x38 then some (keyStatus ||| 0x08)
  else if scancode = 0x45 then some (toggle keyStatus 0x10)
  else if scancode = 0x46 then some (toggle keyStatus 0x20)
  else none

/-- The decoded character of a scancode that reaches the line editor. -/
def typedChar (keyStatus scancode : Byte) : Option Byte :=
  if scancode &&& 0x80 ≠ 0 then none
  else match pressed keyStatus scancode with
    | some _ => none
    | none =>
      if keyStatus &&& 0x04 ≠ 0 ∧ scancode = 0x26 then none
      else some (handleStandardKey keyStatus scancode)

def nextStatus (keyStatus scancode : Byte) : Byte :=
  if scancode &&& 0x80 ≠ 0 then released keyStatus scancode
  else (pressed keyStatus scancode).getD keyStatus

def erase (c : Byte) (k : Keyboard) : Keyboard :=
  if c = 0x08 ∧ k.index ≠ 0 then { k with index := k.index - 1 } else k

def store (c : Byte) (k : Keyboard) : Keyboard :=
  if c ≠ 0 ∧ k.index < 127 ∧ c ≠ 0x08 then
    { k with buffer := Function.update k.buffer k.index c, index := k.index + 1 }
  else k

/-- The branch for newline, with its edge case for a full buffer. -/
def enter (c : Byte) (k : Keyboard) : Keyboard :=
  if c = 0x0A then
    let k := if k.index = 127 then
        { k with buffer := Function.update k.buffer k.index c, index := k.index + 1 }
      else k
    { k with enterpress := true, index := 0 }
  else k

def typed (c : Byte) (k : Keyboard) : Keyboard := enter c (store c (erase c k))

def echoTyped (c : Byte) (k : Keyboard) (t : Console) : Console :=
  let t :=
    if c = 0x08 ∧ k.index ≠ 0 then
      if k.buffer (k.index - 1) = 0x09 then
        t.backspacePressed.backspacePressed.backspacePressed.backspacePressed
      else t.putcTerm c
    else if k.index < 127 ∧ c ≠ 0x08 then t.putcTerm c
    else t
  if c = 0x0A ∧ (store c (erase c k)).index = 127 then t.putcTerm c else t

def handler (scancode : Byte) (k : Keyboard) : Keyboard :=
  match typedChar k.keyStatus scancode with
  | some c => typed c k
  | none => { k with keyStatus := nextStatus k.keyStatus scancode }

/-- `keyboard_handler` on the screen; Ctrl+L clears it. -/
def echo (scancode : Byte) (k : Keyboard) (t : Console) : Console :=
  match typedChar k.keyStatus scancode with
  | some c => echoTyped c k t
  | none =>
    if scancode &&& 0x80 = 0 ∧ pressed k.keyStatus scancode = none then t.clearTerm else t

end Keyboard

end LumettaOS
