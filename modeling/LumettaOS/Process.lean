import LumettaOS.FileSystem
import LumettaOS.Terminal
import LumettaOS.Rtc

/-! Process control blocks (filesystem.h) and what the calls of one process work
on: its own block and the devices. The six blocks sit at fixed addresses, 8KB
apart below 8MB, and `get_pcb` finds the running one from the stack pointer. -/

namespace LumettaOS

inductive FileOps where
  | terminal
  | rtc
  | dir
  | file
  deriving DecidableEq

/-- `struct file_desc`; `fOp = none` is a null pointer. -/
structure FileDesc where
  fOp : Option FileOps
  inode : Word
  filePosition : Word
  flag : Word
  deriving DecidableEq

instance instNeZeroSlots : NeZero 8 := ⟨by decide⟩

structure Pcb where
  fileDescTb : Fin 8 → FileDesc
  args : Memory
  pid : Word
  parentPid : Word
  savedEsp : Word
  savedEbp : Word
  active : Word

namespace Pcb

def setDesc (p : Pcb) (i : Fin 8) (d : FileDesc) : Pcb :=
  { p with fileDescTb := Function.update p.fileDescTb i d }

@[simp] theorem setDesc_same (p : Pcb) (i : Fin 8) (d : FileDesc) :
    (p.setDesc i d).fileDescTb i = d := by simp [setDesc]

theorem setDesc_other (p : Pcb) (i j : Fin 8) (d : FileDesc) (h : j ≠ i) :
    (p.setDesc i d).fileDescTb j = p.fileDescTb j := by simp [setDesc, h]

theorem setDesc_fileDescTb (p : Pcb) (i j : Fin 8) (d : FileDesc) :
    (p.setDesc i d).fileDescTb j = if j = i then d else p.fileDescTb j := by
  simp [setDesc, Function.update_apply]

def zero : Pcb := ⟨fun _ => ⟨none, 0, 0, 0⟩, fun _ => 0, 0, 0, 0, 0, 0⟩

end Pcb

/-- The slot `e` for which `get_pcb` returns `curr_pcb[e]`; `none` is NULL. -/
def getPcb (esp : Word) : Option (Fin 6) :=
  let e := 0x3FF - esp / Word.kb8
  if h : e.toNat < 6 then some ⟨e.toNat, h⟩ else none

structure Devices where
  keyboard : Keyboard
  console : Console
  rtc : Rtc

/-- The state a file call of one process can touch. -/
structure Task where
  pcb : Pcb
  dev : Devices

namespace Task

def desc (t : Task) (i : Fin 8) : FileDesc := t.pcb.fileDescTb i

def setDesc (t : Task) (i : Fin 8) (d : FileDesc) : Task := { t with pcb := t.pcb.setDesc i d }

theorem desc_setDesc (t : Task) (i j : Fin 8) (d : FileDesc) :
    (t.setDesc i d).desc j = if j = i then d else t.desc j :=
  Pcb.setDesc_fileDescTb t.pcb i j d

@[simp] theorem desc_setDesc_same (t : Task) (i : Fin 8) (d : FileDesc) :
    (t.setDesc i d).desc i = d := by simp [desc_setDesc]

def fresh : Task where
  pcb := { Pcb.zero with
    fileDescTb := fun i => if i.val ≤ 1 then ⟨some .terminal, 0, 0, 1⟩ else ⟨none, 0, 0, 0⟩
    parentPid := -1
    active := 1 }
  dev := ⟨Keyboard.init, ⟨fun _ => 0, 0, 0⟩, Rtc.init⟩

end Task

structure Buffer where
  null : Bool
  bytes : Memory

/-- What a call meets that the kernel's data do not determine: the interrupts
that arrive while it waits, the stack bytes behind a local `struct dentry`, and
the words a flag test reads outside the descriptor table. -/
structure Env where
  keys : List Byte
  ticks : Nat
  stack : Memory
  around : Word → Word

def Env.quiet : Env := ⟨[], 0, fun _ => 0, fun _ => 0⟩

def Buffer.zero : Buffer := ⟨false, fun _ => 0⟩

end LumettaOS
