import LumettaOS.FileCalls
import LumettaOS.Paging

/-! Starting and ending programs: `sys_execute` and `sys_halt` of syscall.c. Neither
simply returns. A call that starts a program leaves through `iret` into it, and a
halting program leaves through `execute_ret`, on the stack that the `sys_execute`
of its parent had saved. A call that faults spins in its handler: the outcome
`faults` where something was stored before, `none` elsewhere. -/

namespace LumettaOS
open Lib.Scan

structure Tss where
  ss0 : Word
  esp0 : Word

structure Machine where
  pcbs : Fin 6 → Pcb
  dev : Devices
  paging : PageTables
  tss : Tss

namespace Machine

def setPcb (m : Machine) (i : Fin 6) (p : Pcb) : Machine :=
  { m with pcbs := Function.update m.pcbs i p }

@[simp] theorem setPcb_same (m : Machine) (i : Fin 6) (p : Pcb) : (m.setPcb i p).pcbs i = p := by
  simp [setPcb]

theorem setPcb_other (m : Machine) {i j : Fin 6} (p : Pcb) (h : j ≠ i) :
    (m.setPcb i p).pcbs j = m.pcbs j := by simp [setPcb, h]

end Machine

namespace Execute

/-- How a call leaves the kernel. The stores are those that loaded the program, the
address that of the store that did not come back. -/
inductive Outcome where
  | returns (value : Word)
  | starts (slot : Fin 6) (entryPoint : Word) (stores : List (Word × Byte))
  | resumes (esp ebp eax : Word)
  | faults (stores : List (Word × Byte)) (address : Word)

def Outcome.leaves : Outcome → Bool
  | .faults _ _ => false
  | _ => true

structure Frame where
  esp : Word
  ebp : Word

section Parsing

variable (command : Memory)

/-- `i` after the first loop, which ends at newline, at space, or after 32 bytes. -/
def wordEnd : Nat := scan (fun i => command i == 0x0A || command i == 0x20) 32 0

def commandName : Memory := fun k => if k < wordEnd command then command k else 0

-- `i` behind the spaces, and `j` behind the copy of the arguments
def argStart : Nat := scan (fun i => command i != 0x20) (2 ^ 32) (wordEnd command)

def argLen : Nat :=
  scan (fun j => command (argStart command + j) == 0x0A || command (argStart command + j) == 0 ||
    decide (128 ≤ argStart command + j)) 128 0

def args : Memory := fun k =>
  if command (wordEnd command) = 0x20 then
    if k < argLen command then command (argStart command + k) else 0
  else 0

end Parsing

def quitName : Memory := CString.literal [0x71, 0x75, 0x69, 0x74] fun _ => 0

/-- The three ways a command goes on after its words are taken apart. -/
inductive Parsed where
  | empty
  | quit
  | program (name args : Memory)

def parse (command : Memory) : Parsed :=
  if commandName command 0 = 0 then .empty
  else if CString.strncmp (commandName command) quitName 4 = 0 then .quit
  else .program (commandName command) (args command)

def checkExe : Memory := CString.literal [0x7F, 0x45, 0x4C, 0x46] fun _ => 0

def exe (img : Image) (inode : Word) : Memory := fun k => (img.readData inode 0 40).2.getD k 0

-- the tests before a block is chosen; `exe` is zero behind what was read
def findExecutable (img : Image) (name : Memory) : Option Word :=
  match img.readDentryByName name with
  | none => none
  | some d =>
    if d.ft ≠ 2 then none
    else if CString.strncmp (exe img d.ind) checkExe 4 ≠ 0 then none
    else some d.ind

def entryPoint (exe : Memory) : Word :=
  (exe 24).setWidth 32 + (exe 25).setWidth 32 <<< 8 + (exe 26).setWidth 32 <<< 16 +
    (exe 27).setWidth 32 <<< 24

def freePcb (pcbs : Fin 6 → Pcb) : Nat :=
  scan (fun i => (pcbs (Fin.ofNat 6 i)).active == 0) 6 0

/-- The flags and operation tables of a new process; the loop over the other
descriptors is bounded by `MAX_PROCESSES`, which is 6. -/
def newTable (old : Fin 8 → FileDesc) : Fin 8 → FileDesc := fun i =>
  if i.val ≤ 1 then { old i with flag := 1, fOp := some .terminal }
  else if i.val < 6 then { old i with flag := 0 }
  else old i

def putArgs (args : Memory) (p : Pcb) : Pcb := { p with args := CString.strcpy p.args args }

def newPcb (old : Pcb) (slot : Fin 6) (f : Frame) : Pcb where
  fileDescTb := newTable old.fileDescTb
  args := old.args
  pid := BitVec.ofNat 32 slot.val
  parentPid := BitVec.ofNat 32 slot.val - 1
  savedEsp := f.esp
  savedEbp := f.ebp
  active := 1

def kernelDs : Word := 0x18

def esp0Of (pid : Word) : Word := Word.mb8 - pid * Word.kb8 - 4

def setTss (pid : Word) (m : Machine) : Machine := { m with tss := ⟨kernelDs, esp0Of pid⟩ }

def mapPid (pid : Word) (m : Machine) : Machine :=
  { m with paging := Paging.mapProg m.paging pid }

/-- The room between `_128MB + PROC_OFFSET` and `_132MB`; the store behind it faults. -/
def loadRoom : Nat := (Word.mb132 - Word.mb128 - Word.procOffset).toNat

def loadAddr (i : Nat) : Word := Word.mb128 + Word.procOffset + BitVec.ofNat 32 i

def programStores (img : Image) (inode : Word) : List (Word × Byte) :=
  (img.readData inode 0 Word.kernelStackBottom).2.mapIdx fun i b => (loadAddr i, b)

/-- Before the load: the arguments in the block, and entry 32 of the page directory. -/
def reserve (slot : Fin 6) (args : Memory) (m : Machine) : Machine :=
  mapPid (BitVec.ofNat 32 slot.val) (m.setPcb slot (putArgs args (m.pcbs slot)))

-- behind the load
def install (slot : Fin 6) (args : Memory) (f : Frame) (m : Machine) : Machine :=
  let m := reserve slot args m
  setTss (BitVec.ofNat 32 slot.val) (m.setPcb slot (newPcb (m.pcbs slot) slot f))

def launch (img : Image) (inode : Word) (args : Memory) (f : Frame) (m : Machine) :
    Option (Outcome × Machine) :=
  if freePcb m.pcbs = 6 then some (.returns (-1), m)
  else
    let slot := Fin.ofNat 6 (freePcb m.pcbs)
    let stores := programStores img inode
    if loadRoom < stores.length then
      some (.faults (stores.take loadRoom) (loadAddr loadRoom), reserve slot args m)
    else some (.starts slot (entryPoint (exe img inode)) stores, install slot args f m)

def startProgram (img : Image) (name args : Memory) (f : Frame) (m : Machine) :
    Option (Outcome × Machine) :=
  match findExecutable img name with
  | none => some (.returns (-1), m)
  | some inode => launch img inode args f m

-- `sys_execute`, with what `sys_halt(0)` does left open
def executeWith (halt : Machine → Option (Outcome × Machine)) (img : Image) (command : Memory)
    (f : Frame) (m : Machine) : Option (Outcome × Machine) :=
  match parse command with
  | .empty => some (.returns 0, m)
  | .quit => halt m
  | .program name args => startProgram img name args f m

def resumeParent (r : Fin 6) (status : Byte) (m : Machine) : Outcome × Machine :=
  let pcb := m.pcbs r
  (.resumes pcb.savedEsp pcb.savedEbp (status.signExtend 32),
    setTss pcb.parentPid (mapPid pcb.parentPid m))

/-- What the clean-up loop leaves of a block: it names descriptor 0 in every round. -/
def closed (p : Pcb) : Pcb :=
  { p.setDesc 0 { p.fileDescTb 0 with flag := 0 } with active := 0 }

/-- The string constant of `sys_halt` and of the kernel's entry, with the bytes of
the kernel image behind it. It does not name `quit`. -/
def executeShell (img : Image) (behind : Memory) (f : Frame) (m : Machine) :
    Option (Outcome × Machine) :=
  executeWith (fun _ => none) img (CString.literal shellName behind) f m

def prepareRoot (r : Fin 6) (m : Machine) : Machine :=
  let m := m.setPcb r { m.pcbs r with pid := (m.pcbs r).pid - 1 }
  { m with dev := { m.dev with console := m.dev.console.clearTerm } }

/-- Behind the restart: reached only if no shell was started. -/
def afterRestart (r : Fin 6) (status : Byte) :
    Option (Outcome × Machine) → Option (Outcome × Machine)
  | some (.returns _, m) => some (resumeParent r status m)
  | other => other

def haltProcess (img : Image) (behind : Memory) (f : Frame) (status : Byte) (m : Machine)
    (r : Fin 6) : Option (Outcome × Machine) :=
  let m := m.setPcb r (closed (m.pcbs r))
  -- the root restarts the shell, in the frame `f` of a nested `sys_execute`
  if (m.pcbs r).parentPid = -1 then
    afterRestart r status (executeShell img behind f (prepareRoot r m))
  else some (resumeParent r status m)

def sysHalt (img : Image) (behind : Memory) (esp : Word) (f : Frame) (status : Byte)
    (m : Machine) : Option (Outcome × Machine) :=
  -- without a block the first access faults
  (getPcb esp).bind (haltProcess img behind f status m)

/-- `f'` is the frame of the nested call, where the command is `quit` and the
halting process is the root. -/
def sysExecute (img : Image) (behind : Memory) (esp : Word) (f f' : Frame) (command : Memory)
    (m : Machine) : Option (Outcome × Machine) :=
  executeWith (sysHalt img behind esp f' 0) img command f m

/-- The block from `args` on: the fields behind it, then the kernel stack. -/
def argsMemory (p : Pcb) (stack : Memory) : Memory := fun k =>
  if k < 128 then p.args k
  else if k < 132 then p.pid.extractLsb' (8 * (k - 128)) 8
  else if k < 136 then p.parentPid.extractLsb' (8 * (k - 132)) 8
  else if k < 140 then p.savedEsp.extractLsb' (8 * (k - 136)) 8
  else if k < 144 then p.savedEbp.extractLsb' (8 * (k - 140)) 8
  else if k < 148 then p.active.extractLsb' (8 * (k - 144)) 8
  else stack (k - 148)

def sysGetargs (stack : Memory) (null : Bool) (nbytes : Word) (pcb : Option Pcb) :
    Option (Word × List Byte) :=
  if null ∨ nbytes.toInt ≤ 0 then some (-1, [])
  else pcb.map fun p =>
    if p.args 0 = 0 then (-1, [])
    else if nbytes.toNat ≤ CString.strlen (argsMemory p stack) then (-1, [])
    else (0, (List.range nbytes.toNat).map (argsMemory p stack))

def sysVidmap (screenStart : Word) : Word × Option Word :=
  if screenStart < Word.mb128 ∨ Word.mb132 < screenStart then (-1, none)
  else (0, some (Word.mb4 * 33 + 0xB8000))

def vidmapStores (screenStart : Word) : List Word :=
  match (sysVidmap screenStart).2 with
  | none => []
  | some _ => (List.range 4).map fun i => screenStart + BitVec.ofNat 32 i

@[simp] theorem length_programStores (img : Image) (inode : Word) :
    (programStores img inode).length =
      (img.readData inode 0 Word.kernelStackBottom).2.length := List.length_mapIdx

end Execute

end LumettaOS
