import LumettaOS.Process

/-! The file system calls of syscall.c and the device functions of filesystem.c
they dispatch to. A call gives its return value, the bytes it stores from the
caller's buffer on, and the new state; `none` is a call that never returns (it
still waits for a device, it jumped through a null operation table, or it copies
more than any buffer can hold). The buffer is the caller's own memory, apart from
the kernel's data. -/

namespace LumettaOS
open Lib.Scan

structure CallResult where
  ret : Word
  stored : List Byte
  task : Task

namespace FileCalls

def index (fd : Word) : Fin 8 := Fin.ofNat 8 fd.toNat

def fail (t : Task) : CallResult := ⟨-1, [], t⟩

def freeSlot (t : Task) : Nat := scan (fun i => (t.desc (Fin.ofNat 8 i)).flag == 0) 6 2

/-- The slot search that `sys_open` has once for each file type: claim the first
free slot with the given operation table and, for a regular file, the inode. -/
def claim (ops : FileOps) (inode : Option Word) (t : Task) : Word × Task :=
  if freeSlot t < 8 then
    let i := Fin.ofNat 8 (freeSlot t)
    (BitVec.ofNat 32 (freeSlot t), t.setDesc i
      { fOp := some ops, flag := 1, filePosition := 0, inode := inode.getD (t.desc i).inode })
  else (-1, t)

def openRtc (r : Word × Task) : Word × Task :=
  if r.1 = -1 then r
  else (r.1, { r.2 with dev := { r.2.dev with rtc := r.2.dev.rtc.rtcOpen } })

/-- An entry of any other type falls through with `found_open_fd` still 0. -/
def sysOpen (img : Image) (filename : Memory) (t : Task) : Word × Task :=
  match img.readDentryByName filename with
  | none => (-1, t)
  | some d =>
    if d.ft = 0 then openRtc (claim .rtc none t)
    else if d.ft = 1 then claim .dir none t
    else if d.ft = 2 then claim .file (some d.ind) t
    else (0, t)

def sysClose (fd : Word) (t : Task) : Word × Task :=
  if fd.toInt ≤ 1 ∨ 8 ≤ fd.toInt then (-1, t)
  else if (t.desc (index fd)).flag = 0 then (-1, t)
  else (0, t.setDesc (index fd) { t.desc (index fd) with flag := 0 })

/-- The loop of `dir_read`, `left` iterations from `i` on: its final `i` and the
bytes stored. The name runs on into the other fields of the entry. -/
def dirLoop (name : Memory) : (left i : Nat) → Nat × List Byte
  | 0, i => (i, [])
  | left + 1, i =>
    if name i = 0 then (i, [0])
    else ((dirLoop name left (i + 1)).1, name i :: (dirLoop name left (i + 1)).2)

/-- `d.name[i]`, read past the local entry into the stack. -/
def nameByte (d : Dentry) (stack : Memory) : Memory := fun i =>
  if i < 64 then d.bytes i else stack (i - 64)

def dirRead (img : Image) (stack : Memory) (i : Fin 8) (n : Word) (t : Task) : CallResult :=
  match img.readDentryByIndex (t.desc i).filePosition with
  | none => fail t
  | some d =>
    let r := dirLoop (nameByte d stack) n.toInt.toNat 0
    ⟨BitVec.ofNat 32 r.1, r.2,
      t.setDesc i { t.desc i with filePosition := (t.desc i).filePosition + 1 }⟩

/-- No run of mapped addresses is longer: a copy of more bytes faults on the way. -/
def longestRun : Nat := 0x400000

def fileRead (img : Image) (i : Fin 8) (n : Word) (t : Task) : Option CallResult :=
  let r := img.readData (t.desc i).inode (t.desc i).filePosition n
  if longestRun < r.2.length then none
  else some
    ⟨r.1, r.2, t.setDesc i { t.desc i with filePosition := (t.desc i).filePosition + r.1 }⟩

def terminalRead (env : Env) (buf : Buffer) (t : Task) : Option CallResult :=
  (Terminal.terminalRead buf.null env.keys t.dev.keyboard t.dev.console).map fun r =>
    ⟨r.ret, r.stored,
      { t with dev := { t.dev with keyboard := r.keyboard, console := r.console } }⟩

def rtcRead (env : Env) (buf : Buffer) (t : Task) : Option CallResult :=
  (Rtc.rtcRead buf.null env.ticks t.dev.rtc).map fun r =>
    ⟨r.1, [], { t with dev := { t.dev with rtc := r.2 } }⟩

def opRead (img : Image) (env : Env) (i : Fin 8) (buf : Buffer) (n : Word) (t : Task) :
    Option FileOps → Option CallResult
  | none => none
  | some .terminal => terminalRead env buf t
  | some .rtc => rtcRead env buf t
  | some .dir => some (dirRead img env.stack i n t)
  | some .file => fileRead img i n t

def readGuard {α : Type} (refused : α) (device : Fin 8 → Option FileOps → α) (fd : Word)
    (t : Task) : α :=
  if fd.toInt < 0 then refused
  else if fd = 1 then refused
  else if 7 < fd.toInt then refused
  else if (t.desc (index fd)).flag = 0 then refused
  else device (index fd) (t.desc (index fd)).fOp

def sysRead (img : Image) (env : Env) (fd : Word) (buf : Buffer) (n : Word) (t : Task) :
    Option CallResult :=
  readGuard (some (fail t)) (fun i ops => opRead img env i buf n t ops) fd t

def opWrite (buf : Buffer) (n : Word) (dev : Devices) :
    Option FileOps → Option (Word × Devices)
  | none => none
  | some .terminal =>
    let r := Terminal.terminalWrite buf.null buf.bytes n dev.console
    some (r.1, { dev with console := r.2 })
  | some .rtc =>
    let r := dev.rtc.rtcWrite buf.null buf.bytes n
    some (r.1, { dev with rtc := r.2 })
  | some .dir => some (-1, dev)
  | some .file => some (-1, dev)

/-- `file_desc_tb[fd].flag`, which `sys_write` reads before any bounds test. -/
def flagAt (env : Env) (fd : Word) (t : Task) : Word :=
  if 0 ≤ fd.toInt ∧ fd.toInt ≤ 7 then (t.desc (index fd)).flag else env.around fd

def sysWrite (env : Env) (fd : Word) (buf : Buffer) (n : Word) (t : Task) :
    Option CallResult :=
  if flagAt env fd t = 0 then some (fail t)
  else if 1 < fd.toInt ∧ fd.toInt ≤ 7 then
    (opWrite buf n t.dev (t.desc (index fd)).fOp).map fun r =>
      ⟨if r.1 ≠ -1 then n else -1, [], { t with dev := r.2 }⟩
  else if fd = 0 then some (fail t)
  else if fd = 1 then
    (opWrite buf n t.dev (t.desc (index fd)).fOp).map fun r => ⟨r.1, [], { t with dev := r.2 }⟩
  else some (fail t)

inductive FileCall where
  | open (filename : Memory)
  | close (fd : Word)
  | read (fd : Word) (buf : Buffer) (n : Word)
  | write (fd : Word) (buf : Buffer) (n : Word)

def perform (img : Image) (env : Env) : FileCall → Task → Option CallResult
  | .open filename, t => some ⟨(sysOpen img filename t).1, [], (sysOpen img filename t).2⟩
  | .close fd, t => some ⟨(sysClose fd t).1, [], (sysClose fd t).2⟩
  | .read fd buf n, t => sysRead img env fd buf n t
  | .write fd buf n, t => sysWrite env fd buf n t

end FileCalls

end LumettaOS
