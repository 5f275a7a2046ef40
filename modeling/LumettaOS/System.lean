import LumettaOS.Execute

/-! The machine as a whole: programs make system calls and the two devices
interrupt. A call from user mode starts on the stack at `tss.esp0`. `control` is
where the processor went: into the program that was started, or back into the
program whose kernel stack a halting child switched to. -/

namespace LumettaOS
open Execute FileCalls

structure System where
  machine : Machine
  control : Option (Fin 6)

inductive SysCall where
  | halt (status : Byte)
  | execute (command : Memory)
  | file (c : FileCall)
  | getargs (buf : Buffer) (nbytes : Word)
  | vidmap (screenStart : Word)

/-- What a call finds: how far below `tss.esp0` the stack pointer is where `get_pcb`
reads it, in `sys_execute` and in the `sys_execute` of a restart (the kernel stack
stays in its 8KB), `ebp` there, the bytes behind the constant `shell`, and the rest. -/
structure Entry where
  depth : Fin 8189
  execDepth : Fin 8189
  execEbp : Word
  nestedDepth : Fin 8189
  nestedEbp : Word
  behind : Memory
  env : Env

inductive Event where
  | call (entry : Entry) (c : SysCall)
  | key (scancode : Byte)
  | tick

def Entry.quiet : Entry where
  depth := 300
  execDepth := 280
  execEbp := 0
  nestedDepth := 600
  nestedEbp := 0
  behind := fun _ => 0
  env := Env.quiet

namespace System

def espAt (m : Machine) (depth : Fin 8189) : Word := m.tss.esp0 - BitVec.ofNat 32 depth.val

def fileCall (img : Image) (en : Entry) (c : FileCall) (m : Machine) :
    Option (Outcome × Machine) :=
  (getPcb (espAt m en.depth)).bind fun r =>
    (perform img en.env c ⟨m.pcbs r, m.dev⟩).map fun res =>
      (.returns res.ret, { m.setPcb r res.task.pcb with dev := res.task.dev })

/-- A call that faults is the last thing the machine does. -/
def completed (r : Option (Outcome × Machine)) : Option (Outcome × Machine) :=
  r.filter fun x => x.1.leaves

def sysCall (img : Image) (en : Entry) : SysCall → Machine → Option (Outcome × Machine)
  | .halt status, m => completed
    (sysHalt img en.behind (espAt m en.depth) ⟨espAt m en.nestedDepth, en.nestedEbp⟩ status m)
  | .execute command, m => completed
    (sysExecute img en.behind (espAt m en.depth) ⟨espAt m en.execDepth, en.execEbp⟩
      ⟨espAt m en.nestedDepth, en.nestedEbp⟩ command m)
  | .file c, m => fileCall img en c m
  | .getargs buf nbytes, m =>
    (sysGetargs en.env.stack buf.null nbytes ((getPcb (espAt m en.depth)).map m.pcbs)).map
      fun r => (.returns r.1, m)
  | .vidmap screenStart, m =>
    if ∀ a ∈ vidmapStores screenStart, Paging.Mapped m.paging a then
      some (.returns (sysVidmap screenStart).1, m)
    else none

def leave (control : Option (Fin 6)) : Outcome → Option (Fin 6)
  | .returns _ => control
  | .starts slot _ _ => some slot
  | .resumes esp _ _ => getPcb esp
  | .faults _ _ => none

theorem completed_eq_some {r : Option (Outcome × Machine)} {o : Outcome} {m : Machine} :
    completed r = some (o, m) ↔ r = some (o, m) ∧ o.leaves = true :=
  Option.filter_eq_some_iff

def onKey (scancode : Byte) (m : Machine) : Machine :=
  { m with dev := { m.dev with
      keyboard := m.dev.keyboard.handler scancode
      console := m.dev.keyboard.echo scancode m.dev.console } }

def onTick (m : Machine) : Machine :=
  { m with dev := { m.dev with rtc := m.dev.rtc.rtcHandler } }

def step (img : Image) : Event → System → Option System
  | .call en c, s => (sysCall img en c s.machine).map fun r => ⟨r.2, leave s.control r.1⟩
  | .key scancode, s => some { s with machine := onKey scancode s.machine }
  | .tick, s => some { s with machine := onTick s.machine }

def ready (pcbs : Fin 6 → Pcb) (screen : Console) (table : Word) (pages : PageTables) :
    Machine where
  pcbs := pcbs
  dev := ⟨Keyboard.init, screen.clearTerm, Rtc.init⟩
  paging := Paging.pageInit table pages
  tss := ⟨kernelDs, 0x800000⟩

/-- The first `sys_execute`; if it returns, the kernel halts for good. -/
def boot (img : Image) (behind : Memory) (f : Frame) (m : Machine) : Option System :=
  match executeShell img behind f m with
  | some (.starts slot _ _, m') => some ⟨m', some slot⟩
  | _ => none

def coldStart : Machine :=
  ready (fun _ => Pcb.zero) ⟨fun _ => 0, 0, 0⟩ 0x405000 ⟨fun _ => 0, fun _ _ => 0⟩

end System

end LumettaOS
