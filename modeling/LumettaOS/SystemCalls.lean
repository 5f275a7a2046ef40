import LumettaOS.Traps

/-! The way of a system call, from the call of a stub of ece391syscall.S to the return of the
stub, and the two that change stacks on the way: `sys_execute` leaves through `iret` into the
program it starts, and the `sys_halt` of that program comes back out of the same
`sys_execute`, to the parent. -/

namespace LumettaOS.SystemCalls
open Lib.Stack Gates Traps Dispatch

/-- `DO_CALL` up to its `INT`; `back` is the address of the `POPL` behind it. The arguments
are read at `8(%ESP)`, `12(%ESP)` and `16(%ESP)`. -/
def stub (number back : Word) (s : Traps.Cpu) : Traps.Cpu :=
  let s := s.push (s.regs .ebx)
  let s := s.setReg .eax number
  let s := s.setReg .ebx (s.word 2)
  let s := s.setReg .ecx (s.word 3)
  let s := s.setReg .edx (s.word 4)
  { s with eip := back }

def leaveStub (s : Traps.Cpu) : Traps.Cpu :=
  let s := { s.setReg .ebx (s.word 0) with esp := slot s.esp 1 }
  { s with eip := s.word 0, esp := slot s.esp 1 }

def int80 (idt : Idt) (tss : Tss) (s : Traps.Cpu) : Except Fault Traps.Cpu :=
  (checkGate idt (.int s.level) 0x80).map fun g => s.deliver g tss none

def leaveWrapper (s : Traps.Cpu) (d : Dispatch.Cpu) : Traps.Cpu := { s with toCpu := d }.iret

def doCall (idt : Idt) (tss : Tss) (callee : Callee) (behind : Word → Word) (number back : Word)
    (s : Traps.Cpu) : Option Traps.Cpu :=
  match int80 idt tss (stub number back s) with
  | .error _ => none
  | .ok k => (syscallWrapper callee behind k.toCpu).value.map fun d => leaveStub (leaveWrapper k d)

/-- `sys_execute` from its call up to the assembly that saves `esp` and `ebp`: the call pushes
`ret`, the function its `ebp`, and below are its local variables. -/
def enterExecute (ret : Word) (locals : Nat) (s : Traps.Cpu) : Traps.Cpu :=
  let s := (s.push ret).push s.ebp
  { s with ebp := s.esp, esp := s.esp - 4 * BitVec.ofNat 32 locals }

def userSp : Word := Word.mb132 - 4

def userFlags (s : Traps.Cpu) : Word := s.eflags &&& 0xFFFCFFFF ||| 0x200

def atEntry (entryPoint : Word) (s : Traps.Cpu) : Traps.Cpu := { s with
  eip := entryPoint, cs := userCs, eflags := userFlags s, esp := userSp, ss := userDs }

def contextSwitch (entryPoint : Word) (s : Traps.Cpu) : Traps.Cpu :=
  let s := s.setReg .eax (s.regs .eax &&& 0xFFFF0000 ||| userDs.setWidth 32)
  let s := s.setReg .edx (userFlags s)
  (s.pushes [userDs.setWidth 32, userSp, userFlags s, userCs.setWidth 32, entryPoint]).iret

def executeRet (esp ebp eax : Word) (s : Traps.Cpu) : Traps.Cpu :=
  let s := { s.setReg .eax eax with esp := esp, ebp := ebp }
  let s := { s with esp := s.ebp }
  let s := { s with ebp := s.word 0, esp := slot s.esp 1 }
  { s with eip := s.word 0, esp := slot s.esp 1 }

/-- Where a process resumes its parent, on through the wrapper and the stub of the parent. -/
def resume : Execute.Outcome → Traps.Cpu → Option Traps.Cpu
  | .resumes esp ebp eax, s =>
    let s := executeRet esp ebp eax s
    (popAll { s.toCpu with eaxMem := s.regs .eax }).value.map fun d =>
      leaveStub (leaveWrapper s d)
  | _, _ => none

structure Returned (s : Traps.Cpu) (value : Word) (s' : Traps.Cpu) : Prop where
  eax : s'.regs .eax = value
  ebx : s'.regs .ebx = s.regs .ebx
  esp : s'.esp = slot s.esp 1
  eip : s'.eip = s.word 0
  ebp : s'.ebp = s.ebp
  eflags : s'.eflags = s.eflags
  cs : s'.cs = s.cs
  ss : s'.ss = s.ss

structure Started (entryPoint : Word) (s : Traps.Cpu) : Prop where
  eip : s.eip = entryPoint
  cs : s.cs = userCs
  ss : s.ss = userDs
  esp : s.esp = userSp
  interrupts : s.eflags.getLsbD 9 = true

section Kernel

variable {u t : Traps.Cpu}

theorem leaveWrapper_same {d : Dispatch.Cpu} (h : Top d.stack d.esp (frame u))
    (user : u.level ≠ 0) (kernel : t.level = 0) :
    Same { u with regs := d.regs, ebp := t.ebp, esi := t.esi, edi := t.edi } (leaveWrapper t d) :=
  iret_same h kernel rfl rfl rfl rfl fun level => absurd level user

theorem popAll_spec (c : Dispatch.Cpu) : ∃ d, (popAll c).value = some d ∧
    d.regs .eax = c.regs .eax ∧ d.esp = slot c.esp 3 ∧ d.stack = c.stack := by
  refine ⟨_, rfl, rfl, ?_, rfl⟩
  change c.esp + 4 + 4 + 4 = slot c.esp 3
  simp only [slot]
  bv_omega

def callState (k : Traps.Cpu) : Traps.Cpu := k.pushes [k.regs .edx, k.regs .ecx, k.regs .ebx]

end Kernel

section Stub

variable (number back : Word) (s : Traps.Cpu)

theorem stub_regs :
    (stub number back s).regs .eax = number ∧ (stub number back s).regs .ebx = s.word 1 ∧
      (stub number back s).regs .ecx = s.word 2 ∧ (stub number back s).regs .edx = s.word 3 :=
  ⟨rfl, push_word _ s (by decide), push_word _ s (by decide), push_word _ s (by decide)⟩

theorem stub_top :
    Top (stub number back s).stack (stub number back s).esp [s.regs .ebx, s.word 0] := by
  intro i w hw
  match i with
  | 0 =>
    rw [slot_zero]
    exact (Function.update_self ..).trans (Option.some.inj hw)
  | 1 => exact (push_word _ s (i := 0) (by decide)).trans (Option.some.inj hw)

theorem leaveStub_returned {s₁ : Traps.Cpu}
    (same : Same { stub number back s with regs := s₁.regs, esi := s₁.esi, edi := s₁.edi } s₁)
    (top : Top s₁.stack s₁.esp [s.regs .ebx, s.word 0]) :
    Returned s (s₁.regs .eax) (leaveStub s₁) where
  eax := rfl
  ebx := top 0 _ rfl
  esp := by
    change slot (slot s₁.esp 1) 1 = _
    rw [same.esp, slot_slot]
    exact slot_pushed s.esp 1
  eip := by
    change s₁.stack (slot (slot s₁.esp 1) 0) = _
    rw [slot_slot]
    exact top 1 _ rfl
  ebp := same.ebp
  eflags := same.eflags
  cs := same.cs
  ss := same.ss

end Stub

section RoundTrip

variable (link : Handler → Word) (old : Idt) (tss : Tss) (number back : Word) (s : Traps.Cpu)

/-- A program in user mode, whose stack lies above the kernel's; the kernel stack has room for
the way back, the arguments and the first words of a function. -/
structure InUserMode : Prop where
  level : s.level = 3
  apart : tss.esp0.toNat + 4 ≤ s.esp.toNat
  room : 40 ≤ tss.esp0.toNat

theorem userCpu_inUserMode : InUserMode ⟨0x18, 0x7FFFFC⟩ userCpu :=
  ⟨by decide, by decide, by decide⟩

def enteredWrapper : Traps.Cpu := (stub number back s).deliver (gateOf link 0x80) tss none

def inExecute (ret : Word) (locals : Nat) : Traps.Cpu :=
  enterExecute ret locals (callState (enteredWrapper link tss 2 back s))

/-- A program as `k` starts it that calls `ece391_halt` first: the kernel when `sys_halt` is
called. -/
def inHalt (entryPoint status ret : Word) (k : Traps.Cpu) : Traps.Cpu :=
  callState (enteredWrapper link tss 1 back ((contextSwitch entryPoint k).pushes [status, ret]))

theorem int80_enters (level : s.level = 3) :
    int80 (idtInit link old) tss (stub number back s) =
      .ok (enteredWrapper link tss number back s) := by
  have same : (stub number back s).level = 3 := level
  have gate : checkGate (idtInit link old) (.int 3) 0x80 = .ok (gateOf link 0x80) := by
    unfold checkGate
    simp [gate_idtInit, gateOf, isPresent, Source.level]
  rw [int80, same, gate]
  rfl

variable {tss s}

variable (user : InUserMode tss s)
include user

theorem InUserMode.outer : (stub number back s).level ≠ 0 := by
  change s.level ≠ 0
  rw [user.level]
  decide

theorem InUserMode.start : start tss (stub number back s) = tss.esp0 :=
  if_neg (user.outer number back)

theorem callState_pushed :
    Pushed { stub number back s with esp := tss.esp0 }
      ([s.word 1, s.word 2, s.word 3] ++ frame (stub number back s))
      (callState (enteredWrapper link tss number back s)) := by
  obtain ⟨-, ebx, ecx, edx⟩ := stub_regs number back s
  obtain ⟨regs, -⟩ := deliver_registers (gateOf link 0x80) tss none (stub number back s)
  have five := length_frame (stub number back s)
  have room := user.room
  have entered := deliver_pushed (gateOf link 0x80) tss none (stub number back s)
    (by rw [user.start number back]; omega)
  rw [user.start number back] at entered
  change Pushed _ (frame (stub number back s)) (enteredWrapper link tss number back s) at entered
  have all := entered.pushes [(enteredWrapper link tss number back s).regs .edx,
    (enteredWrapper link tss number back s).regs .ecx,
    (enteredWrapper link tss number back s).regs .ebx] (entered.left (n := 3) (by
      change _ ≤ tss.esp0.toNat
      omega))
  have words : [s.word 1, s.word 2, s.word 3] =
      [(enteredWrapper link tss number back s).regs .edx,
        (enteredWrapper link tss number back s).regs .ecx,
        (enteredWrapper link tss number back s).regs .ebx].reverse := by
    rw [← ebx, ← ecx, ← edx, enteredWrapper, regs]
    rfl
  rw [words]
  exact all

omit user in
theorem callState_level : (callState (enteredWrapper link tss number back s)).level = 0 := by
  unfold Traps.Cpu.level
  rw [callState, pushes_cs]
  change kernelCs.setWidth 2 = (0 : BitVec 2)
  decide

theorem back_to_caller {t : Traps.Cpu} {d : Dispatch.Cpu}
    (frame_on : Top d.stack d.esp (frame (stub number back s))) (kernel : t.level = 0)
    (ebp : t.ebp = s.ebp) (words : d.stack (s.esp - 4) = s.regs .ebx ∧ d.stack s.esp = s.word 0) :
    Returned s (d.regs .eax) (leaveStub (leaveWrapper t d)) ∧
      (leaveStub (leaveWrapper t d)).esi = t.esi ∧ (leaveStub (leaveWrapper t d)).edi = t.edi := by
  have same := leaveWrapper_same frame_on (user.outer number back) kernel
  have stack : (leaveWrapper t d).stack = d.stack := iret_stack _
  generalize leaveWrapper t d = s₁ at *
  have esp : s₁.esp = s.esp - 4 := same.esp
  have top : Top s₁.stack s₁.esp [s.regs .ebx, s.word 0] := by
    rw [stack, esp]
    intro i w hw
    match i with
    | 0 =>
      rw [slot_zero, words.1]
      exact Option.some.inj hw
    | 1 =>
      rw [slot_pushed, slot_zero, words.2]
      exact Option.some.inj hw
  have eax : s₁.regs .eax = d.regs .eax := congrFun same.regs .eax
  rw [← eax]
  exact ⟨leaveStub_returned number back s ⟨rfl, same.esp, same.ebp.trans ebp, rfl, rfl,
    same.eflags, same.eip, same.cs, same.ss⟩ top, same.esi, same.edi⟩

theorem callState_words :
    (callState (enteredWrapper link tss number back s)).stack (s.esp - 4) = s.regs .ebx ∧
      (callState (enteredWrapper link tss number back s)).stack s.esp = s.word 0 := by
  have apart := user.apart
  have saved := stub_top number back s
  have high : tss.esp0 ≤ s.esp - 4 ∧ tss.esp0 ≤ s.esp := by
    rw [BitVec.le_def, BitVec.le_def, pushed_toNat (by omega)]
    omega
  have kept := (callState_pushed link number back user).above
  rw [kept _ high.1, kept _ high.2]
  have first := saved 0 _ rfl
  have second := saved 1 _ rfl
  have last : slot (stub number back s).esp 1 = s.esp :=
    (slot_pushed s.esp 0).trans (slot_zero s.esp)
  rw [slot_zero] at first
  rw [last] at second
  exact ⟨first, second⟩

omit user in
theorem enteredWrapper_registers :
    (enteredWrapper link tss number back s).regs .eax = number ∧
      (enteredWrapper link tss number back s).ebp = s.ebp ∧
      (enteredWrapper link tss number back s).esi = s.esi ∧
      (enteredWrapper link tss number back s).edi = s.edi ∧
      (enteredWrapper link tss number back s).level = 0 := by
  obtain ⟨regs, ebp, esi, edi, -⟩ :=
    deliver_registers (gateOf link 0x80) tss none (stub number back s)
  refine ⟨?_, ebp, esi, edi, ?_⟩
  · rw [enteredWrapper, regs]
    rfl
  · change kernelCs.setWidth 2 = (0 : BitVec 2)
    decide

theorem frame_kept {mem : Word → Word}
    (same : ∀ i < 5, mem (slot (slot (callState (enteredWrapper link tss number back s)).esp 3) i) =
      (callState (enteredWrapper link tss number back s)).stack
        (slot (slot (callState (enteredWrapper link tss number back s)).esp 3) i)) :
    Top mem (slot (callState (enteredWrapper link tss number back s)).esp 3)
      (frame (stub number back s)) := by
  have five := length_frame (stub number back s)
  have on := (callState_pushed link number back user).top.pop
    (v := [s.word 1, s.word 2, s.word 3])
  intro i w hw
  have inside := (List.getElem?_eq_some_iff.mp hw).1
  rw [same i (by omega)]
  exact on i w hw

/-- A stub is a call of the function behind its number: the function finds the three
arguments of the stub, and where it comes back and has left the caller's stack alone, the
stub returns what the function returned, with the registers of a C call as they were. A
number behind the table gives -1. -/
theorem system_call_returns {callee : Callee} (conv : Cdecl callee) (behind : Word → Word) :
    Top (callState (enteredWrapper link tss number back s)).stack
        (callState (enteredWrapper link tss number back s)).esp [s.word 1, s.word 2, s.word 3] ∧
      (∀ f r, 1 ≤ number.toNat → sysCallTable[number.toNat]? = some f →
        callee (.listed f) (callState (enteredWrapper link tss number back s)).toCpu = some r →
        r.stack (s.esp - 4) = s.regs .ebx → r.stack s.esp = s.word 0 →
        ∃ s', doCall (idtInit link old) tss callee behind number back s = some s' ∧
          Returned s (r.regs .eax) s' ∧ s'.esi = s.esi ∧ s'.edi = s.edi) ∧
      (9 < number ∨ number.toInt ≤ 0 →
        ∃ s', doCall (idtInit link old) tss callee behind number back s = some s' ∧
          Returned s (-1) s' ∧ s'.esi = s.esi ∧ s'.edi = s.edi) := by
  obtain ⟨eax, ebp, esi, edi, level⟩ := @enteredWrapper_registers link tss number back s
  have call : doCall (idtInit link old) tss callee behind number back s =
      (syscallWrapper callee behind (enteredWrapper link tss number back s).toCpu).value.map
        fun d => leaveStub (leaveWrapper (enteredWrapper link tss number back s) d) := by
    rw [doCall, int80_enters link old tss number back s user.level]
  -- what is left once the wrapper has popped its registers
  have finish {d : Dispatch.Cpu} (value : (syscallWrapper callee behind
      (enteredWrapper link tss number back s).toCpu).value = some d)
      (on : Top d.stack d.esp (frame (stub number back s)))
      (words : d.stack (s.esp - 4) = s.regs .ebx ∧ d.stack s.esp = s.word 0) :
      ∃ s', doCall (idtInit link old) tss callee behind number back s = some s' ∧
        Returned s (d.regs .eax) s' ∧ s'.esi = s.esi ∧ s'.edi = s.edi := by
    obtain ⟨returned, esi', edi'⟩ := back_to_caller number back user on level ebp words
    exact ⟨_, by rw [call, value]; rfl, returned, esi'.trans esi, edi'.trans edi⟩
  refine ⟨(callState_pushed link number back user).top.first,
    fun f r positive listed returned first second => ?_, fun outside => ?_⟩
  · have inside : number.toNat < 9 := (List.getElem?_eq_some_iff.mp listed).1
    obtain ⟨-, value⟩ := @wrapper_call callee behind (enteredWrapper link tss number back s).toCpu
      (by rw [eax]; exact positive) (by rw [eax]; omega)
    have entry : entryAt behind number = .listed f := by rw [entryAt, listed]
    rw [eax, entry, show Dispatch.pushed (enteredWrapper link tss number back s).toCpu =
      (callState (enteredWrapper link tss number back s)).toCpu from rfl, returned,
      Option.bind_some] at value
    obtain ⟨d, popped, result, esp, stack⟩ := popAll_spec { r with eaxMem := r.regs .eax }
    obtain ⟨same, kept⟩ := conv _ _ _ returned
    rw [← result]
    refine finish (value.trans popped) ?_ ?_
    · rw [stack, esp]
      change Top r.stack (slot r.esp 3) _
      rw [same]
      exact frame_kept link number back user kept
    · rw [stack]
      exact ⟨first, second⟩
  · obtain ⟨-, value⟩ := @wrapper_invalid callee behind
      (enteredWrapper link tss number back s).toCpu (by rw [eax]; exact outside)
    obtain ⟨d, popped, -, esp, stack⟩ :=
      popAll_spec (callState (enteredWrapper link tss number back s)).toCpu
    have refused : (invalid (callState (enteredWrapper link tss number back s)).toCpu).value =
        some (Dispatch.setReg .eax (-1) d) := by
      rw [invalid, Lib.Logged.bind_value, popped]
      rfl
    refine finish (d := Dispatch.setReg .eax (-1) d) (value.trans refused) ?_ ?_
    · change Top d.stack d.esp _
      rw [stack, esp]
      exact frame_kept link number back user fun _ _ => rfl
    · change d.stack _ = _ ∧ d.stack _ = _
      rw [stack]
      exact callState_words link number back user

omit user in
theorem system_call_returns_vidmap :
    ∃ s', doCall (idtInit (fun _ => 0x400000) fun _ => ⟨0, 0⟩) ⟨0x18, 0x7FFFFC⟩ vidmapOnly
      (fun _ => 0) 8 0x08048100 userCpu = some s' ∧ Returned userCpu (-1) s' := by
  have words := callState_words (fun _ => 0x400000) 8 0x08048100 userCpu_inUserMode
  obtain ⟨-, returns, -⟩ := system_call_returns (fun _ => 0x400000) (fun _ => ⟨0, 0⟩) 8
    0x08048100 userCpu_inUserMode vidmapOnly_cdecl fun _ => 0
  obtain ⟨s', run, returned, -⟩ := returns .sysVidmap _ (by decide) rfl rfl words.1 words.2
  exact ⟨s', run, returned⟩

omit user in
theorem contextSwitch_started (entryPoint : Word) {k : Traps.Cpu} (kernel : k.level = 0)
    (room : 20 ≤ k.esp.toNat) : Started entryPoint (contextSwitch entryPoint k) := by
  unfold contextSwitch
  simp only
  generalize hp : (k.setReg .eax (k.regs .eax &&& 0xFFFF0000 ||| userDs.setWidth 32)).setReg .edx
    (userFlags (k.setReg .eax (k.regs .eax &&& 0xFFFF0000 ||| userDs.setWidth 32))) = p
  have level : p.level = 0 := by
    rw [← hp]
    exact kernel
  have pushed := (Pushed.none p).pushes
    [userDs.setWidth 32, userSp, userFlags p, userCs.setWidth 32, entryPoint]
    (by rw [← hp]; exact room)
  have inside (vs : List Word) : (p.pushes vs).level = 0 := by
    rw [Cpu.level, pushes_cs]
    exact level
  have outer : (atEntry entryPoint p).level ≠ 0 := by
    change userCs.setWidth 2 ≠ (0 : BitVec 2)
    decide
  have on := pushed.top
  rw [show [userDs.setWidth 32, userSp, userFlags p, userCs.setWidth 32, entryPoint].reverse ++ [] =
    frame (atEntry entryPoint p) from (frame_user outer).symm] at on
  have same := iret_same on (inside _) (pushes_regs _ p) (pushes_ebp _ p) (pushes_esi _ p)
    (pushes_edi _ p) fun inner => absurd inner outer
  refine ⟨same.eip, same.cs, same.ss, same.esp, ?_⟩
  rw [same.eflags]
  simp [atEntry, userFlags]

/-- A program that calls `ece391_execute` gets the status of the program it starts. That one
is entered in user mode with interrupts on; when it halts, with the parent's part of its
kernel stack and its page as they were, control is back behind the call of the parent, with
the status extended to a word in `eax`. `ebx`, `ebp`, `esp` and the flags are the caller's;
nothing restores `esi` and `edi`. -/
theorem execute_returns (ret : Word) (locals : Nat) (deep : 4 * locals + 60 ≤ tss.esp0.toNat) :
    (∀ entryPoint, Started entryPoint
      (contextSwitch entryPoint (inExecute link tss back s ret locals))) ∧
    ∀ (h : Traps.Cpu) (m : Machine) (r : Fin 6) (status : Byte), h.level = 0 →
      Above (inExecute link tss back s ret locals).ebp tss.esp0
        (inExecute link tss back s ret locals).stack h.stack →
      h.stack (s.esp - 4) = s.regs .ebx → h.stack s.esp = s.word 0 →
      (m.pcbs r).savedEsp = (inExecute link tss back s ret locals).esp →
      (m.pcbs r).savedEbp = (inExecute link tss back s ret locals).ebp →
      ∃ s', resume (Execute.resumeParent r status m).1 h = some s' ∧
        Returned s (status.signExtend 32) s' ∧ s'.esi = h.esi ∧ s'.edi = h.edi := by
  have ebp : (callState (enteredWrapper link tss 2 back s)).ebp = s.ebp :=
    (pushes_ebp _ _).trans (@enteredWrapper_registers link tss 2 back s).2.1
  have level := @callState_level link tss 2 back s
  have pushed := callState_pushed link 2 back user
  unfold inExecute
  generalize callState (enteredWrapper link tss 2 back s) = k at *
  have depth : k.esp.toNat + 4 * 8 = tss.esp0.toNat := by
    have esp := pushed.esp
    rw [List.length_append, frame_user (user.outer 2 back)] at esp
    exact esp
  have call_room : (k.esp - 4).toNat = k.esp.toNat - 4 := pushed_toNat (by omega)
  have base_room : (k.esp - 4 - 4).toNat = k.esp.toNat - 4 - 4 := by
    rw [pushed_toNat (by omega), call_room]
  refine ⟨fun entryPoint => contextSwitch_started entryPoint level ?_,
    fun h m r status kernel kept first second savedEsp savedEbp => ?_⟩
  · change 20 ≤ (k.esp - 4 - 4 - 4 * BitVec.ofNat 32 locals).toNat
    bv_omega
  · have called := pushed.push ret (by omega)
    have framed := called.push k.ebp (by change 4 ≤ (k.esp - 4).toNat; omega)
    have on := framed.top.above kept (le_of_eq framed.esp)
    change Top h.stack (enterExecute ret locals k).ebp _ at on
    have outcome : (Execute.resumeParent r status m).1 = .resumes
        (enterExecute ret locals k).esp (enterExecute ret locals k).ebp
        (status.signExtend 32) := by
      rw [← savedEsp, ← savedEbp]
      rfl
    rw [outcome, resume]
    generalize (enterExecute ret locals k).esp = esp at *
    generalize (enterExecute ret locals k).ebp = base at *
    have own : (executeRet esp base (status.signExtend 32) h).ebp = s.ebp := by
      rw [← ebp]
      exact on 0 _ rfl
    have top : (executeRet esp base (status.signExtend 32) h).esp = slot base 2 :=
      slot_slot base 1 1
    obtain ⟨d, popped, eax, moved, stack⟩ := popAll_spec
      { (executeRet esp base (status.signExtend 32) h).toCpu with
        eaxMem := (executeRet esp base (status.signExtend 32) h).regs .eax }
    have back_on : Top d.stack d.esp (frame (stub 2 back s)) := by
      rw [stack, moved]
      change Top h.stack (slot (executeRet esp base (status.signExtend 32) h).esp 3) _
      rw [top, slot_slot]
      exact on.pop (v := [k.ebp, ret, s.word 1, s.word 2, s.word 3])
    obtain ⟨returned, esi, edi⟩ := back_to_caller 2 back user
      (t := executeRet esp base (status.signExtend 32) h) back_on kernel own
      (by rw [stack]; exact ⟨first, second⟩)
    have value : d.regs .eax = status.signExtend 32 :=
      eax.trans (setReg_same .eax (status.signExtend 32) h)
    rw [value] at returned
    exact ⟨_, by rw [popped]; rfl, returned, esi, edi⟩

omit user in
theorem inHalt_kept {k : Traps.Cpu} (kernel : k.level = 0) (room : 40 ≤ tss.esp0.toNat)
    (below : tss.esp0 ≤ k.esp) (inside : k.esp.toNat < 0x800000) (entryPoint status ret : Word) :
    (inHalt link tss back entryPoint status ret k).word 0 = status ∧
      ∀ a, k.esp ≤ a → a.toNat + 12 < userSp.toNat →
        (inHalt link tss back entryPoint status ret k).stack a = k.stack a := by
  rw [BitVec.le_def] at below
  have started := contextSwitch_started entryPoint kernel (by omega)
  have own : (contextSwitch entryPoint k).esp.toNat = 0x083FFFFC := by
    rw [started.esp]
    decide
  have first {a : Word} (low : k.esp ≤ a) : (contextSwitch entryPoint k).stack a = k.stack a := by
    rw [contextSwitch, iret_stack]
    refine ((Pushed.none _).pushes _ ?_).above a low
    change 20 ≤ k.esp.toNat
    omega
  have esp : (contextSwitch entryPoint k).esp = userSp := started.esp
  have cs : (contextSwitch entryPoint k).cs = userCs := started.cs
  unfold inHalt
  generalize contextSwitch entryPoint k = u at *
  have pushed := (Pushed.none u).pushes [status, ret] (by rw [own]; simp)
  have calls : InUserMode tss (u.pushes [status, ret]) := by
    refine ⟨?_, ?_, room⟩
    · rw [Traps.Cpu.level, pushes_cs, cs]
      decide
    · have place : (u.pushes [status, ret]).esp.toNat + 4 * 2 = u.esp.toNat := pushed.esp
      omega
  have entered := callState_pushed link 1 back calls
  refine ⟨(entered.word (i := 0) rfl).trans (pushed.word (i := 1) rfl), fun a low high => ?_⟩
  rw [← esp] at high
  have stub_kept : (stub 1 back (u.pushes [status, ret])).stack a = u.stack a :=
    pushes_below [status, ret, (u.pushes [status, ret]).regs .ebx] high
  rw [← first low, ← stub_kept]
  refine entered.above a ?_
  change tss.esp0 ≤ a
  bv_omega

omit user in
theorem execute_returns_status :
    let parent := { userCpu with esp := 0x083FFF00 }
    let k := inExecute (fun _ => 0x400000) ⟨0x18, 0x7FFFFC⟩ 0x08048100 parent 0x400400 50
    let h := inHalt (fun _ => 0x400000) ⟨0x18, 0x7FDFFC⟩ 0x08048300 0x08048094 0xFE 0x08048200 k
    let p : Pcb := { Pcb.zero with savedEsp := k.esp, savedEbp := k.ebp }
    let m : Machine := ⟨Function.update (fun _ => Pcb.zero) 1 p,
      ⟨Keyboard.init, ⟨fun _ => 0, 0, 0⟩, Rtc.init⟩, ⟨fun _ => 0, fun _ _ => 0⟩, ⟨0x18, 0x7FDFFC⟩⟩
    h.word 0 = 0xFE ∧
      ∃ s', resume (Execute.resumeParent 1 0xFE m).1 h = some s' ∧ Returned parent (-2) s' := by
  intro parent k h p m
  have user : InUserMode ⟨0x18, 0x7FFFFC⟩ parent := ⟨by decide, by decide, by decide⟩
  have base : k.ebp = 0x7FFFD4 := by decide
  have top : k.esp = 0x7FFF0C := by decide
  have words : k.stack (parent.esp - 4) = parent.regs .ebx ∧
      k.stack parent.esp = parent.word 0 := by decide
  obtain ⟨-, returns⟩ := execute_returns (fun _ => 0x400000) 0x08048100 user 0x400400 50 (by decide)
  obtain ⟨status, kept⟩ := @inHalt_kept (fun _ => 0x400000) ⟨0x18, 0x7FDFFC⟩ 0x08048300 k
    (by decide) (by decide) (by rw [top]; decide) (by rw [top]; decide) 0x08048094 0xFE 0x08048200
  change h.word 0 = 0xFE at status
  change ∀ a, k.esp ≤ a → a.toNat + 12 < userSp.toNat → h.stack a = k.stack a at kept
  have level : h.level = 0 := callState_level _ _ _
  clear_value h
  have above : Above k.ebp 0x7FFFFC k.stack h.stack := by
    intro a low high
    rw [base] at low
    refine kept a ?_ ?_
    · rw [top]
      bv_omega
    · rw [show userSp.toNat = 0x083FFFFC by decide]
      bv_omega
  obtain ⟨s', run, returned, -⟩ := returns h m 1 0xFE level above
    ((kept (parent.esp - 4) (by rw [top]; decide) (by decide)).trans words.1)
    ((kept parent.esp (by rw [top]; decide) (by decide)).trans words.2) rfl rfl
  exact ⟨status, s', run, returned⟩

end RoundTrip

end LumettaOS.SystemCalls
