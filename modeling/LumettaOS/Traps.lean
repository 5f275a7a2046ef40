import LumettaOS.Lib.Stack
import LumettaOS.Dispatch
import LumettaOS.Gates

/-! The way of an interrupt into the kernel and back: what the processor does at a gate of
the IDT, the wrappers of handler_wrapper.S, and `iret`. The handlers are compiled C and are
known by their calling convention. As in `Dispatch`, the stack is kept by the addresses of
its words. -/

namespace LumettaOS.Traps
open Lib.Stack Gates

structure Cpu extends Dispatch.Cpu where
  ebp : Word
  esi : Word
  edi : Word
  eflags : Word
  eip : Word
  cs : BitVec 16
  ss : BitVec 16
  cr2 : Word

namespace Cpu

def level (s : Cpu) : BitVec 2 := s.cs.setWidth 2

def word (s : Cpu) (i : Nat) : Word := s.stack (slot s.esp i)

def push (v : Word) (s : Cpu) : Cpu :=
  { s with esp := s.esp - 4, stack := Function.update s.stack (s.esp - 4) v }

def pushes (vs : List Word) (s : Cpu) : Cpu := vs.foldl (fun s v => s.push v) s

def setReg (r : Dispatch.Reg) (v : Word) (s : Cpu) : Cpu :=
  { s with regs := Function.update s.regs r v }

def pushal (s : Cpu) : Cpu :=
  s.pushes [s.regs .eax, s.regs .ecx, s.regs .edx, s.regs .ebx, s.esp, s.ebp, s.esi, s.edi]

/-- The word of `esp` is skipped. -/
def popal (s : Cpu) : Cpu :=
  { s with
    edi := s.word 0
    esi := s.word 1
    ebp := s.word 2
    regs := fun r => match r with
      | .ebx => s.word 4
      | .edx => s.word 5
      | .ecx => s.word 6
      | .eax => s.word 7
    esp := slot s.esp 8 }

/-- The bits VM and RF are pushed as 0. -/
def pushfl (s : Cpu) : Cpu := s.push (s.eflags &&& 0xFFFCFFFF)

def popfl (s : Cpu) : Cpu := { s with eflags := s.word 0, esp := slot s.esp 1 }

def gateFlags (eflags : Word) : Word := eflags &&& 0xFFFCBCFF

/-- A program in user mode is interrupted on the stack of the TSS, with its own stack
pointer as the first words there; the kernel stays on its stack. -/
def onKernelStack (tss : Tss) (s : Cpu) : Cpu :=
  if s.level = 0 then s
  else { s with esp := tss.esp0, ss := tss.ss0.setWidth 16 }.pushes [s.ss.setWidth 32, s.esp]

def deliver (g : Gate) (tss : Tss) (code : Option Word) (s : Cpu) : Cpu :=
  { (s.onKernelStack tss).pushes ([s.eflags, s.cs.setWidth 32, s.eip] ++ code.toList) with
    eflags := gateFlags s.eflags
    cs := g.selector
    eip := g.offset }

def iret (s : Cpu) : Cpu :=
  if s.level < (s.word 1).setWidth 2 then
    { s with
      eip := s.word 0
      cs := (s.word 1).setWidth 16
      eflags := s.word 2
      esp := s.word 3
      ss := (s.word 4).setWidth 16 }
  else
    { s with
      eip := s.word 0
      cs := (s.word 1).setWidth 16
      eflags := s.word 2
      esp := slot s.esp 3 }

end Cpu

abbrev Body := Cpu → Option Cpu

/-- `keyboard_handler_wrapper`, `rtc_handler_wrapper` and those of the exceptions, but for
two. -/
def wrapper (handler : Body) (s : Cpu) : Option Cpu :=
  (handler s.pushal.pushfl).map fun s => s.popfl.popal.iret

/-- `gp_handler_wrapper` and `pf_handler_wrapper` up to their call, from which they do not
come back: `cr2` and what `40(%esp)` reads are the arguments. -/
def faultEntry (s : Cpu) : Cpu :=
  let s := s.pushal.pushfl
  let s := s.setReg .eax s.cr2
  let s := s.push (s.regs .eax)
  s.push (s.word 10)

section Push

variable {s s' : Cpu} {ws : List Word}

structure Pushed (s : Cpu) (ws : List Word) (s' : Cpu) : Prop where
  esp : s'.esp.toNat + 4 * ws.length = s.esp.toNat
  top : Top s'.stack s'.esp ws
  above : ∀ a, s.esp ≤ a → s'.stack a = s.stack a

theorem Pushed.none (s : Cpu) : Pushed s [] s := ⟨by simp, .nil, fun _ _ => rfl⟩

theorem Pushed.push (h : Pushed s ws s') (v : Word) (room : 4 ≤ s'.esp.toNat) :
    Pushed s (v :: ws) (s'.push v) where
  esp := by
    change (s'.esp - 4).toNat + _ = _
    rw [pushed_toNat room, List.length_cons, ← h.esp]
    omega
  top := h.top.push v room (e := s.esp) (by rw [h.esp])
  above a low := by
    have higher : s'.esp ≤ s.esp := by
      rw [BitVec.le_def, ← h.esp]
      omega
    exact (update_pushed s'.stack v room (BitVec.le_trans higher low)).trans (h.above a low)

theorem Pushed.pushes (h : Pushed s ws s') (vs : List Word) (room : 4 * vs.length ≤ s'.esp.toNat) :
    Pushed s (vs.reverse ++ ws) (s'.pushes vs) := by
  induction vs generalizing s' ws with
  | nil => exact h
  | cons v vs ih =>
    rw [List.length_cons] at room
    have next := h.push v (by omega)
    have left : 4 * vs.length ≤ (s'.push v).esp.toNat := by
      have moved := next.esp
      have before := h.esp
      rw [List.length_cons] at moved
      omega
    rw [List.reverse_cons, List.append_assoc]
    exact ih next left

theorem Pushed.word (h : Pushed s ws s') {i : Nat} {w : Word} (at_i : ws[i]? = some w) :
    s'.word i = w := h.top i w at_i

theorem push_word (v : Word) (s : Cpu) {i : Nat} (near : i + 1 < 2 ^ 30) :
    (s.push v).word (i + 1) = s.word i := by
  change Function.update s.stack (s.esp - 4) v (slot (s.esp - 4) (i + 1)) = _
  rw [slot_pushed, Function.update_of_ne (slot_ne_pushed s.esp near)]
  rfl

@[simp] theorem setReg_same (r : Dispatch.Reg) (v : Word) (s : Cpu) : (s.setReg r v).regs r = v :=
  Function.update_self ..

theorem Pushed.setReg (h : Pushed s ws s') (r : Dispatch.Reg) (v : Word) :
    Pushed s ws (s'.setReg r v) := ⟨h.esp, h.top, h.above⟩

theorem Pushed.left (h : Pushed s ws s') {n : Nat} (room : 4 * (n + ws.length) ≤ s.esp.toNat) :
    4 * n ≤ s'.esp.toNat := by
  have esp := h.esp
  omega

theorem pushes_below (vs : List Word) {s : Cpu} {a : Word}
    (low : a.toNat + 4 * vs.length < s.esp.toNat) : (s.pushes vs).stack a = s.stack a := by
  induction vs generalizing s with
  | nil => rfl
  | cons v vs ih =>
    rw [List.length_cons] at low
    have moved : (s.push v).esp.toNat = s.esp.toNat - 4 := pushed_toNat (by omega)
    refine (ih (s := s.push v) (by omega)).trans (Function.update_of_ne (fun e => ?_) _ _)
    change (s.esp - 4).toNat = _ at moved
    rw [e, moved] at low
    omega

theorem pushes_eq (vs : List Word) (s : Cpu) :
    s.pushes vs = { s with esp := (s.pushes vs).esp, stack := (s.pushes vs).stack } := by
  induction vs generalizing s with
  | nil => rfl
  | cons v vs ih => exact ih (s.push v)

variable (vs : List Word) (s : Cpu)

@[simp] theorem pushes_regs : (s.pushes vs).regs = s.regs := by rw [pushes_eq]
@[simp] theorem pushes_ebp : (s.pushes vs).ebp = s.ebp := by rw [pushes_eq]
@[simp] theorem pushes_esi : (s.pushes vs).esi = s.esi := by rw [pushes_eq]
@[simp] theorem pushes_edi : (s.pushes vs).edi = s.edi := by rw [pushes_eq]
@[simp] theorem pushes_cs : (s.pushes vs).cs = s.cs := by rw [pushes_eq]
@[simp] theorem pushes_ss : (s.pushes vs).ss = s.ss := by rw [pushes_eq]
@[simp] theorem pushes_cr2 : (s.pushes vs).cr2 = s.cr2 := by rw [pushes_eq]

end Push

section Frame

def start (tss : Tss) (s : Cpu) : Word := if s.level = 0 then s.esp else tss.esp0

def frame (s : Cpu) : List Word :=
  [s.eip, s.cs.setWidth 32, s.eflags] ++ if s.level = 0 then [] else [s.esp, s.ss.setWidth 32]

theorem frame_user {s : Cpu} (h : s.level ≠ 0) :
    frame s = [s.eip, s.cs.setWidth 32, s.eflags, s.esp, s.ss.setWidth 32] := by
  rw [frame, if_neg h]
  rfl

theorem length_frame (s : Cpu) : (frame s).length ≤ 5 := by
  unfold frame
  split <;> simp

variable (g : Gate) (tss : Tss) (code : Option Word) (s : Cpu)

theorem onKernelStack_pushed (room : 8 ≤ (start tss s).toNat) :
    Pushed { s with esp := start tss s } (if s.level = 0 then [] else [s.esp, s.ss.setWidth 32])
      (s.onKernelStack tss) := by
  unfold start Cpu.onKernelStack at *
  by_cases h : s.level = 0
  · simp only [if_pos h] at room ⊢
    exact .none s
  · simp only [if_neg h] at room ⊢
    have two := (Pushed.none { s with esp := tss.esp0, ss := tss.ss0.setWidth 16 }).pushes
      [s.ss.setWidth 32, s.esp] room
    exact ⟨two.esp, two.top, two.above⟩

theorem deliver_pushed (room : 24 ≤ (start tss s).toNat) :
    Pushed { s with esp := start tss s } (code.toList ++ frame s) (s.deliver g tss code) := by
  have first := onKernelStack_pushed tss s (by omega)
  have moved : (start tss s).toNat ≤ (s.onKernelStack tss).esp.toNat + 8 := by
    have esp := first.esp
    split at esp <;> simp at esp <;> omega
  have short : code.toList.length ≤ 1 := by cases code <;> simp
  have all := first.pushes ([s.eflags, s.cs.setWidth 32, s.eip] ++ code.toList)
    (by simp only [List.length_append, List.length_cons, List.length_nil]; omega)
  have words : code.toList ++ frame s = ([s.eflags, s.cs.setWidth 32, s.eip] ++
      code.toList).reverse ++ if s.level = 0 then [] else [s.esp, s.ss.setWidth 32] := by
    rw [frame]
    cases code <;> rfl
  rw [words]
  exact ⟨all.esp, all.top, all.above⟩

theorem deliver_registers :
    (s.deliver g tss code).regs = s.regs ∧ (s.deliver g tss code).ebp = s.ebp ∧
      (s.deliver g tss code).esi = s.esi ∧ (s.deliver g tss code).edi = s.edi ∧
      (s.deliver g tss code).cr2 = s.cr2 ∧
      (s.level = 0 → (s.deliver g tss code).ss = s.ss) := by
  unfold Cpu.deliver Cpu.onKernelStack
  by_cases h : s.level = 0
  · simp [h]
  · simp only [if_neg h, pushes_regs, pushes_ebp, pushes_esi, pushes_edi, pushes_cr2, true_and]
    exact fun e => absurd e h

end Frame

structure Same (s s' : Cpu) : Prop where
  regs : s'.regs = s.regs
  esp : s'.esp = s.esp
  ebp : s'.ebp = s.ebp
  esi : s'.esi = s.esi
  edi : s'.edi = s.edi
  eflags : s'.eflags = s.eflags
  eip : s'.eip = s.eip
  cs : s'.cs = s.cs
  ss : s'.ss = s.ss

def saved (s : Cpu) : List Word :=
  [s.edi, s.esi, s.ebp, s.esp, s.regs .ebx, s.regs .edx, s.regs .ecx, s.regs .eax]

section Return

variable {s p : Cpu} {ws : List Word}

theorem popal_eq (h : Top s.stack s.esp (saved p ++ ws)) :
    s.popal = { s with
      regs := p.regs, ebp := p.ebp, esi := p.esi, edi := p.edi, esp := slot s.esp 8 } := by
  have regs : s.popal.regs = p.regs := by
    funext r
    cases r with
    | eax => exact h 7 _ rfl
    | ebx => exact h 4 _ rfl
    | ecx => exact h 6 _ rfl
    | edx => exact h 5 _ rfl
  have edi : s.word 0 = p.edi := h 0 _ rfl
  have esi : s.word 1 = p.esi := h 1 _ rfl
  have ebp : s.word 2 = p.ebp := h 2 _ rfl
  unfold Cpu.popal at regs ⊢
  rw [edi, esi, ebp]
  rw [edi, esi, ebp] at regs
  exact congrArg (fun f => ({ s with
    regs := f, ebp := p.ebp, esi := p.esi, edi := p.edi, esp := slot s.esp 8 } : Cpu)) regs

@[simp] theorem iret_stack (s : Cpu) : s.iret.stack = s.stack := by
  unfold Cpu.iret
  split <;> rfl

theorem selector_pushed (v : BitVec 16) :
    (v.setWidth 32).setWidth 16 = v ∧ (v.setWidth 32).setWidth 2 = v.setWidth 2 := by
  refine ⟨by simp, ?_⟩
  exact BitVec.setWidth_setWidth_of_le v (by omega)

/-- `iret` in the kernel finds the frame of `p`: the stack of a program in user mode comes
from the frame, the one of the kernel is the one the frame was on. -/
theorem iret_same (h : Top s.stack s.esp (frame p)) (kernel : s.level = 0)
    (regs : s.regs = p.regs) (ebp : s.ebp = p.ebp) (esi : s.esi = p.esi) (edi : s.edi = p.edi)
    (own : p.level = 0 → slot s.esp 3 = p.esp ∧ s.ss = p.ss) : Same p s.iret := by
  have eip : s.word 0 = p.eip := h 0 _ (by rw [frame]; rfl)
  have cs : s.word 1 = p.cs.setWidth 32 := h 1 _ (by rw [frame]; rfl)
  have eflags : s.word 2 = p.eflags := h 2 _ (by rw [frame]; rfl)
  obtain ⟨selector, rpl⟩ := selector_pushed p.cs
  unfold Cpu.iret
  rw [eip, cs, eflags, kernel, selector, rpl]
  by_cases level : p.level = 0
  · have inner : ¬ 0 < p.cs.setWidth 2 := by
      rw [show p.cs.setWidth 2 = 0 from level]
      decide
    rw [if_neg inner]
    exact ⟨regs, (own level).1, ebp, esi, edi, rfl, rfl, rfl, (own level).2⟩
  · have outer : 0 < p.cs.setWidth 2 := by
      have ne : p.cs.setWidth 2 ≠ 0 := level
      bv_omega
    rw [if_pos outer]
    rw [frame_user level] at h
    refine ⟨regs, h 3 _ rfl, ebp, esi, edi, rfl, rfl, rfl, ?_⟩
    change (s.word 4).setWidth 16 = p.ss
    rw [show s.word 4 = p.ss.setWidth 32 from h 4 _ rfl, (selector_pushed p.ss).1]

end Return

/-- A part of a handler: it comes back with the stack pointer `down` words below the place
`up` words above where it was, and has stored nothing on the stack from there on. -/
def Moves (end_ : Word) (up down : Nat) (f : Body) : Prop :=
  ∀ s : Cpu, ∃ s', f s = some s' ∧ slot s'.esp down = slot s.esp up ∧ s'.cs = s.cs ∧
    s'.ss = s.ss ∧ Above (slot s.esp up) end_ s.stack s'.stack

/-- An interrupt that is served: its vector, its handler up to the point where interrupts are
on again, the interrupts that are served there, and the rest of the handler. A handler
has one such point here, although interrupts stay on from it to the end of the wrapper. -/
inductive Service where
  | mk (v : BitVec 8) (locals : Nat) (first : Body) (nested : List Service) (last : Body)

mutual

def serve (idt : Idt) (tss : Tss) : Service → Cpu → Option Cpu
  | .mk v _ first nested last, s =>
    wrapper (fun s => (first s).bind fun s => (serveAll idt tss nested s).bind last)
      (s.deliver (idt v).gate tss none)

def serveAll (idt : Idt) (tss : Tss) : List Service → Cpu → Option Cpu
  | [], s => some s
  | t :: ts, s => (serve idt tss t s).bind (serveAll idt tss ts)

end

mutual

def words : Service → Nat
  | .mk _ locals _ nested _ => 12 + locals + wordsAll nested

def wordsAll : List Service → Nat
  | [] => 0
  | t :: ts => max (words t) (wordsAll ts)

end

mutual

def Regular (end_ : Word) : Service → Prop
  | .mk _ locals first nested last =>
    Moves end_ 0 locals first ∧ RegularAll end_ nested ∧ Moves end_ locals 0 last

def RegularAll (end_ : Word) : List Service → Prop
  | [] => True
  | t :: ts => Regular end_ t ∧ RegularAll end_ ts

end

section Wrapper

variable (g : Gate) (tss : Tss) (s : Cpu) {end_ : Word}

def entered : Cpu := (s.deliver g tss none).pushal.pushfl

theorem pushal_pushed {p k : Cpu} {ws : List Word} (h : Pushed p ws k) (room : 32 ≤ k.esp.toNat) :
    Pushed p (saved k ++ ws) k.pushal :=
  h.pushes [k.regs .eax, k.regs .ecx, k.regs .edx, k.regs .ebx, k.esp, k.ebp, k.esi, k.edi] room

theorem entered_pushed (room : 4 * (9 + (frame s).length) ≤ (start tss s).toNat) :
    ∃ flags esp, Pushed { s with esp := start tss s }
      (flags :: (saved { s with esp := esp } ++ frame s)) (entered g tss s) := by
  obtain ⟨regs, ebp, esi, edi, -⟩ := deliver_registers g tss none s
  have three : 3 ≤ (frame s).length := by simp [frame]
  have first : Pushed { s with esp := start tss s } (frame s) (s.deliver g tss none) :=
    deliver_pushed g tss none s (by omega)
  unfold entered
  generalize s.deliver g tss none = k at *
  have registers : saved k = saved { s with esp := k.esp } := by
    simp only [saved, regs, ebp, esi, edi]
  have left : k.esp.toNat + 4 * (frame s).length = (start tss s).toNat := first.esp
  have second := pushal_pushed first (by omega)
  have moved : k.pushal.esp.toNat + 4 * (8 + (frame s).length) = (start tss s).toNat := by
    have esp := second.esp
    rw [List.length_append] at esp
    exact esp
  rw [registers] at second
  exact ⟨_, k.esp, second.push _ (by omega)⟩

theorem entered_segments : (entered g tss s).cs = g.selector ∧
    (s.level = 0 → (entered g tss s).ss = s.ss) := by
  obtain ⟨-, -, -, -, -, ss⟩ := deliver_registers g tss none s
  have cs : (s.deliver g tss none).cs = g.selector := rfl
  unfold entered
  generalize s.deliver g tss none = k at *
  exact ⟨(pushes_cs _ k).trans cs, fun h => (pushes_ss _ k).trans (ss h)⟩

variable {g tss s}

theorem wrapper_same (body : Body) (kernel : g.selector.setWidth 2 = (0 : BitVec 2))
    (room : 4 * (9 + (frame s).length) ≤ (start tss s).toNat) (fits : start tss s ≤ end_)
    {k : Cpu} (back : body (entered g tss s) = some k) (esp : k.esp = (entered g tss s).esp)
    (cs : k.cs = (entered g tss s).cs) (ss : k.ss = (entered g tss s).ss)
    (above : Above (entered g tss s).esp end_ (entered g tss s).stack k.stack) :
    ∃ s', wrapper body (s.deliver g tss none) = some s' ∧ Same s s' ∧
      Above (start tss s) end_ s.stack s'.stack := by
  obtain ⟨flags, old, pushed⟩ := entered_pushed g tss s room
  obtain ⟨selector, stack⟩ := entered_segments g tss s
  have depth := pushed.esp
  have on := pushed.top.above above (by rw [depth]; exact fits)
  rw [← esp] at on depth
  have regs_on : Top k.popfl.stack k.popfl.esp (saved { s with esp := old } ++ frame s) :=
    on.pop (v := [flags])
  have frame_on : Top k.popfl.stack (slot k.popfl.esp 8) (frame s) := regs_on.pop
  have lower : (entered g tss s).esp ≤ start tss s := by
    rw [BitVec.le_def, ← esp]
    change _ = (start tss s).toNat at depth
    omega
  refine ⟨k.popfl.popal.iret, ?_, ?_, ?_⟩
  · rw [wrapper]
    exact congrArg (Option.map fun s => s.popfl.popal.iret) back
  · rw [popal_eq regs_on]
    refine iret_same frame_on ?_ rfl rfl rfl rfl fun level => ⟨?_, ?_⟩
    · change k.cs.setWidth 2 = (0 : BitVec 2)
      rw [cs, selector]
      exact kernel
    · change slot (slot (slot k.esp 1) 8) 3 = s.esp
      have own : start tss s = s.esp := if_pos level
      rw [slot_slot, slot_slot, ← own]
      have twelve : (flags :: (saved { s with esp := old } ++ frame s)).length = 12 := by
        rw [frame, if_pos level]
        rfl
      rw [twelve] at depth
      change k.esp.toNat + 4 * 12 = (start tss s).toNat at depth
      have limit := (start tss s).isLt
      exact BitVec.eq_of_toNat_eq (by rw [slot_toNat k.esp (by omega)]; omega)
    · change k.ss = s.ss
      rw [ss, stack level]
  · rw [iret_stack]
    exact Above.trans (fun a low _ => pushed.above a low) (above.mono lower)

end Wrapper

theorem Same.refl (s : Cpu) : Same s s := ⟨rfl, rfl, rfl, rfl, rfl, rfl, rfl, rfl, rfl⟩

theorem Same.trans {s s' s'' : Cpu} (h : Same s s') (h' : Same s' s'') : Same s s'' where
  regs := h'.regs.trans h.regs
  esp := h'.esp.trans h.esp
  ebp := h'.ebp.trans h.ebp
  esi := h'.esi.trans h.esi
  edi := h'.edi.trans h.edi
  eflags := h'.eflags.trans h.eflags
  eip := h'.eip.trans h.eip
  cs := h'.cs.trans h.cs
  ss := h'.ss.trans h.ss

/-- What is promised of an interrupt: the program goes on as if nothing had happened, and so
does everything on the stack it was taken on. -/
def Undone (tss : Tss) (end_ : Word) (s s' : Cpu) : Prop :=
  Same s s' ∧ Above (start tss s) end_ s.stack s'.stack

section Nested

variable {tss : Tss} {end_ : Word}

theorem Same.level {s s' : Cpu} (h : Same s s') : s'.level = s.level := by
  unfold Cpu.level
  rw [h.cs]

theorem start_kernel {s : Cpu} (h : s.level = 0) : start tss s = s.esp := if_pos h

theorem handler_returns (middle : Body) {locals : Nat} {first last : Body} {k : Cpu}
    (kernel : k.level = 0) (opens : Moves end_ 0 locals first) (closes : Moves end_ locals 0 last)
    (room : 4 * locals ≤ k.esp.toNat)
    (serves : ∀ a : Cpu, a.level = 0 → a.esp.toNat + 4 * locals = k.esp.toNat →
      ∃ b, middle a = some b ∧ Undone tss end_ a b) :
    ∃ c, ((first k).bind fun a => (middle a).bind last) = some c ∧ c.esp = k.esp ∧ c.cs = k.cs ∧
      c.ss = k.ss ∧ Above k.esp end_ k.stack c.stack := by
  obtain ⟨a, ha, espA, csA, ssA, aboveA⟩ := opens k
  rw [slot_zero] at espA aboveA
  have down : a.esp.toNat + 4 * locals = k.esp.toNat := by
    rw [← espA] at room ⊢
    simp only [slot] at room ⊢
    bv_omega
  have levelA : a.level = 0 := by
    unfold Cpu.level at kernel ⊢
    rw [csA, kernel]
  obtain ⟨b, hb, same, aboveB⟩ := serves a levelA down
  rw [start_kernel levelA] at aboveB
  obtain ⟨c, hc, espC, csC, ssC, aboveC⟩ := closes b
  rw [slot_zero, same.esp, espA] at espC
  rw [same.esp, espA] at aboveC
  have lower : a.esp ≤ k.esp := by
    rw [BitVec.le_def]
    omega
  refine ⟨c, ?_, espC, ?_, ?_, ?_⟩
  · rw [ha, Option.bind_some, hb, Option.bind_some, hc]
  · rw [csC, same.cs, csA]
  · rw [ssC, same.ss, ssA]
  · exact (aboveA.trans (aboveB.mono lower)).trans aboveC

mutual

theorem serve_undone {idt : Idt}
    (kernel : ∀ v, (idt v).gate.selector.setWidth 2 = (0 : BitVec 2)) :
    (t : Service) → Regular end_ t → ∀ s : Cpu,
    4 * (words t + (frame s).length) ≤ (start tss s).toNat + 12 → start tss s ≤ end_ →
    ∃ s', serve idt tss t s = some s' ∧ Undone tss end_ s s'
  | .mk v locals first nested last, regular, s, room, fits => by
    obtain ⟨opens, inside, closes⟩ := regular
    have needed : 4 * (9 + (frame s).length + (locals + wordsAll nested)) ≤
        (start tss s).toNat := by
      simp only [words] at room
      omega
    obtain ⟨flags, old, pushed⟩ := entered_pushed (idt v).gate tss s (by omega)
    obtain ⟨selector, -⟩ := entered_segments (idt v).gate tss s
    have depth := pushed.esp
    rw [List.length_cons, List.length_append] at depth
    change _ + 4 * (8 + (frame s).length + 1) = (start tss s).toNat at depth
    have level : (entered (idt v).gate tss s).level = 0 := by
      unfold Cpu.level
      rw [selector, kernel]
    obtain ⟨k, back, esp, cs, ss, above⟩ := handler_returns (serveAll idt tss nested) level opens
      closes (by omega) fun a inKernel down => by
        have below : a.esp ≤ start tss s := by
          rw [BitVec.le_def]
          omega
        exact serveAll_undone kernel nested inside a inKernel (by omega)
          (BitVec.le_trans below fits)
    exact wrapper_same (fun k => (first k).bind fun a => (serveAll idt tss nested a).bind last)
      (kernel v) (by omega) fits back esp cs ss above

theorem serveAll_undone {idt : Idt}
    (kernel : ∀ v, (idt v).gate.selector.setWidth 2 = (0 : BitVec 2)) :
    (ts : List Service) → RegularAll end_ ts → ∀ s : Cpu, s.level = 0 →
    4 * wordsAll ts ≤ s.esp.toNat → s.esp ≤ end_ →
    ∃ s', serveAll idt tss ts s = some s' ∧ Undone tss end_ s s'
  | [], _, s, _, _, _ => ⟨s, rfl, .refl s, .refl _ _ _⟩
  | t :: ts, regular, s, level, room, fits => by
    have own : start tss s = s.esp := start_kernel level
    have three : (frame s).length = 3 := by
      rw [frame, if_pos level]
      rfl
    rw [wordsAll] at room
    obtain ⟨s₁, h₁, same₁, above₁⟩ := serve_undone kernel t regular.1 s (by rw [own, three]; omega)
      (by rw [own]; exact fits)
    have level₁ : s₁.level = 0 := by rw [same₁.level, level]
    obtain ⟨s₂, h₂, same₂, above₂⟩ := serveAll_undone kernel ts regular.2 s₁ level₁
      (by rw [same₁.esp]; omega) (by rw [same₁.esp]; exact fits)
    rw [start_kernel level₁, same₁.esp, ← own] at above₂
    exact ⟨s₂, by rw [serveAll, h₁, Option.bind_some, h₂], same₁.trans same₂, above₁.trans above₂⟩

end

end Nested

/-- With the gates of `idt_init`: an interrupt that arrives in user mode or in the kernel,
with all the interrupts that are served inside it at any depth, comes back to the program
with every register and flag as it was, and with the stack in use and what lies above it. -/
theorem interrupts_undone (link : Handler → Word) (old : Idt) (tss : Tss) {end_ : Word}
    {t : Service} (regular : Regular end_ t) (s : Cpu)
    (room : 4 * (words t + 2) ≤ (start tss s).toNat) (fits : start tss s ≤ end_) :
    ∃ s', serve (idtInit link old) tss t s = some s' ∧ Same s s' ∧
      Above (start tss s) end_ s.stack s'.stack := by
  have kernel : ∀ v, (idtInit link old v).gate.selector.setWidth 2 = (0 : BitVec 2) := by
    intro v
    rw [gate_idtInit]
    change kernelCs.setWidth 2 = (0 : BitVec 2)
    decide
  have short := length_frame s
  exact serve_undone kernel t regular s (by omega) fits

def pushing (v : BitVec 8) (nested : List Service) : Service :=
  .mk v 1 (fun s => some (s.push 0)) nested (fun s => some { s with esp := slot s.esp 1 })

theorem pushing_regular {e : Word} (low : e ≤ 0x800000) (v : BitVec 8) {nested : List Service}
    (h : RegularAll e nested) : Regular e (pushing v nested) := by
  refine ⟨fun s => ⟨s.push 0, rfl, ?_, rfl, rfl, ?_⟩, h, fun s => ⟨_, rfl, slot_zero _, rfl, rfl,
    .refl _ _ _⟩⟩
  · rw [slot_zero]
    exact BitVec.sub_add_cancel s.esp 4
  · rw [slot_zero]
    intro a above below
    refine Function.update_of_ne (fun same => ?_) _ _
    rw [same] at above below
    bv_omega

def userCpu : Cpu where
  regs := fun _ => 7
  esp := 0x083FFFF0
  stack := fun _ => 0
  eaxMem := 0
  ebp := 1
  esi := 2
  edi := 3
  eflags := 0x202
  eip := 0x08048094
  cs := userCs
  ss := userDs
  cr2 := 0

theorem interrupts_undone_clock :
    ∃ s', serve (idtInit (fun _ => 0x400000) fun _ => ⟨0, 0⟩) ⟨0x18, 0x7FFFFC⟩
      (pushing 40 [pushing 33 [], pushing 40 []]) userCpu = some s' ∧ Same userCpu s' := by
  have low : (0x7FFFFC : Word) ≤ 0x800000 := by decide
  have inside : RegularAll 0x7FFFFC [pushing 33 [], pushing 40 []] :=
    ⟨pushing_regular low 33 trivial, pushing_regular low 40 trivial, trivial⟩
  obtain ⟨s', run, same, -⟩ := interrupts_undone (fun _ => 0x400000) (fun _ => ⟨0, 0⟩)
    ⟨0x18, 0x7FFFFC⟩ (pushing_regular low 40 inside) userCpu (by decide) (by decide)
  exact ⟨s', run, same⟩

end LumettaOS.Traps
