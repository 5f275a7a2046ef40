import LumettaOS.Lib.Runs
import LumettaOS.Gates
import LumettaOS.Pic

/-! Interrupts from the end of `i8259_init` on: the controllers, the interrupt flag, the
keyboard and the clock, and the frames of the handlers that have started and not yet
returned, under every order of device events, acceptances and instructions.

Of the handlers and their wrappers only the instructions that touch this state are
kept. A device holds its line until its handler has read it: the keyboard its output
buffer, the clock register C. -/

namespace LumettaOS.Interrupts
open Gates Lib.Runs

inductive Op where
  | pushfl
  | popfl
  | cli
  | sti
  /-- `inb(KEYBOARD_DATA_PORT)`. -/
  | readScancode
  /-- Register C of the clock, whose contents are thrown away. -/
  | readRegC
  | sendEoi (irq : Word)
  | iret
  deriving DecidableEq

/-- A wrapper with the handler it calls; the exception handlers never return. -/
def code : Handler → Option (List Op)
  | .keyboard => some [.pushfl, .readScancode, .sendEoi 1, .popfl, .iret]
  | .rtc => some [.pushfl, .cli, .readRegC, .sendEoi 8, .sti, .popfl, .iret]
  | _ => none

/-- A started handler: what it still has to do, the flag in the frame that the processor
pushed, and the one that `pushfl` pushed. -/
structure Frame where
  handler : Handler
  rest : List Op
  flags : Bool
  pushed : Bool
  deriving DecidableEq

/-- What `rtc_init`, `keyboard_init` and the end of `entry` do to this state. An
`enable_irq` is its read of the mask and its write. -/
inductive BootOp where
  | cli
  | sti
  | readMask (irq : Word)
  | writeMask (irq : Word)
  deriving DecidableEq

def bootOps : List BootOp :=
  [.cli, .cli, .sti, .readMask 8, .writeMask 8, .sti, .readMask 1, .writeMask 1, .sti]

structure Machine where
  pics : Pics
  iflag : Bool
  scancode : Bool
  regC : Bool
  frames : List Frame
  /-- The position in `bootOps`, and the local `data` of `enable_irq`. -/
  booted : Nat
  data : BitVec 8
  deriving DecidableEq

inductive Event where
  | key
  | tick
  /-- A device that the kernel does not use raises its line. -/
  | other (n : Nat)
  | accept
  | exec
  | boot
  /-- The running program or system call turns the flag on or off. -/
  | base (iflag : Bool)
  deriving DecidableEq

def execOp (f : Frame) (fs : List Frame) (m : Machine) : Option Machine :=
  match f.rest with
  | [] => none
  | op :: rest =>
    let m := { m with frames := { f with rest := rest } :: fs }
    match op with
    | .pushfl => some { m with frames := { f with rest := rest, pushed := m.iflag } :: fs }
    | .popfl => some { m with iflag := f.pushed }
    | .cli => some { m with iflag := false }
    | .sti => some { m with iflag := true }
    | .readScancode => some { m with scancode := false }
    | .readRegC => some { m with regC := false }
    | .sendEoi irq => some { m with pics := m.pics.sendEoi irq }
    | .iret => some { m with iflag := f.flags, frames := fs }

def bootStep (m : Machine) : BootOp → Machine
  | .cli => { m with iflag := false }
  | .sti => { m with iflag := true }
  | .readMask irq =>
    let bit : Word := 1#32 <<< (Pics.maskPort irq).2.toNat
    { m with data := (((m.pics.inb (Pics.maskPort irq).1).setWidth 32 &&& ~~~bit).setWidth 8) }
  | .writeMask irq => { m with pics := m.pics.outb m.data (Pics.maskPort irq).1 }

def accept (m : Machine) : Option Machine :=
  match m.pics.acknowledge with
  | none => none
  | some (v, pics) =>
    if isPresent v.toNat then
      (code (exceptions v.toNat)).map fun ops =>
        { m with
          pics := pics
          iflag := false
          frames := ⟨exceptions v.toNat, ops, m.iflag, false⟩ :: m.frames }
    else none

def step : Event → Machine → Option Machine
  | .key, m =>
    some (if m.scancode then m else { m with scancode := true, pics := m.pics.raise 1 })
  | .tick, m => some (if m.regC then m else { m with regC := true, pics := m.pics.raise 8 })
  | .other n, m => if n = 1 ∨ n = 8 then none else some { m with pics := m.pics.raise n }
  | .accept, m => if m.iflag then accept m else none
  | .exec, m =>
    match m.frames with
    | [] => none
    | f :: fs => execOp f fs m
  | .boot, m =>
    if m.frames = [] then
      bootOps[m.booted]?.map fun op => { bootStep m op with booted := m.booted + 1 }
    else none
  | .base b, m =>
    if m.frames = [] ∧ m.booted = bootOps.length then some { m with iflag := b } else none

/-- After `i8259_init`, with the flag off since boot.S and both devices idle. -/
def initial (pics : Pics) : Machine where
  pics := pics.i8259Init
  iflag := false
  scancode := false
  regC := false
  frames := []
  booted := 0
  data := 0

def serving : List Frame → Option Handler
  | [] => none
  | f :: _ => if f.rest.any (fun op => op matches .sendEoi _) then some f.handler else none

def masterService (frames : List Frame) : BitVec 8 :=
  match serving frames with
  | some .keyboard => Pic.level 1
  | some .rtc => Pic.level 2
  | _ => 0

def slaveService (frames : List Frame) : BitVec 8 :=
  match serving frames with
  | some .rtc => Pic.level 0
  | _ => 0

def toRead (op : Op) : List Frame → Bool
  | [] => false
  | f :: _ => f.rest.contains op

/-- A clock handler that was interrupted behind its `sti`. -/
def window : Frame := ⟨.rtc, [.popfl, .iret], true, false⟩

inductive Innermost : Bool → Frame → Prop where
  | inside {h : Handler} {ops rest : List Op} : code h = some ops → rest ∈ ops.tails → rest ≠ [] →
      (h = .rtc → rest ≠ window.rest) → Innermost false ⟨h, rest, true, false⟩
  | window : Innermost true window

/-- Every other handler was interrupted in the window of the clock's. -/
def Stacked (iflag : Bool) : List Frame → Prop
  | [] => True
  | f :: fs => Innermost iflag f ∧ ∀ g ∈ fs, g = window

def masterMask (booted : Nat) : BitVec 8 := if booted < 8 then 0xFB else 0xF9
def slaveMask (booted : Nat) : BitVec 8 := if booted < 5 then 0xFF else 0xFE

structure Inv (m : Machine) : Prop where
  programmed : m.pics.Programmed
  booted : m.booted ≤ bootOps.length
  masterMask : m.pics.master.imr = masterMask m.booted
  slaveMask : m.pics.slave.imr = slaveMask m.booted
  /-- The mask read for line 8 and the one read for line 1 are still the present ones. -/
  data : (m.booted = 4 → m.data = 0xFE) ∧ (m.booted = 7 → m.data = 0xF9)
  masterService : m.pics.master.isr = masterService m.frames
  slaveService : m.pics.slave.isr = slaveService m.frames
  keyboard : m.pics.master.irr.getLsbD 1 = (m.scancode && !toRead .readScancode m.frames)
  keyboardRead : toRead .readScancode m.frames = true → m.scancode = true
  clock : m.pics.slave.irr.getLsbD 0 = (m.regC && !toRead .readRegC m.frames)
  clockRead : toRead .readRegC m.frames = true → m.regC = true
  stack : Stacked m.iflag m.frames

theorem serving_of_iflag {frames : List Frame} (h : Stacked true frames) :
    serving frames = none := by
  match frames, h with
  | [], _ => rfl
  | f :: fs, h =>
    cases h.1
    rfl

theorem all_window {frames : List Frame} (h : Stacked true frames) : ∀ g ∈ frames, g = window := by
  match frames, h with
  | [], _ => simp
  | f :: fs, h =>
    obtain ⟨top, below⟩ := h
    cases top
    intro g hg
    rcases List.mem_cons.mp hg with rfl | hg
    · rfl
    · exact below g hg

theorem Inv.idle {m : Machine} (h : Inv m) (hi : m.iflag = true) :
    m.pics.master.isr = 0 ∧ m.pics.slave.isr = 0 := by
  have none := serving_of_iflag (hi ▸ h.stack)
  rw [h.masterService, h.slaveService, Interrupts.masterService, Interrupts.slaveService, none]
  exact ⟨rfl, rfl⟩

theorem slave_highest {m : Machine} (h : Inv m) (hi : m.iflag = true) :
    m.pics.slave.highest m.pics.slave.irr =
      if 5 ≤ m.booted ∧ m.pics.slave.irr.getLsbD 0 then some 0 else none := by
  rw [Pic.highest_idle (h.idle hi).2, h.slaveMask, slaveMask]
  by_cases hb : m.booted < 5
  · rw [if_pos hb, Pic.find_open [] (by decide), if_neg (by omega)]
    rfl
  · rw [if_neg hb, Pic.find_open [0] (by decide), List.find?_singleton]
    simp [Nat.le_of_not_lt hb]

theorem requests_one (s : Pics) : s.requests.getLsbD 1 = s.master.irr.getLsbD 1 := by
  unfold Pics.requests
  split
  · rw [Pic.getLsbD_or_level (by decide)]
    simp
  · rfl

theorem master_highest {m : Machine} (h : Inv m) (hi : m.iflag = true) :
    m.pics.master.highest m.pics.requests =
      if 8 ≤ m.booted ∧ m.pics.master.irr.getLsbD 1 then some 1
      else if m.pics.requests.getLsbD 2 then some 2 else none := by
  rw [Pic.highest_idle (h.idle hi).1, h.masterMask, masterMask]
  by_cases hb : m.booted < 8
  · rw [if_pos hb, Pic.find_open [2] (by decide), if_neg (by omega), List.find?_singleton]
  · rw [if_neg hb, Pic.find_open [1, 2] (by decide), List.find?_cons, requests_one,
      List.find?_singleton]
    cases m.pics.master.irr.getLsbD 1 with
    | true => simp [Nat.le_of_not_lt hb]
    | false => simp

theorem acknowledge_eq {m : Machine} (h : Inv m) (hi : m.iflag = true) :
    m.pics.acknowledge =
      if 8 ≤ m.booted ∧ m.pics.master.irr.getLsbD 1 then
        some (33, { m.pics with master := m.pics.master.service 1 })
      else if 5 ≤ m.booted ∧ m.pics.slave.irr.getLsbD 0 then
        some (40, ⟨m.pics.master.service 2, m.pics.slave.service 0⟩)
      else none := by
  have vector1 : m.pics.master.vector 1 = 33 := by rw [Pic.vector, h.programmed.master.2.1]; rfl
  have vector8 : m.pics.slave.vector 0 = 40 := by rw [Pic.vector, h.programmed.slave.2.1]; rfl
  unfold Pics.acknowledge
  rw [master_highest h hi]
  by_cases hk : 8 ≤ m.booted ∧ m.pics.master.irr.getLsbD 1 = true
  · simp only [if_pos hk]
    rw [if_neg (by decide), vector1]
  · rw [if_neg hk, if_neg hk, slave_highest h hi]
    by_cases hc : 5 ≤ m.booted ∧ m.pics.slave.irr.getLsbD 0 = true
    · have asked : m.pics.requests.getLsbD 2 = true := by
        rw [Pics.requests, slave_highest h hi, if_pos hc, Option.isSome_some, if_pos rfl,
          Pic.getLsbD_or_level (by decide)]
        simp
      simp only [asked, if_pos hc, if_true, Option.map_some, vector8]
    · rw [if_neg hc]
      split <;> simp_all

theorem Inv.move {m : Machine} (h : Inv m) {pics : Pics} {iflag scancode regC : Bool}
    {frames : List Frame}
    (master : pics.master = { m.pics.master with isr := pics.master.isr })
    (masterServes : pics.master.isr = Interrupts.masterService frames)
    (slave : pics.slave = { m.pics.slave with isr := pics.slave.isr })
    (slaveServes : pics.slave.isr = Interrupts.slaveService frames)
    (keyboard : (scancode && !toRead .readScancode frames) =
      (m.scancode && !toRead .readScancode m.frames))
    (keyboardRead : toRead .readScancode frames = true → scancode = true)
    (clock : (regC && !toRead .readRegC frames) = (m.regC && !toRead .readRegC m.frames))
    (clockRead : toRead .readRegC frames = true → regC = true) (stack : Stacked iflag frames) :
    Inv { m with pics := pics, iflag := iflag, scancode := scancode, regC := regC
                 frames := frames } where
  programmed := ⟨by rw [master]; exact h.programmed.master, by rw [slave]; exact h.programmed.slave⟩
  booted := h.booted
  masterMask := by rw [master]; exact h.masterMask
  slaveMask := by rw [slave]; exact h.slaveMask
  data := h.data
  masterService := masterServes
  slaveService := slaveServes
  keyboard := by rw [master]; exact h.keyboard.trans keyboard.symm
  keyboardRead := keyboardRead
  clock := by rw [slave]; exact h.clock.trans clock.symm
  clockRead := clockRead
  stack := stack

theorem Inv.quiet {m : Machine} (h : Inv m) {iflag : Bool} {frames : List Frame}
    (serve : serving frames = serving m.frames)
    (reads : ∀ op, op = .readScancode ∨ op = .readRegC → toRead op frames = toRead op m.frames)
    (stack : Stacked iflag frames) : Inv { m with iflag := iflag, frames := frames } := by
  have hm : m.pics.master.isr = Interrupts.masterService frames := by
    rw [h.masterService, Interrupts.masterService, Interrupts.masterService, serve]
  have hs : m.pics.slave.isr = Interrupts.slaveService frames := by
    rw [h.slaveService, Interrupts.slaveService, Interrupts.slaveService, serve]
  have hk := reads .readScancode (Or.inl rfl)
  have hc := reads .readRegC (Or.inr rfl)
  exact h.move rfl hm rfl hs (by rw [hk]) (by rw [hk]; exact h.keyboardRead)
    (by rw [hc]) (by rw [hc]; exact h.clockRead) stack

theorem stacked_true {frames : List Frame} (h : ∀ g ∈ frames, g = window) :
    Stacked true frames := by
  match frames, h with
  | [], _ => trivial
  | f :: fs, h =>
    rw [h f (by simp)]
    exact ⟨.window, fun g hg => h g (by simp [hg])⟩

theorem window_quiet {frames : List Frame} (h : ∀ g ∈ frames, g = window) :
    serving frames = none ∧
      ∀ op, op = .readScancode ∨ op = .readRegC → toRead op frames = false := by
  match frames, h with
  | [], _ => exact ⟨rfl, fun _ _ => rfl⟩
  | f :: fs, h =>
    rw [h f (by simp)]
    refine ⟨rfl, fun op hop => ?_⟩
    rcases hop with rfl | rfl <;> rfl

theorem handler_code {h : Handler} {ops : List Op} (hc : code h = some ops) :
    h = .keyboard ∧ ops = [.pushfl, .readScancode, .sendEoi 1, .popfl, .iret] ∨
      h = .rtc ∧ ops = [.pushfl, .cli, .readRegC, .sendEoi 8, .sti, .popfl, .iret] := by
  cases h <;> simp_all [code]

section Exec

variable {m m' : Machine} {fs : List Frame} {rest : List Op}

theorem sendEoi_keyboard {s : Pics} (h : s.master.isr = Pic.level 1) :
    s.sendEoi 1 = { s with master := { s.master with isr := 0 } } := by
  rw [Pics.sendEoi_eq s (by decide), if_pos (by decide), h]
  rfl

theorem sendEoi_clock {s : Pics} (hm : s.master.isr = Pic.level 2)
    (hs : s.slave.isr = Pic.level 0) :
    s.sendEoi 8 = ⟨{ s.master with isr := 0 }, { s.slave with isr := 0 }⟩ := by
  rw [Pics.sendEoi_eq s (by decide), if_neg (by decide), hm, hs]
  rfl

theorem iret_inv {f : Frame} (h : Inv m) (hf : m.frames = f :: fs) (below : ∀ g ∈ fs, g = window)
    (hr : f.rest = [.iret]) : Inv { m with iflag := true, frames := fs } := by
  obtain ⟨serve, reads⟩ := window_quiet below
  refine h.quiet ?_ (fun op hop => ?_) (stacked_true below)
  · rw [serve, hf, serving, hr]
    rfl
  · rw [reads op hop, hf, toRead, hr]
    rcases hop with rfl | rfl <;> rfl

theorem keyboard_exec (h : Inv m) (hf : m.frames = ⟨.keyboard, rest, true, false⟩ :: fs)
    (below : ∀ g ∈ fs, g = window) (off : m.iflag = false)
    (hr : rest ∈ [Op.pushfl, .readScancode, .sendEoi 1, .popfl, .iret].tails)
    (he : execOp ⟨.keyboard, rest, true, false⟩ fs m = some m') : Inv m' := by
  have position {rest : List Op} {iflag : Bool} (hi : iflag = false) (ne : rest ≠ [])
      (hr : rest ∈ [Op.pushfl, .readScancode, .sendEoi 1, .popfl, .iret].tails) :
      Stacked iflag (⟨.keyboard, rest, true, false⟩ :: fs) :=
    ⟨hi ▸ .inside rfl hr ne (by simp), below⟩
  have hm := h.masterService
  have hs := h.slaveService
  rw [hf] at hm hs
  simp only [List.tails, List.mem_cons, List.not_mem_nil, or_false] at hr
  rcases hr with rfl | rfl | rfl | rfl | rfl | rfl
  · simp only [execOp, off, Option.some.injEq] at he
    subst he
    refine h.quiet (by rw [hf]; rfl) (fun op hop => ?_) (position rfl (by simp) (by decide))
    rw [hf]
    rcases hop with rfl | rfl <;> rfl
  · simp only [execOp, Option.some.injEq] at he
    subst he
    exact h.move rfl hm rfl hs (by rw [hf]; simp [toRead]) (by simp [toRead])
      (by rw [hf]; rfl) (by simp [toRead]) (position off (by simp) (by decide))
  · simp only [execOp, Option.some.injEq] at he
    subst he
    rw [sendEoi_keyboard hm]
    exact h.move rfl rfl rfl hs (by rw [hf]; rfl) (by simp [toRead]) (by rw [hf]; rfl)
      (by simp [toRead]) (position off (by simp) (by decide))
  · simp only [execOp, Option.some.injEq] at he
    subst he
    refine h.quiet (by rw [hf]; rfl) (fun op hop => ?_) (position rfl (by simp) (by decide))
    rw [hf]
    rcases hop with rfl | rfl <;> rfl
  · simp only [execOp, Option.some.injEq] at he
    subst he
    exact iret_inv h hf below rfl
  · simp [execOp] at he

theorem clock_exec (h : Inv m) (hf : m.frames = ⟨.rtc, rest, true, false⟩ :: fs)
    (below : ∀ g ∈ fs, g = window) (off : m.iflag = false)
    (hr : rest ∈ [Op.pushfl, .cli, .readRegC, .sendEoi 8, .sti, .popfl, .iret].tails)
    (nw : rest ≠ window.rest)
    (he : execOp ⟨.rtc, rest, true, false⟩ fs m = some m') : Inv m' := by
  have position {rest : List Op} {iflag : Bool} (hi : iflag = false) (ne : rest ≠ [])
      (nw : rest ≠ window.rest)
      (hr : rest ∈ [Op.pushfl, .cli, .readRegC, .sendEoi 8, .sti, .popfl, .iret].tails) :
      Stacked iflag (⟨.rtc, rest, true, false⟩ :: fs) :=
    ⟨hi ▸ .inside rfl hr ne fun _ => nw, below⟩
  have hm := h.masterService
  have hs := h.slaveService
  rw [hf] at hm hs
  simp only [List.tails, List.mem_cons, List.not_mem_nil, or_false] at hr
  rcases hr with rfl | rfl | rfl | rfl | rfl | rfl | rfl | rfl
  · simp only [execOp, off, Option.some.injEq] at he
    subst he
    refine h.quiet (by rw [hf]; rfl) (fun op hop => ?_)
      (position rfl (by simp) (by decide) (by decide))
    rw [hf]
    rcases hop with rfl | rfl <;> rfl
  · simp only [execOp, Option.some.injEq] at he
    subst he
    refine h.quiet (by rw [hf]; rfl) (fun op hop => ?_)
      (position rfl (by simp) (by decide) (by decide))
    rw [hf]
    rcases hop with rfl | rfl <;> rfl
  · simp only [execOp, Option.some.injEq] at he
    subst he
    exact h.move rfl hm rfl hs (by rw [hf]; rfl) (by simp [toRead])
      (by rw [hf]; simp [toRead]) (by simp [toRead])
      (position off (by simp) (by decide) (by decide))
  · simp only [execOp, Option.some.injEq] at he
    subst he
    rw [sendEoi_clock hm hs]
    exact h.move rfl rfl rfl rfl (by rw [hf]; rfl) (by simp [toRead]) (by rw [hf]; rfl)
      (by simp [toRead]) (position off (by simp) (by decide) (by decide))
  · simp only [execOp, Option.some.injEq] at he
    subst he
    refine h.quiet (by rw [hf]; rfl) (fun op hop => ?_) ⟨.window, below⟩
    rw [hf]
    rcases hop with rfl | rfl <;> rfl
  · exact absurd rfl nw
  · simp only [execOp, Option.some.injEq] at he
    subst he
    exact iret_inv h hf below rfl
  · simp [execOp] at he

theorem window_exec (h : Inv m) (hf : m.frames = window :: fs) (below : ∀ g ∈ fs, g = window)
    (he : execOp window fs m = some m') : Inv m' := by
  simp only [execOp, window, Option.some.injEq] at he
  subst he
  refine h.quiet (by rw [hf]; rfl) (fun op hop => ?_)
    ⟨.inside rfl (by decide) (by simp) (by simp [window]), below⟩
  rw [hf]
  rcases hop with rfl | rfl <;> rfl

theorem exec_inv {f : Frame} (h : Inv m) (hf : m.frames = f :: fs)
    (he : execOp f fs m = some m') : Inv m' := by
  have stack := h.stack
  rw [hf] at stack
  obtain ⟨top, below⟩ := stack
  generalize hi : m.iflag = iflag at top
  cases top with
  | inside hc hr ne nw =>
    obtain ⟨rfl, rfl⟩ | ⟨rfl, rfl⟩ := handler_code hc
    · exact keyboard_exec h hf below hi hr he
    · exact clock_exec h hf below hi hr (nw rfl) he
  | window => exact window_exec h hf below he

end Exec

theorem raise_irr (n : Nat) (s : Pics) :
    (s.raise n).master.irr.getLsbD 1 = (s.master.irr.getLsbD 1 || n = 1) ∧
      (s.raise n).slave.irr.getLsbD 0 = (s.slave.irr.getLsbD 0 || n = 8) ∧
      (s.raise n).master.isr = s.master.isr ∧ (s.raise n).slave.isr = s.slave.isr := by
  unfold Pics.raise
  by_cases h8 : 8 ≤ n
  · rw [if_pos h8]
    refine ⟨by simp [show n ≠ 1 by omega], ?_, rfl, rfl⟩
    rw [Pic.request, Pic.getLsbD_or_level (by decide)]
    simp only [Nat.sub_eq_zero_iff_le]
    congr 2
    simp only [eq_iff_iff]
    omega
  · rw [if_neg h8]
    by_cases h2 : n = 2
    · rw [if_pos h2]
      simp [h2]
    · rw [if_neg h2]
      refine ⟨?_, by simp [show n ≠ 8 by omega], rfl, rfl⟩
      rw [Pic.request, Pic.getLsbD_or_level (by decide)]

theorem Inv.raise {m : Machine} (h : Inv m) (n : Nat) (hk : n = 1 → m.scancode = false)
    (hc : n = 8 → m.regC = false) :
    Inv { m with
      pics := m.pics.raise n
      scancode := m.scancode || n = 1
      regC := m.regC || n = 8 } := by
  obtain ⟨irr1, irr8, isr1, isr8⟩ := raise_irr n m.pics
  have setup := Pics.sameSetup_raise n m.pics
  exact {
    programmed := setup.programmed h.programmed
    booted := h.booted
    masterMask := by rw [setup.1]; exact h.masterMask
    slaveMask := by rw [setup.2]; exact h.slaveMask
    data := h.data
    masterService := by rw [isr1]; exact h.masterService
    slaveService := by rw [isr8]; exact h.slaveService
    keyboard := by
      rw [irr1, h.keyboard]
      by_cases hn : n = 1
      · have idle := hk hn
        have unread : toRead .readScancode m.frames = false :=
          Bool.eq_false_iff.mpr fun r => by simp [h.keyboardRead r] at idle
        simp [hn, idle, unread]
      · simp [hn]
    keyboardRead := fun r => by simp [h.keyboardRead r]
    clock := by
      rw [irr8, h.clock]
      by_cases hn : n = 8
      · have idle := hc hn
        have unread : toRead .readRegC m.frames = false :=
          Bool.eq_false_iff.mpr fun r => by simp [h.clockRead r] at idle
        simp [hn, idle, unread]
      · simp [hn]
    clockRead := fun r => by simp [h.clockRead r]
    stack := h.stack }

def entered (h : Handler) : Frame := ⟨h, (code h).getD [], true, false⟩

theorem accept_cases {m m' : Machine} (h : Inv m) (hi : m.iflag = true) (ha : accept m = some m') :
    (m.pics.master.irr.getLsbD 1 = true ∧ m' = { m with
        pics := { m.pics with master := m.pics.master.service 1 }
        iflag := false
        frames := entered .keyboard :: m.frames }) ∨
      (m.pics.slave.irr.getLsbD 0 = true ∧ m' = { m with
        pics := ⟨m.pics.master.service 2, m.pics.slave.service 0⟩
        iflag := false
        frames := entered .rtc :: m.frames }) := by
  unfold accept at ha
  rw [acknowledge_eq h hi] at ha
  by_cases hk : 8 ≤ m.booted ∧ m.pics.master.irr.getLsbD 1 = true
  · rw [if_pos hk] at ha
    refine Or.inl ⟨hk.2, ?_⟩
    simpa [hi, isPresent, exceptions, code, entered] using ha.symm
  · rw [if_neg hk] at ha
    by_cases hc : 5 ≤ m.booted ∧ m.pics.slave.irr.getLsbD 0 = true
    · rw [if_pos hc] at ha
      refine Or.inr ⟨hc.2, ?_⟩
      simpa [hi, isPresent, exceptions, code, entered] using ha.symm
    · rw [if_neg hc] at ha
      simp at ha

theorem accept_inv {m m' : Machine} (h : Inv m) (hi : m.iflag = true) (ha : accept m = some m') :
    Inv m' := by
  obtain ⟨idleM, idleS⟩ := h.idle hi
  have windows := all_window (hi ▸ h.stack)
  obtain ⟨-, unread⟩ := window_quiet windows
  have unreadK := unread .readScancode (Or.inl rfl)
  have unreadC := unread .readRegC (Or.inr rfl)
  have master := h.programmed.master.2.2.2.1
  have slave := h.programmed.slave.2.2.2.1
  obtain ⟨asked, rfl⟩ | ⟨asked, rfl⟩ := accept_cases h hi ha
  · have waits : m.scancode = true := by
      have hk := h.keyboard
      rw [asked, unreadK] at hk
      simpa using hk.symm
    exact {
      programmed := ⟨h.programmed.master, h.programmed.slave⟩
      booted := h.booted
      masterMask := h.masterMask
      slaveMask := h.slaveMask
      data := h.data
      masterService := by rw [Pic.service_isr master, idleM]; rfl
      slaveService := idleS
      keyboard := by
        rw [Pic.service_irr _ _ (by decide)]
        simp [toRead, entered, code]
      keyboardRead := fun _ => waits
      clock := by rw [h.clock, unreadC]; rfl
      clockRead := by simp [toRead, entered, code]
      stack := ⟨.inside rfl (by decide) (by decide) (by decide), windows⟩ }
  · have waits : m.regC = true := by
      have hc := h.clock
      rw [asked, unreadC] at hc
      simpa using hc.symm
    exact {
      programmed := ⟨h.programmed.master, h.programmed.slave⟩
      booted := h.booted
      masterMask := h.masterMask
      slaveMask := h.slaveMask
      data := h.data
      masterService := by rw [Pic.service_isr master, idleM]; rfl
      slaveService := by rw [Pic.service_isr slave, idleS]; rfl
      keyboard := by
        rw [Pic.service_irr _ _ (by decide), h.keyboard, unreadK]
        simp [toRead, entered, code]
      keyboardRead := by simp [toRead, entered, code]
      clock := by
        rw [Pic.service_irr _ _ (by decide)]
        simp [toRead, entered, code]
      clockRead := fun _ => waits
      stack := ⟨.inside rfl (by decide) (by decide) (by decide), windows⟩ }

theorem Inv.bootNext {m : Machine} (h : Inv m) (hf : m.frames = []) {pics : Pics} {iflag : Bool}
    {data : BitVec 8} (bound : m.booted < bootOps.length)
    (master : pics.master = { m.pics.master with imr := Interrupts.masterMask (m.booted + 1) })
    (slave : pics.slave = { m.pics.slave with imr := Interrupts.slaveMask (m.booted + 1) })
    (read : (m.booted + 1 = 4 → data = 0xFE) ∧ (m.booted + 1 = 7 → data = 0xF9)) :
    Inv { m with pics := pics, iflag := iflag, booted := m.booted + 1, data := data } where
  programmed := ⟨by rw [master]; exact h.programmed.master, by rw [slave]; exact h.programmed.slave⟩
  booted := bound
  masterMask := by rw [master]
  slaveMask := by rw [slave]
  data := read
  masterService := by rw [master]; exact h.masterService
  slaveService := by rw [slave]; exact h.slaveService
  keyboard := by rw [master]; exact h.keyboard
  keyboardRead := h.keyboardRead
  clock := by rw [slave]; exact h.clock
  clockRead := h.clockRead
  stack := hf ▸ trivial

theorem imr_self {p : Pic} {mask : BitVec 8} (h : p.imr = mask) : p = { p with imr := mask } := by
  rw [← h]

theorem boot_inv {m : Machine} (h : Inv m) (hf : m.frames = []) {op : BootOp}
    (ho : bootOps[m.booted]? = some op) : Inv { bootStep m op with booted := m.booted + 1 } := by
  have bound : m.booted < bootOps.length := (List.getElem?_eq_some_iff.mp ho).1
  have hm := h.masterMask
  have hs := h.slaveMask
  have hd := h.data
  obtain ⟨pics, iflag, scancode, regC, frames, booted, data⟩ := m
  have range : booted < 9 := bound
  interval_cases booted <;> obtain rfl := Option.some.inj ho
  · exact h.bootNext hf bound (imr_self hm) (imr_self hs) (by simp)
  · exact h.bootNext hf bound (imr_self hm) (imr_self hs) (by simp)
  · exact h.bootNext hf bound (imr_self hm) (imr_self hs) (by simp)
  · -- the mask of the slave is read, to be written back without bit 0
    refine h.bootNext hf bound (imr_self hm) (imr_self hs) ⟨fun _ => ?_, by simp⟩
    change (((pics.slave.imr).setWidth 32 &&& _).setWidth 8) = (0xFE : BitVec 8)
    rw [show pics.slave.imr = 0xFF from hs]
    rfl
  · have written : pics.outb data (Pics.slavePort + 1) =
        { pics with slave := { pics.slave with imr := 0xFE } } := by
      rw [Pics.outb_slaveMask h.programmed, show data = 0xFE from hd.1 rfl]
    exact h.bootNext hf bound ((congrArg Pics.master written).trans (imr_self hm))
      (congrArg Pics.slave written) (by simp)
  · exact h.bootNext hf bound (imr_self hm) (imr_self hs) (by simp)
  · refine h.bootNext hf bound (imr_self hm) (imr_self hs) ⟨by simp, fun _ => ?_⟩
    change (((pics.master.imr).setWidth 32 &&& _).setWidth 8) = (0xF9 : BitVec 8)
    rw [show pics.master.imr = 0xFB from hm]
    rfl
  · have written : pics.outb data (Pics.masterPort + 1) =
        { pics with master := { pics.master with imr := 0xF9 } } := by
      rw [Pics.outb_masterMask h.programmed, show data = 0xF9 from hd.2 rfl]
    exact h.bootNext hf bound (congrArg Pics.master written)
      ((congrArg Pics.slave written).trans (imr_self hs)) (by simp)
  · exact h.bootNext hf bound (imr_self hm) (imr_self hs) (by simp)

theorem step_inv {e : Event} {m m' : Machine} (h : Inv m) (hs : step e m = some m') : Inv m' := by
  cases e with
  | key =>
    simp only [step, Option.some.injEq] at hs
    subst hs
    split
    · exact h
    · rename_i idle
      have idle := Bool.eq_false_iff.mpr idle
      simpa [idle] using h.raise 1 (fun _ => idle) (by simp)
  | tick =>
    simp only [step, Option.some.injEq] at hs
    subst hs
    split
    · exact h
    · rename_i idle
      have idle := Bool.eq_false_iff.mpr idle
      simpa [idle] using h.raise 8 (by simp) (fun _ => idle)
  | other n =>
    by_cases hn : n = 1 ∨ n = 8
    · simp [step, hn] at hs
    · simp only [step, if_neg hn, Option.some.injEq] at hs
      subst hs
      obtain ⟨n1, n8⟩ := not_or.mp hn
      simpa [n1, n8] using h.raise n (fun e => absurd e n1) (fun e => absurd e n8)
  | accept =>
    by_cases hi : m.iflag = true
    · rw [step, if_pos hi] at hs
      exact accept_inv h hi hs
    · rw [step, if_neg hi] at hs
      exact absurd hs (by simp)
  | exec =>
    cases hf : m.frames with
    | nil => simp [step, hf] at hs
    | cons f fs =>
      simp only [step, hf] at hs
      exact exec_inv h hf hs
  | boot =>
    by_cases hf : m.frames = []
    · rw [step, if_pos hf] at hs
      obtain ⟨op, ho, rfl⟩ := Option.map_eq_some_iff.mp hs
      exact boot_inv h hf ho
    · rw [step, if_neg hf] at hs
      exact absurd hs (by simp)
  | base b =>
    by_cases hf : m.frames = [] ∧ m.booted = bootOps.length
    · rw [step, if_pos hf, Option.some_inj] at hs
      subst hs
      exact h.quiet rfl (fun _ _ => rfl) (hf.1 ▸ trivial)
    · rw [step, if_neg hf] at hs
      exact absurd hs (by simp)

theorem initial_inv (pics : Pics) : Inv (initial pics) := by
  have eq := Pics.i8259Init_eq pics
  exact {
    programmed := Pics.i8259Init_programmed pics
    booted := Nat.zero_le _
    masterMask := by rw [initial, eq]; rfl
    slaveMask := by rw [initial, eq]; rfl
    data := by simp [initial]
    masterService := by rw [initial, eq]; rfl
    slaveService := by rw [initial, eq]; rfl
    keyboard := by rw [initial, eq]; rfl
    keyboardRead := by simp [initial, toRead]
    clock := by rw [initial, eq]; rfl
    clockRead := by simp [initial, toRead]
    stack := trivial }

theorem run_inv {pics : Pics} {es : List Event} {m : Machine}
    (hr : run step es (initial pics) = some m) : Inv m :=
  invariant (fun _ _ _ h hs => step_inv h hs) hr (initial_inv pics)

def inBody (frames : List Frame) : Prop := (serving frames).isSome

/-- In every state that any order of events reaches: a handler's body runs with interrupts
off, so it is never interrupted; with interrupts on no line is in service, so no request
is held back; and a byte of the keyboard or an interrupt of the clock that was not read
yet has its request at the controller, or its handler on the way to the read. -/
theorem interrupts_safe (pics : Pics) (es : List Event) {m : Machine}
    (hr : run step es (initial pics) = some m) :
    (inBody m.frames → m.iflag = false) ∧
      (m.iflag = true → m.pics.master.isr = 0 ∧ m.pics.slave.isr = 0) ∧
      (m.scancode = true →
        m.pics.master.irr.getLsbD 1 = true ∨ toRead .readScancode m.frames = true) ∧
      (m.regC = true → m.pics.slave.irr.getLsbD 0 = true ∨ toRead .readRegC m.frames = true) := by
  have h := run_inv hr
  refine ⟨fun body => ?_, h.idle, fun waits => ?_, fun waits => ?_⟩
  · cases hi : m.iflag with
    | false => rfl
    | true =>
      rw [inBody, serving_of_iflag (hi ▸ h.stack)] at body
      simp at body
  · rw [h.keyboard, waits]
    cases toRead .readScancode m.frames <;> simp
  · rw [h.clock, waits]
    cases toRead .readRegC m.frames <;> simp

def anyPics : Pics := ⟨⟨0, 0, 0, 0, 8, 0, 1, .ocw1⟩, ⟨0, 0, 0, 0, 0x70, 0, 1, .ocw1⟩⟩

def bootedPics (irr isr slaveIrr : BitVec 8) : Pics where
  master := ⟨irr, isr, 0xF9, 0x11, 0x20, 0x04, 0x01, .ocw1⟩
  slave := ⟨slaveIrr, 0, 0xFE, 0x11, 0x28, 0x02, 0x01, .ocw1⟩

theorem interrupts_safe_key :
    ∃ m, run step (.key :: List.replicate 9 .boot ++ [.accept, .exec]) (initial anyPics) = some m ∧
      m.iflag = false ∧ toRead .readScancode m.frames = true := by
  let m : Machine := {
    pics := bootedPics 0 2 0
    iflag := false
    scancode := true
    regC := false
    frames := [⟨.keyboard, [.readScancode, .sendEoi 1, .popfl, .iret], true, false⟩]
    booted := 9
    data := 0xF9 }
  have reached : run step (.key :: List.replicate 9 .boot ++ [.accept, .exec]) (initial anyPics) =
      some m := by decide +kernel
  have safe := interrupts_safe anyPics _ reached
  exact ⟨m, reached, safe.1 rfl, (safe.2.2.1 rfl).resolve_left (by decide)⟩

theorem Inv.waiting {m : Machine} (h : Inv m) (hi : m.iflag = true) :
    m.pics.master.irr.getLsbD 1 = m.scancode ∧ m.pics.slave.irr.getLsbD 0 = m.regC := by
  obtain ⟨-, unread⟩ := window_quiet (all_window (hi ▸ h.stack))
  rw [h.keyboard, h.clock, unread _ (Or.inl rfl), unread _ (Or.inr rfl)]
  simp

theorem accept_eq {m : Machine} (h : Inv m) (hi : m.iflag = true)
    (hb : m.booted = bootOps.length) :
    step .accept m =
      if m.scancode then
        some { m with
          pics := { m.pics with master := m.pics.master.service 1 }
          iflag := false
          frames := entered .keyboard :: m.frames }
      else if m.regC then
        some { m with
          pics := ⟨m.pics.master.service 2, m.pics.slave.service 0⟩
          iflag := false
          frames := entered .rtc :: m.frames }
      else none := by
  obtain ⟨hk, hc⟩ := h.waiting hi
  rw [step, if_pos hi, accept, acknowledge_eq h hi, hk, hc, hb]
  cases m.scancode with
  | true => simp [isPresent, exceptions, code, entered, bootOps, hi]
  | false =>
    cases m.regC with
    | true => simp [isPresent, exceptions, code, entered, bootOps, hi]
    | false => simp

/-- Once booted, a processor that takes interrupts enters the keyboard's handler when a byte
waits, else the clock's when its interrupt waits, and nothing else ever: no request of
another device reaches a vector without a handler. -/
theorem accept_serves (pics : Pics) (es : List Event) {m : Machine}
    (hr : run step es (initial pics) = some m) (hi : m.iflag = true)
    (hb : m.booted = bootOps.length) :
    (step .accept m).map (·.frames) =
      if m.scancode then some (entered .keyboard :: m.frames)
      else if m.regC then some (entered .rtc :: m.frames) else none := by
  rw [accept_eq (run_inv hr) hi hb]
  cases m.scancode <;> cases m.regC <;> rfl

theorem accept_serves_both :
    ∃ m, run step (.tick :: .key :: List.replicate 9 .boot) (initial anyPics) = some m ∧
      (step .accept m).map (·.frames) = some [entered .keyboard] := by
  let m : Machine := {
    pics := bootedPics 2 0 1
    iflag := true
    scancode := true
    regC := true
    frames := []
    booted := 9
    data := 0xF9 }
  have reached : run step (.tick :: .key :: List.replicate 9 .boot) (initial anyPics) =
      some m := by decide +kernel
  exact ⟨m, reached, accept_serves anyPics _ reached rfl rfl⟩

def left (frames : List Frame) : Nat := (frames.map fun f => f.rest.length).sum

theorem exec_progress {m : Machine} {f : Frame} {fs : List Frame} (h : Inv m)
    (hf : m.frames = f :: fs) :
    ∃ m', step .exec m = some m' ∧ left m'.frames + 1 = left m.frames ∧
      m'.booted = m.booted ∧ (m'.frames = [] → m'.iflag = true) := by
  have stack := h.stack
  rw [hf] at stack
  obtain ⟨top, -⟩ := stack
  simp only [step, hf]
  generalize hi : m.iflag = iflag at top
  cases top with
  | inside hc hr ne nw =>
    obtain ⟨rfl, rfl⟩ | ⟨rfl, rfl⟩ := handler_code hc
    all_goals
      simp only [List.tails, List.mem_cons, List.not_mem_nil, or_false] at hr
      revert ne
    · rcases hr with rfl | rfl | rfl | rfl | rfl | rfl <;> intro ne <;>
        first | exact absurd rfl ne | (refine ⟨_, rfl, ?_, rfl, ?_⟩ <;> simp [left]; omega)
    · rcases hr with rfl | rfl | rfl | rfl | rfl | rfl | rfl | rfl <;> intro ne <;>
        first | exact absurd rfl ne | (refine ⟨_, rfl, ?_, rfl, ?_⟩ <;> simp [left]; omega)
  | window => exact ⟨_, rfl, by simp [left, window]; omega, rfl, by simp⟩

/-- If only handlers run, they all return: each instruction is one fewer, and the last
`iret` turns interrupts on again. -/
theorem drain {n : Nat} {m : Machine} (h : Inv m) (hn : left m.frames = n) :
    ∃ m', run step (List.replicate n .exec) m = some m' ∧ m'.frames = [] ∧
      m'.booted = m.booted ∧ (m.frames ≠ [] → m'.iflag = true) := by
  induction n generalizing m with
  | zero =>
    cases hf : m.frames with
    | nil => exact ⟨m, rfl, hf, rfl, by simp⟩
    | cons f fs =>
      obtain ⟨m', -, one, -⟩ := exec_progress h hf
      omega
  | succ n ih =>
    cases hf : m.frames with
    | nil =>
      rw [hf] at hn
      exact absurd hn (by simp [left])
    | cons f fs =>
      obtain ⟨m', he, one, booted, last⟩ := exec_progress h hf
      obtain ⟨m'', hr, hd, booted', on⟩ := ih (step_inv h he) (by omega)
      refine ⟨m'', ?_, hd, booted'.trans booted, fun _ => ?_⟩
      · rw [List.replicate_succ, run_cons, he]
        exact hr
      · by_cases hf' : m'.frames = []
        · have none : n = 0 := by rw [hf'] at one; simp [left] at one hn; omega
          subst none
          rw [List.replicate_zero, run_nil, Option.some_inj] at hr
          exact hr ▸ last hf'
        · exact on hf'

/-- No order of events blocks the handlers: from every state reached, the started handlers
return after the instructions they have left, nothing stays in service, and interrupts are
on again if a handler was running. -/
theorem handlers_return (pics : Pics) (es : List Event) {m : Machine}
    (hr : run step es (initial pics) = some m) :
    ∃ m', run step (List.replicate (left m.frames) .exec) m = some m' ∧ m'.frames = [] ∧
      m'.pics.master.isr = 0 ∧ m'.pics.slave.isr = 0 ∧ (m.frames ≠ [] → m'.iflag = true) := by
  have h := run_inv hr
  obtain ⟨m', hd, empty, -, on⟩ := drain h rfl
  have h' : Inv m' := invariant (fun _ _ _ h hs => step_inv h hs) hd h
  refine ⟨m', hd, empty, ?_, ?_, on⟩
  · rw [h'.masterService, empty]
    rfl
  · rw [h'.slaveService, empty]
    rfl

def round : List Event := [.tick, .accept, .exec, .exec, .exec, .exec, .exec]

theorem handlers_return_two :
    ∃ m, run step (List.replicate 9 .boot ++ round ++ [.key, .accept]) (initial anyPics) = some m ∧
      m.frames.length = 2 ∧
      ∃ m', run step (List.replicate 7 .exec) m = some m' ∧ m'.frames = [] := by
  let m : Machine := {
    pics := bootedPics 0 2 0
    iflag := false
    scancode := true
    regC := false
    frames := [entered .keyboard, window]
    booted := 9
    data := 0xF9 }
  have reached : run step (List.replicate 9 .boot ++ round ++ [.key, .accept]) (initial anyPics) =
      some m := by decide +kernel
  obtain ⟨m', hr, empty, -⟩ := handlers_return anyPics _ reached
  exact ⟨m, reached, rfl, m', hr, empty⟩

structure Nested (k : Nat) (m : Machine) : Prop where
  booted : m.booted = bootOps.length
  iflag : m.iflag = true
  scancode : m.scancode = false
  regC : m.regC = false
  frames : m.frames = List.replicate k window

theorem nested_round {k : Nat} {m : Machine} (h : Inv m) (hn : Nested k m) :
    ∃ m', run step round m = some m' ∧ Nested (k + 1) m' := by
  have tick : step .tick m = some { m with regC := true, pics := m.pics.raise 8 } := by
    simp [step, hn.regC]
  have accept := accept_eq (step_inv h tick) hn.iflag hn.booted
  rw [if_neg (Bool.eq_false_iff.mp hn.scancode), if_pos rfl] at accept
  rw [round, run_cons, tick, Option.bind_some, run_cons, accept, Option.bind_some]
  exact ⟨_, rfl, hn.booted, rfl, hn.scancode, rfl, congrArg (window :: ·) hn.frames⟩

/-- Nothing bounds the nesting: since the clock's handler turns interrupts on before it
returns, for every `k` some order of events has `k` of its frames on the kernel stack. -/
theorem clock_nests (pics : Pics) (k : Nat) :
    ∃ es m, run step es (initial pics) = some m ∧ m.frames = List.replicate k window := by
  have nested : ∃ es m, run step es (initial pics) = some m ∧ Nested k m := by
    induction k with
    | zero => exact ⟨List.replicate 9 .boot, _, rfl, rfl, rfl, rfl, rfl, rfl⟩
    | succ k ih =>
      obtain ⟨es, m, hr, hn⟩ := ih
      obtain ⟨m', hr', hn'⟩ := nested_round (run_inv hr) hn
      exact ⟨es ++ round, m', by rw [run_append, hr]; exact hr', hn'⟩
  obtain ⟨es, m, hr, hn⟩ := nested
  exact ⟨es, m, hr, hn.frames⟩

end LumettaOS.Interrupts
