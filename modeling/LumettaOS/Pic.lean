import LumettaOS.Word

/-! The interrupt controllers (i8259.c and i8259.h). A controller is modelled by the
registers of its data sheet: a write to its command port is an ICW1, an OCW2 or an
OCW3, a write to its data port is the word that the initialisation expects next, or
the mask. Rotating priorities and the OCW3 commands are not modelled, as the kernel
sends none of them. The output of the slave is wired to request input 2 of the master. -/

namespace LumettaOS

inductive Awaits where
  | icw2
  | icw3
  | icw4
  | ocw1
  deriving DecidableEq

structure Pic where
  irr : BitVec 8
  isr : BitVec 8
  imr : BitVec 8
  icw1 : BitVec 8
  icw2 : BitVec 8
  icw3 : BitVec 8
  icw4 : BitVec 8
  awaits : Awaits
  deriving DecidableEq

namespace Pic

def level (i : Nat) : BitVec 8 := 1#8 <<< i

/-- The line asked for: requested, not masked, and no line of its priority or a higher
one in service. Line 0 has the highest priority. -/
def highest (irr : BitVec 8) (p : Pic) : Option Nat :=
  (List.range 8).find? fun i =>
    irr.getLsbD i && !p.imr.getLsbD i && !(List.range (i + 1)).any p.isr.getLsbD

/-- A write to the command port. -/
def command (v : BitVec 8) (p : Pic) : Pic :=
  if v.getLsbD 4 then
    { p with
      irr := 0
      isr := 0
      imr := 0
      icw1 := v
      icw4 := if v.getLsbD 0 then p.icw4 else 0
      awaits := .icw2 }
  else if v.getLsbD 3 then p
  else if v >>> 5 = 3 then { p with isr := p.isr &&& ~~~level (v &&& 7).toNat }
  else if v >>> 5 = 1 then
    match (List.range 8).find? p.isr.getLsbD with
    | some i => { p with isr := p.isr &&& ~~~level i }
    | none => p
  else p

def data (v : BitVec 8) (p : Pic) : Pic :=
  match p.awaits with
  | .icw2 =>
    { p with
      icw2 := v
      awaits := if !p.icw1.getLsbD 1 then .icw3 else if p.icw1.getLsbD 0 then .icw4 else .ocw1 }
  | .icw3 => { p with icw3 := v, awaits := if p.icw1.getLsbD 0 then .icw4 else .ocw1 }
  | .icw4 => { p with icw4 := v, awaits := .ocw1 }
  | .ocw1 => { p with imr := v }

def vector (p : Pic) (i : Nat) : BitVec 8 := (p.icw2 &&& 0xF8) ||| BitVec.ofNat 8 i

/-- The acknowledge cycle for a line: its request is taken, and it is in service until its
end of interrupt (unless ICW4 asks for that at once). -/
def service (i : Nat) (p : Pic) : Pic :=
  { p with
    irr := p.irr &&& ~~~level i
    isr := if p.icw4.getLsbD 1 then p.isr else p.isr ||| level i }

def request (i : Nat) (p : Pic) : Pic := { p with irr := p.irr ||| level i }

end Pic

structure Pics where
  master : Pic
  slave : Pic
  deriving DecidableEq

namespace Pics

def masterPort : BitVec 16 := 0x20
def slavePort : BitVec 16 := 0xA0

def outb (v : BitVec 8) (port : BitVec 16) (s : Pics) : Pics :=
  if port = masterPort then { s with master := s.master.command v }
  else if port = masterPort + 1 then { s with master := s.master.data v }
  else if port = slavePort then { s with slave := s.slave.command v }
  else if port = slavePort + 1 then { s with slave := s.slave.data v }
  else s

def inb (port : BitVec 16) (s : Pics) : BitVec 8 :=
  if port = masterPort then s.master.irr
  else if port = masterPort + 1 then s.master.imr
  else if port = slavePort then s.slave.irr
  else if port = slavePort + 1 then s.slave.imr
  else 0xFF

def maskPort (irq : Word) : BitVec 16 × Word :=
  if irq < 8 then (masterPort + 1, irq) else (slavePort + 1, irq - 8)

def enableIrq (irq : Word) (s : Pics) : Pics :=
  if 15 < irq then s
  else
    let port := (maskPort irq).1
    let bit : Word := 1#32 <<< (maskPort irq).2.toNat
    outb (((inb port s).setWidth 32 &&& ~~~bit).setWidth 8) port s

def disableIrq (irq : Word) (s : Pics) : Pics :=
  if 15 < irq then s
  else
    let port := (maskPort irq).1
    let bit : Word := 1#32 <<< (maskPort irq).2.toNat
    outb (((inb port s).setWidth 32 ||| bit).setWidth 8) port s

def eoi : Word := 0x60

def sendEoi (irq : Word) (s : Pics) : Pics :=
  if 15 < irq then s
  else if irq ≤ 7 then outb ((eoi ||| irq).setWidth 8) masterPort s
  else
    let s := outb ((eoi ||| 2).setWidth 8) masterPort s
    outb ((eoi ||| (irq - 8)).setWidth 8) slavePort s

def i8259Init (s : Pics) : Pics :=
  let masterMask : BitVec 8 := 0xFF
  let slaveMask : BitVec 8 := 0xFF
  let s := outb 0x11 masterPort s
  let s := outb 0x11 slavePort s
  let s := outb 0x20 (masterPort + 1) s
  let s := outb 0x28 (slavePort + 1) s
  let s := outb 0x04 (masterPort + 1) s
  let s := outb 0x02 (slavePort + 1) s
  let s := outb 0x01 (masterPort + 1) s
  let s := outb 0x01 (slavePort + 1) s
  let s := outb masterMask (masterPort + 1) s
  let s := outb slaveMask (slavePort + 1) s
  enableIrq 2 s

def requests (s : Pics) : BitVec 8 :=
  if (s.slave.highest s.slave.irr).isSome then s.master.irr ||| Pic.level 2 else s.master.irr

/-- A device raises its line; line 2 belongs to the slave. -/
def raise (n : Nat) (s : Pics) : Pics :=
  if 8 ≤ n then { s with slave := s.slave.request (n - 8) }
  else if n = 2 then s
  else { s with master := s.master.request n }

def acknowledge (s : Pics) : Option (BitVec 8 × Pics) :=
  match s.master.highest s.requests with
  | none => none
  | some i =>
    if i = 2 then
      (s.slave.highest s.slave.irr).map fun k =>
        (s.slave.vector k, ⟨s.master.service 2, s.slave.service k⟩)
    else some (s.master.vector i, { s with master := s.master.service i })

def masked (s : Pics) (n : Nat) : Bool :=
  if n < 8 then s.master.imr.getLsbD n else s.slave.imr.getLsbD (n - 8)

structure Programmed (s : Pics) : Prop where
  master : s.master.icw1 = 0x11 ∧ s.master.icw2 = 0x20 ∧ s.master.icw3 = 0x04 ∧
    s.master.icw4 = 0x01 ∧ s.master.awaits = .ocw1
  slave : s.slave.icw1 = 0x11 ∧ s.slave.icw2 = 0x28 ∧ s.slave.icw3 = 0x02 ∧
    s.slave.icw4 = 0x01 ∧ s.slave.awaits = .ocw1

end Pics

namespace Pic

theorem getLsbD_level {i j : Nat} (hj : j < 8) : (level i).getLsbD j = decide (i = j) := by
  simp only [level, BitVec.getLsbD_shiftLeft, BitVec.getLsbD_one]
  by_cases h : i = j
  · simp [h, hj]
  · by_cases hl : j < i
    · simp [h, hl]
    · simp [h, hj, hl, show j - i ≠ 0 by omega]

theorem getLsbD_and_not_level {m : BitVec 8} {i j : Nat} (hj : j < 8) :
    (m &&& ~~~level i).getLsbD j = (m.getLsbD j && decide (i ≠ j)) := by
  rw [BitVec.getLsbD_and, BitVec.getLsbD_not, getLsbD_level hj]
  simp [hj]

theorem getLsbD_or_level {m : BitVec 8} {i j : Nat} (hj : j < 8) :
    (m ||| level i).getLsbD j = (m.getLsbD j || decide (i = j)) := by
  rw [BitVec.getLsbD_or, getLsbD_level hj]

theorem clearBit_byte (m : BitVec 8) (k : Nat) :
    ((m.setWidth 32 &&& ~~~(1#32 <<< k)).setWidth 8) = m &&& ~~~level k := by
  ext j hj
  simp [level]

theorem setBit_byte (m : BitVec 8) (k : Nat) :
    ((m.setWidth 32 ||| 1#32 <<< k).setWidth 8) = m ||| level k := by
  ext j hj
  simp [level]

theorem command_eoi (p : Pic) {irq : Word} (h : irq.toNat < 8) :
    p.command ((Pics.eoi ||| irq).setWidth 8) =
      { p with isr := p.isr &&& ~~~level irq.toNat } := by
  obtain ⟨k, hk, rfl⟩ : ∃ k < 8, irq = BitVec.ofNat 32 k :=
    ⟨irq.toNat, h, by simp⟩
  interval_cases k <;> rfl

theorem highest_idle {p : Pic} (hp : p.isr = 0) (irr : BitVec 8) :
    p.highest irr = (List.range 8).find? fun i => irr.getLsbD i && !p.imr.getLsbD i := by
  unfold highest
  rw [hp]
  congr 1
  funext i
  have idle : (List.range (i + 1)).any (0 : BitVec 8).getLsbD = false := by simp
  rw [idle, Bool.not_false, Bool.and_true]

theorem find_open {irr imr : BitVec 8} (lines : List Nat)
    (h : (List.range 8).filter (fun i => !imr.getLsbD i) = lines) :
    ((List.range 8).find? fun i => irr.getLsbD i && !imr.getLsbD i) = lines.find? irr.getLsbD := by
  rw [← h, List.find?_filter]
  congr 1
  funext i
  rw [Bool.decide_and, Bool.decide_eq_true, Bool.decide_eq_true, Bool.and_comm]

theorem service_isr {p : Pic} (h : p.icw4 = 0x01) (i : Nat) :
    (p.service i).isr = p.isr ||| level i := by
  have manual : p.icw4.getLsbD 1 = false := by rw [h]; rfl
  rw [service, manual]
  rfl

theorem service_irr (p : Pic) (i : Nat) {j : Nat} (hj : j < 8) :
    (p.service i).irr.getLsbD j = (p.irr.getLsbD j && decide (i ≠ j)) := getLsbD_and_not_level hj

end Pic

namespace Pics
open Pic

theorem word_lt_eight {irq : Word} : irq < 8 ↔ irq.toNat < 8 := by
  rw [BitVec.lt_def]
  rfl

theorem word_above_fifteen {irq : Word} : 15 < irq ↔ 15 < irq.toNat := by
  rw [BitVec.lt_def]
  rfl

theorem word_le_seven {irq : Word} : irq ≤ 7 ↔ irq.toNat < 8 := by
  rw [BitVec.le_def]
  exact Nat.lt_succ_iff.symm

theorem toNat_sub_eight {irq : Word} (h : 8 ≤ irq.toNat) : (irq - 8).toNat = irq.toNat - 8 := by
  rw [BitVec.toNat_sub_of_le (by rw [BitVec.le_def]; exact h)]
  rfl

def setMask (f : Nat → BitVec 8 → BitVec 8) (n : Nat) (s : Pics) : Pics :=
  if n < 8 then { s with master := { s.master with imr := f n s.master.imr } }
  else { s with slave := { s.slave with imr := f (n - 8) s.slave.imr } }

theorem maskPort_master {irq : Word} (h : irq.toNat < 8) :
    maskPort irq = (masterPort + 1, irq) := if_pos (word_lt_eight.mpr h)

theorem maskPort_slave {irq : Word} (h : ¬ irq.toNat < 8) :
    maskPort irq = (slavePort + 1, irq - 8) := if_neg (mt word_lt_eight.mp h)

theorem outb_masterMask {s : Pics} (hs : s.Programmed) (v : BitVec 8) :
    outb v (masterPort + 1) s = { s with master := { s.master with imr := v } } := by
  simp only [outb, Pic.data, hs.master.2.2.2.2]
  rfl

theorem outb_slaveMask {s : Pics} (hs : s.Programmed) (v : BitVec 8) :
    outb v (slavePort + 1) s = { s with slave := { s.slave with imr := v } } := by
  simp only [outb, Pic.data, hs.slave.2.2.2.2]
  rfl

theorem enableIrq_eq {s : Pics} (hs : s.Programmed) {irq : Word} (h : irq.toNat ≤ 15) :
    enableIrq irq s = setMask (fun k m => m &&& ~~~level k) irq.toNat s := by
  rw [enableIrq, if_neg (by rw [word_above_fifteen]; omega)]
  by_cases hm : irq.toNat < 8
  · simp only [maskPort_master hm, clearBit_byte, setMask, if_pos hm]
    exact outb_masterMask hs _
  · simp only [maskPort_slave hm, clearBit_byte, setMask, if_neg hm,
      toNat_sub_eight (Nat.le_of_not_lt hm)]
    exact outb_slaveMask hs _

theorem disableIrq_eq {s : Pics} (hs : s.Programmed) {irq : Word} (h : irq.toNat ≤ 15) :
    disableIrq irq s = setMask (fun k m => m ||| level k) irq.toNat s := by
  rw [disableIrq, if_neg (by rw [word_above_fifteen]; omega)]
  by_cases hm : irq.toNat < 8
  · simp only [maskPort_master hm, setBit_byte, setMask, if_pos hm]
    exact outb_masterMask hs _
  · simp only [maskPort_slave hm, setBit_byte, setMask, if_neg hm,
      toNat_sub_eight (Nat.le_of_not_lt hm)]
    exact outb_slaveMask hs _

theorem sendEoi_eq (s : Pics) {irq : Word} (h : irq.toNat ≤ 15) :
    sendEoi irq s =
      if irq.toNat < 8 then
        { s with master := { s.master with isr := s.master.isr &&& ~~~level irq.toNat } }
      else
        { master := { s.master with isr := s.master.isr &&& ~~~level 2 }
          slave := { s.slave with isr := s.slave.isr &&& ~~~level (irq.toNat - 8) } } := by
  rw [sendEoi, if_neg (by rw [word_above_fifteen]; omega)]
  by_cases hm : irq.toNat < 8
  · rw [if_pos (word_le_seven.mpr hm), if_pos hm, ← command_eoi s.master hm]
    rfl
  · have two : (2 : Word).toNat < 8 := by decide
    have low := toNat_sub_eight (Nat.le_of_not_lt hm)
    have line : (irq - 8).toNat < 8 := by omega
    rw [if_neg (mt word_le_seven.mp hm), if_neg hm, ← low, ← command_eoi s.slave line]
    have master := command_eoi s.master two
    rw [show (2 : Word).toNat = 2 from rfl] at master
    rw [← master]
    rfl

theorem enableIrq_out {irq : Word} (h : 15 < irq.toNat) (s : Pics) : enableIrq irq s = s :=
  if_pos (word_above_fifteen.mpr h)

theorem disableIrq_out {irq : Word} (h : 15 < irq.toNat) (s : Pics) : disableIrq irq s = s :=
  if_pos (word_above_fifteen.mpr h)

theorem sendEoi_out {irq : Word} (h : 15 < irq.toNat) (s : Pics) : sendEoi irq s = s :=
  if_pos (word_above_fifteen.mpr h)

inductive Act where
  | enable (irq : Word)
  | disable (irq : Word)
  | eoi (irq : Word)
  | raise (n : Nat)
  | acknowledge

def act (s : Pics) : Act → Pics
  | .enable irq => enableIrq irq s
  | .disable irq => disableIrq irq s
  | .eoi irq => sendEoi irq s
  | .raise n => raise n s
  | .acknowledge => (acknowledge s).elim s Prod.snd

/-- The last call that named the line decides; before any, only the cascade is open. -/
def isOpen (n : Nat) (acts : List Act) : Bool :=
  acts.foldl (fun on a => match a with
    | .enable irq => on || irq.toNat = n
    | .disable irq => on && irq.toNat ≠ n
    | _ => on) (n = 2)

def SameSetup (s t : Pics) : Prop :=
  t.master = { s.master with irr := t.master.irr, isr := t.master.isr } ∧
    t.slave = { s.slave with irr := t.slave.irr, isr := t.slave.isr }

theorem sameSetup_eoi (irq : Word) (s : Pics) : SameSetup s (sendEoi irq s) := by
  by_cases h : irq.toNat ≤ 15
  · rw [sendEoi_eq s h]
    split <;> exact ⟨rfl, rfl⟩
  · rw [sendEoi_out (Nat.lt_of_not_le h)]
    exact ⟨rfl, rfl⟩

theorem sameSetup_raise (n : Nat) (s : Pics) : SameSetup s (raise n s) := by
  unfold raise
  split
  · exact ⟨rfl, rfl⟩
  · split <;> exact ⟨rfl, rfl⟩

theorem sameSetup_acknowledge {s t : Pics} {v : BitVec 8} (h : acknowledge s = some (v, t)) :
    SameSetup s t := by
  unfold acknowledge at h
  cases hm : s.master.highest s.requests with
  | none => simp [hm] at h
  | some i =>
    simp only [hm] at h
    split at h
    · obtain ⟨k, -, hk⟩ := Option.map_eq_some_iff.mp h
      obtain ⟨-, rfl⟩ := Prod.mk.inj hk
      exact ⟨rfl, rfl⟩
    · obtain ⟨-, rfl⟩ := Prod.mk.inj (Option.some.inj h)
      exact ⟨rfl, rfl⟩

theorem SameSetup.programmed {s t : Pics} (h : SameSetup s t) (hs : s.Programmed) :
    t.Programmed := by
  obtain ⟨m, sl⟩ := h
  exact ⟨by rw [m]; exact hs.master, by rw [sl]; exact hs.slave⟩

theorem SameSetup.masked {s t : Pics} (h : SameSetup s t) (n : Nat) : t.masked n = s.masked n := by
  obtain ⟨m, sl⟩ := h
  unfold Pics.masked
  rw [m, sl]

theorem setMask_programmed {s : Pics} (hs : s.Programmed) (f : Nat → BitVec 8 → BitVec 8)
    (n : Nat) : (setMask f n s).Programmed := by
  unfold setMask
  split
  · exact ⟨hs.master, hs.slave⟩
  · exact ⟨hs.master, hs.slave⟩

theorem masked_setMask {f : Nat → BitVec 8 → BitVec 8} {g : Bool → Bool → Bool}
    (hf : ∀ m k j, j < 8 → (f k m).getLsbD j = g (m.getLsbD j) (decide (k = j)))
    (same : ∀ b, g b false = b) (k : Nat) {n : Nat} (hn : n < 16) (s : Pics) :
    (setMask f k s).masked n = g (s.masked n) (decide (k = n)) := by
  unfold setMask Pics.masked
  by_cases hk : k < 8 <;> by_cases h8 : n < 8
  · simp only [if_pos hk, if_pos h8]
    exact hf _ k n h8
  · simp only [if_pos hk, if_neg h8, show k ≠ n by omega, decide_false, same]
  · simp only [if_neg hk, if_pos h8, show k ≠ n by omega, decide_false, same]
  · simp only [if_neg hk, if_neg h8]
    rw [hf _ (k - 8) (n - 8) (by omega)]
    congr 2
    simp only [eq_iff_iff]
    omega

theorem masked_enableIrq {s : Pics} (hs : s.Programmed) (irq : Word) {n : Nat} (hn : n < 16) :
    (enableIrq irq s).masked n = (s.masked n && irq.toNat ≠ n) := by
  by_cases h : irq.toNat ≤ 15
  · rw [enableIrq_eq hs h]
    have cleared := masked_setMask (f := fun k m => m &&& ~~~level k) (g := fun b c => b && !c)
      (fun m k j hj => by rw [getLsbD_and_not_level hj, decide_not]) (by simp) irq.toNat hn s
    rw [cleared, decide_not]
  · rw [enableIrq_out (Nat.lt_of_not_le h)]
    simp [show irq.toNat ≠ n by omega]

theorem masked_disableIrq {s : Pics} (hs : s.Programmed) (irq : Word) {n : Nat} (hn : n < 16) :
    (disableIrq irq s).masked n = (s.masked n || irq.toNat = n) := by
  by_cases h : irq.toNat ≤ 15
  · rw [disableIrq_eq hs h]
    exact masked_setMask (g := fun b c => b || c) (fun m k j hj => getLsbD_or_level hj)
      (by simp) irq.toNat hn s
  · rw [disableIrq_out (Nat.lt_of_not_le h)]
    simp [show irq.toNat ≠ n by omega]

theorem act_programmed {s : Pics} (hs : s.Programmed) (a : Act) : (act s a).Programmed := by
  cases a with
  | enable irq =>
    by_cases h : irq.toNat ≤ 15
    · rw [act, enableIrq_eq hs h]
      exact setMask_programmed hs _ _
    · rw [act, enableIrq_out (Nat.lt_of_not_le h)]
      exact hs
  | disable irq =>
    by_cases h : irq.toNat ≤ 15
    · rw [act, disableIrq_eq hs h]
      exact setMask_programmed hs _ _
    · rw [act, disableIrq_out (Nat.lt_of_not_le h)]
      exact hs
  | eoi irq => exact (sameSetup_eoi irq s).programmed hs
  | raise n => exact (sameSetup_raise n s).programmed hs
  | acknowledge =>
    simp only [act]
    cases h : acknowledge s with
    | none => exact hs
    | some r => exact (sameSetup_acknowledge h).programmed hs

theorem masked_act {s : Pics} (hs : s.Programmed) (a : Act) {n : Nat} (hn : n < 16) :
    (act s a).masked n = match a with
      | .enable irq => s.masked n && irq.toNat ≠ n
      | .disable irq => s.masked n || irq.toNat = n
      | _ => s.masked n := by
  cases a with
  | enable irq => exact masked_enableIrq hs irq hn
  | disable irq => exact masked_disableIrq hs irq hn
  | eoi irq => exact (sameSetup_eoi irq s).masked n
  | raise k => exact (sameSetup_raise k s).masked n
  | acknowledge =>
    simp only [act]
    cases h : acknowledge s with
    | none => rfl
    | some r => exact (sameSetup_acknowledge h).masked n

/-- One controller under the initialisation: whatever state it was in, even in the middle of
another initialisation, the first word starts it over. -/
theorem initWords (p : Pic) (base cascade : BitVec 8) :
    (((((p.command 0x11).data base).data cascade).data 0x01).data 0xFF) =
      ⟨0, 0, 0xFF, 0x11, base, cascade, 0x01, .ocw1⟩ := by
  have icw1 : p.command 0x11 = { p with
      irr := 0, isr := 0, imr := 0, icw1 := 0x11, awaits := .icw2 } := by simp [command]
  rw [icw1]
  simp [data]

theorem i8259Init_eq (s : Pics) :
    i8259Init s =
      { master := ⟨0, 0, 0xFB, 0x11, 0x20, 0x04, 0x01, .ocw1⟩
        slave := ⟨0, 0, 0xFF, 0x11, 0x28, 0x02, 0x01, .ocw1⟩ } := by
  have words : i8259Init s = enableIrq 2
      { master := ((((s.master.command 0x11).data 0x20).data 0x04).data 0x01).data 0xFF
        slave := ((((s.slave.command 0x11).data 0x28).data 0x02).data 0x01).data 0xFF } := by
    simp [i8259Init, outb, masterPort, slavePort]
  rw [words, initWords, initWords]
  rfl

theorem i8259Init_programmed (s : Pics) : (i8259Init s).Programmed := by
  rw [i8259Init_eq]
  exact ⟨⟨rfl, rfl, rfl, rfl, rfl⟩, ⟨rfl, rfl, rfl, rfl, rfl⟩⟩

theorem i8259Init_masked (s : Pics) {n : Nat} (hn : n < 16) :
    (i8259Init s).masked n = !decide (n = 2) := by
  rw [i8259Init_eq]
  interval_cases n <;> rfl

def vectorOf (s : Pics) (n : Nat) : BitVec 8 :=
  if n < 8 then s.master.vector n else s.slave.vector (n - 8)

theorem Programmed.vectorOf {s : Pics} (hs : s.Programmed) {n : Nat} (hn : n < 16) :
    s.vectorOf n = BitVec.ofNat 8 (0x20 + n) := by
  unfold Pics.vectorOf vector
  rw [hs.master.2.1, hs.slave.2.1]
  interval_cases n <;> rfl

theorem masked_acts {s : Pics} (hs : s.Programmed) (acts : List Act) {n : Nat} (hn : n < 16) :
    (acts.foldl act s).Programmed ∧ ((acts.foldl act s).masked n =
      !acts.foldl (fun on a => match a with
        | .enable irq => on || irq.toNat = n
        | .disable irq => on && irq.toNat ≠ n
        | _ => on) !s.masked n) := by
  induction acts generalizing s with
  | nil => exact ⟨hs, (Bool.not_not _).symm⟩
  | cons a acts ih =>
    refine ⟨(ih (act_programmed hs a)).1, ?_⟩
    rw [List.foldl_cons, List.foldl_cons, (ih (act_programmed hs a)).2, masked_act hs a hn]
    cases a <;> simp

/-- From any state of the controllers, after `i8259_init` and whatever comes then, the lines
interrupt at vectors 0x20 to 0x2F, and a line is open exactly if the last `enable_irq` or
`disable_irq` with its number enabled it. -/
theorem i8259_lines (s : Pics) (acts : List Act) :
    (acts.foldl act (i8259Init s)).Programmed ∧ ∀ n : Fin 16,
      (acts.foldl act (i8259Init s)).vectorOf n = BitVec.ofNat 8 (0x20 + n) ∧
        (acts.foldl act (i8259Init s)).masked n = !isOpen n acts := by
  have hs := i8259Init_programmed s
  have kept := (masked_acts hs acts (show 0 < 16 by decide)).1
  refine ⟨kept, fun n => ⟨kept.vectorOf n.isLt, ?_⟩⟩
  rw [(masked_acts hs acts n.isLt).2, i8259Init_masked s n.isLt, Bool.not_not]
  rfl

end Pics

end LumettaOS
