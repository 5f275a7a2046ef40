import LumettaOS.Lib.BitField
import LumettaOS.Lib.Runs
import LumettaOS.Word

/-! Descriptor tables: `idt_init` (idt.c), the segment descriptors that `entry` builds
(kernel.c), the table of x86_desc.S, and how the processor reads a gate or a segment
back out of them. The members of the packed structures of x86_desc.h are bit-fields
of the two words of a descriptor. -/

namespace LumettaOS.Gates
open Lib.BitField

inductive Handler where
  | defaultExcept
  | de
  | db
  | nmi
  | bp
  | of
  | br
  | ud
  | nm
  | df
  | cso
  | ts
  | np
  | ss
  | gp
  | pf
  | r
  | mf
  | ac
  | mc
  | xf
  | keyboard
  | rtc
  | syscall
  deriving DecidableEq

def exceptions : Nat → Handler
  | 0 => .de
  | 1 => .db
  | 2 => .nmi
  | 3 => .bp
  | 4 => .of
  | 5 => .br
  | 6 => .ud
  | 7 => .nm
  | 8 => .df
  | 9 => .cso
  | 10 => .ts
  | 11 => .np
  | 12 => .ss
  | 13 => .gp
  | 14 => .pf
  | 15 => .r
  | 16 => .mf
  | 17 => .ac
  | 18 => .mc
  | 19 => .xf
  | 33 => .keyboard
  | 40 => .rtc
  | 128 => .syscall
  | _ => .defaultExcept

structure Desc where
  val0 : Word
  val1 : Word
  deriving DecidableEq

def setIdtEntry (handler : Word) (d : Desc) : Desc :=
  let d := { d with val1 := setField d.val1 16 (((handler &&& 0xFFFF0000) >>> 16).setWidth 16) }
  { d with val0 := setField d.val0 0 ((handler &&& 0xFFFF).setWidth 16) }

def kernelCs : BitVec 16 := 0x0010
def kernelDs : BitVec 16 := 0x0018
def userCs : BitVec 16 := 0x0023
def userDs : BitVec 16 := 0x002B
def kernelTss : BitVec 16 := 0x0030
def kernelLdt : BitVec 16 := 0x0038

/-- The vectors whose present bit `idt_init` sets. -/
def isPresent (j : Nat) : Bool :=
  j == 0x80 || (j ≤ 19 && (j != 15 && j != 1)) || j == 33 || j == 40

def idtEntry (link : Handler → Word) (j : Nat) (d : Desc) : Desc :=
  let d := { d with val0 := setField d.val0 16 kernelCs }
  let d := { d with val1 := setField d.val1 0 (0 : BitVec 8) }
  let d := { d with val1 := setField d.val1 8 (0 : BitVec 1) }
  let d := { d with val1 := setField d.val1 9 (1 : BitVec 1) }
  let d := { d with val1 := setField d.val1 10 (1 : BitVec 1) }
  let d := { d with val1 := setField d.val1 11 (1 : BitVec 1) }
  let d := { d with val1 := setField d.val1 12 (0 : BitVec 1) }
  let d := { d with val1 := setField d.val1 13 (0 : BitVec 2) }
  let d := { d with val1 := setField d.val1 15 (0 : BitVec 1) }
  let d := if j = 0x80 then { d with val1 := setField d.val1 13 (3 : BitVec 2) } else d
  let d := if isPresent j then { d with val1 := setField d.val1 15 (1 : BitVec 1) } else d
  setIdtEntry (link (exceptions j)) d

abbrev Idt := BitVec 8 → Desc

/-- `link` gives the addresses of the functions in the kernel image. -/
def idtInit (link : Handler → Word) (idt : Idt) : Idt :=
  (List.range 256).foldl (fun idt j =>
    Function.update idt (BitVec.ofNat 8 j) (idtEntry link j (idt (BitVec.ofNat 8 j)))) idt

/-- A gate as the processor reads it; `type` are the bits 12 to 8 of the second word. -/
structure Gate where
  offset : Word
  selector : BitVec 16
  type : BitVec 5
  dpl : BitVec 2
  present : BitVec 1
  deriving DecidableEq

def Desc.gate (d : Desc) : Gate where
  offset := getField d.val1 16 16 ++ getField d.val0 0 16
  selector := getField d.val0 16 16
  type := getField d.val1 12 1 ++ getField d.val1 11 1 ++ getField d.val1 10 1 ++
    getField d.val1 9 1 ++ getField d.val1 8 1
  dpl := getField d.val1 13 2
  present := getField d.val1 15 1

def interruptGate : BitVec 5 := 0x0E

def trapGate : BitVec 5 := 0x0F

inductive Source where
  | int (cpl : BitVec 2)
  | event
  deriving DecidableEq

/-- The level that the gate's own level is compared with; only `int` is checked. -/
def Source.level : Source → BitVec 2
  | .int cpl => cpl
  | .event => 0

inductive Fault where
  | generalProtection (code : Nat)
  | notPresent (code : Nat)
  deriving DecidableEq

def Source.code (source : Source) (v : BitVec 8) : Nat :=
  8 * v.toNat + 2 + (if source = .event then 1 else 0)

def checkGate (idt : Idt) (source : Source) (v : BitVec 8) : Except Fault Gate :=
  let g := (idt v).gate
  if g.type ≠ interruptGate ∧ g.type ≠ trapGate then .error (.generalProtection (source.code v))
  else if g.dpl < source.level then .error (.generalProtection (source.code v))
  else if g.present = 0 then .error (.notPresent (source.code v))
  else .ok g

/-- `SET_LDT_PARAMS` and `SET_TSS_PARAMS`, which are the same text. -/
def setParams (addr lim : Word) (d : Desc) : Desc :=
  let d := { d with val1 := setField d.val1 24 (((addr &&& 0xFF000000) >>> 24).setWidth 8) }
  let d := { d with val1 := setField d.val1 0 (((addr &&& 0x00FF0000) >>> 16).setWidth 8) }
  let d := { d with val0 := setField d.val0 16 ((addr &&& 0x0000FFFF).setWidth 16) }
  let d := { d with val1 := setField d.val1 16 (((lim &&& 0x000F0000) >>> 16).setWidth 4) }
  { d with val0 := setField d.val0 0 ((lim &&& 0x0000FFFF).setWidth 16) }

def tssSize : Word := 104

def theLdtDesc (ldt lim : Word) (d : Desc) : Desc :=
  let d := { d with val1 := setField d.val1 23 (0 : BitVec 1) }
  let d := { d with val1 := setField d.val1 22 (1 : BitVec 1) }
  let d := { d with val1 := setField d.val1 21 (0 : BitVec 1) }
  let d := { d with val1 := setField d.val1 20 (0 : BitVec 1) }
  let d := { d with val1 := setField d.val1 15 (1 : BitVec 1) }
  let d := { d with val1 := setField d.val1 13 (0 : BitVec 2) }
  let d := { d with val1 := setField d.val1 12 (0 : BitVec 1) }
  let d := { d with val1 := setField d.val1 8 (2 : BitVec 4) }
  setParams ldt lim d

/-- `the_tss_desc` of `entry`, from what its stack slot held. -/
def theTssDesc (tss lim : Word) (d : Desc) : Desc :=
  let d := { d with val1 := setField d.val1 23 (0 : BitVec 1) }
  let d := { d with val1 := setField d.val1 22 (0 : BitVec 1) }
  let d := { d with val1 := setField d.val1 21 (0 : BitVec 1) }
  let d := { d with val1 := setField d.val1 20 (0 : BitVec 1) }
  let d := { d with val1 := setField d.val1 16 ((tssSize &&& 0x000F0000).setWidth 4) }
  let d := { d with val1 := setField d.val1 15 (1 : BitVec 1) }
  let d := { d with val1 := setField d.val1 13 (0 : BitVec 2) }
  let d := { d with val1 := setField d.val1 12 (0 : BitVec 1) }
  let d := { d with val1 := setField d.val1 8 (9 : BitVec 4) }
  let d := { d with val0 := setField d.val0 0 ((tssSize &&& 0x0000FFFF).setWidth 16) }
  setParams tss lim d

def gdt (tss ldt : Desc) : List Desc :=
  [⟨0, 0⟩, ⟨0, 0⟩, ⟨0x0000FFFF, 0x00CF9A00⟩, ⟨0x0000FFFF, 0x00CF9200⟩,
    ⟨0x0000FFFF, 0x00CFFA00⟩, ⟨0x0000FFFF, 0x00CFF200⟩, tss, ldt]

structure Segment where
  base : Word
  limit : BitVec 20
  /-- The last valid offset in bytes. -/
  last : Nat
  type : BitVec 4
  sys : BitVec 1
  dpl : BitVec 2
  present : BitVec 1
  opsize : BitVec 1
  deriving DecidableEq

def Desc.segment (d : Desc) : Segment :=
  let limit := getField d.val1 16 4 ++ getField d.val0 0 16
  { base := getField d.val1 24 8 ++ getField d.val1 0 8 ++ getField d.val0 16 16
    limit := limit
    last := if getField d.val1 23 1 = 1 then limit.toNat * 2 ^ 12 + (2 ^ 12 - 1) else limit.toNat
    type := getField d.val1 8 4
    sys := getField d.val1 12 1
    dpl := getField d.val1 13 2
    present := getField d.val1 15 1
    opsize := getField d.val1 22 1 }

def lookup (table : List Desc) (selector : BitVec 16) : Option Segment :=
  if selector.getLsbD 2 then none
  else table[(selector >>> 3).toNat]?.map Desc.segment

theorem setIdtEntry_eq (handler : Word) (d : Desc) :
    setIdtEntry handler d =
      { val0 := setField d.val0 0 (getField handler 0 16)
        val1 := setField d.val1 16 (getField handler 16 16) } := by
  unfold setIdtEntry
  rw [getField_of_mask handler _ 16 16 (by decide), getField_of_low_mask handler _ 16 (by decide)]

theorem setParams_eq (addr lim : Word) (d : Desc) :
    setParams addr lim d =
      { val0 := setField (setField d.val0 16 (getField addr 0 16)) 0 (getField lim 0 16)
        val1 := setField (setField (setField d.val1 24 (getField addr 24 8)) 0
          (getField addr 16 8)) 16 (getField lim 16 4) } := by
  unfold setParams
  rw [getField_of_mask addr _ 24 8 (by decide), getField_of_mask addr _ 16 8 (by decide),
    getField_of_mask lim _ 16 4 (by decide), getField_of_low_mask addr _ 16 (by decide),
    getField_of_low_mask lim _ 16 (by decide)]

def gateOf (link : Handler → Word) (j : Nat) : Gate where
  offset := link (exceptions j)
  selector := kernelCs
  type := interruptGate
  dpl := if j = 0x80 then 3 else 0
  present := if isPresent j then 1 else 0

theorem offset_halves (w : Word) : getField w 16 16 ++ getField w 0 16 = w := by
  have whole : getField w 16 16 ++ getField w 0 16 = getField w 0 32 :=
    getField_append w (show 16 = 0 + 16 from rfl)
  rw [whole]
  exact getField_full w

theorem gate_idtEntry (link : Handler → Word) (j : Nat) (d : Desc) :
    (idtEntry link j d).gate = gateOf link j := by
  unfold idtEntry
  rw [setIdtEntry_eq]
  unfold Desc.gate gateOf
  split <;> split <;>
    simp (disch := omega) only [getField_setField_same, getField_setField_disjoint,
      offset_halves] <;> rfl

/-- The loop fills the vectors in order, so each gate is the one built in its own round. -/
theorem gate_idtInit (link : Handler → Word) (idt : Idt) (v : BitVec 8) :
    (idtInit link idt v).gate = gateOf link v.toNat := by
  have filled : ∀ v : BitVec 8, v.toNat < 256 →
      (idtInit link idt v).gate = gateOf link v.toNat := by
    refine Lib.Runs.loop_invariant
      (I := fun n (t : Idt) => ∀ v : BitVec 8, v.toNat < n → (t v).gate = gateOf link v.toNat)
      256 (fun v hv => absurd hv (Nat.not_lt_zero _)) fun j t hj done v hv => ?_
    have number : (BitVec.ofNat 8 j).toNat = j := Nat.mod_eq_of_lt hj
    by_cases h : v = BitVec.ofNat 8 j
    · rw [h, Function.update_self, number]
      exact gate_idtEntry link j _
    · rw [Function.update_of_ne h]
      have ne : v.toNat ≠ j := fun e => h (by rw [← e]; simp)
      exact done v (by omega)
  exact filled v v.isLt

def vectors : List Nat :=
  [0, 2, 3, 4, 5, 6, 7, 8, 9, 10, 11, 12, 13, 14, 16, 17, 18, 19, 33, 40, 128]

theorem isPresent_iff (j : Nat) : isPresent j = true ↔ j ∈ vectors := by
  simp only [isPresent, vectors, Bool.or_eq_true, Bool.and_eq_true, beq_iff_eq, bne_iff_ne,
    decide_eq_true_eq, List.mem_cons, List.not_mem_nil, or_false]
  omega

/-- What an exception, a device and a program can reach, for all addresses of the handlers and
all earlier contents of the table. A device or an exception enters its handler through an
interrupt gate to the kernel's code segment exactly at the present vectors, and `int` in
user mode enters only the system call wrapper: any other one is a protection fault. -/
theorem idt_delivers (link : Handler → Word) (old : Idt) (v : BitVec 8) :
    checkGate (idtInit link old) .event v =
        (if v.toNat ∈ vectors then .ok (gateOf link v.toNat)
        else .error (.notPresent (8 * v.toNat + 3))) ∧
      checkGate (idtInit link old) (.int 3) v =
        (if v = 0x80 then .ok ⟨link .syscall, kernelCs, interruptGate, 3, 1⟩
        else .error (.generalProtection (8 * v.toNat + 2))) := by
  unfold checkGate
  simp only [gate_idtInit]
  constructor
  · by_cases h : v.toNat ∈ vectors
    · simp [gateOf, (isPresent_iff v.toNat).mpr h, h, Source.level]
    · simp [gateOf, mt (isPresent_iff v.toNat).mp h, h, Source.level, Source.code]
  · by_cases h : v = 0x80
    · subst h
      rfl
    · have number : v.toNat ≠ 0x80 := fun e => h (BitVec.eq_of_toNat_eq e)
      rw [if_neg h]
      simp [gateOf, number, Source.level, Source.code]

theorem base_parts (w : Word) :
    getField w 24 8 ++ getField w 16 8 ++ getField w 0 16 = w := by
  have upper : getField w 24 8 ++ getField w 16 8 = getField w 16 16 :=
    getField_append w (show 24 = 16 + 8 from rfl)
  rw [upper, offset_halves]

theorem limit_parts (lim : Word) : getField lim 16 4 ++ getField lim 0 16 = lim.setWidth 20 := by
  have low : getField lim 16 4 ++ getField lim 0 16 = getField lim 0 20 :=
    getField_append lim (show 16 = 0 + 16 from rfl)
  rw [low]
  exact (BitVec.setWidth_eq_extractLsb' (by decide)).symm

def tssLimit : Word := 104 - 1
def ldtLimit : Word := 4 * 8 - 1

theorem segment_theTssDesc (tss lim : Word) (d : Desc) :
    (theTssDesc tss lim d).segment =
      { base := tss, limit := lim.setWidth 20, last := (lim.setWidth 20).toNat
        type := 9, sys := 0, dpl := 0, present := 1, opsize := 0 } := by
  unfold theTssDesc
  rw [setParams_eq]
  simp (disch := omega) only [Desc.segment, getField_setField_same, getField_setField_disjoint,
    base_parts, limit_parts]
  rfl

theorem segment_theLdtDesc (ldt lim : Word) (d : Desc) :
    (theLdtDesc ldt lim d).segment =
      { base := ldt, limit := lim.setWidth 20, last := (lim.setWidth 20).toNat
        type := 2, sys := 0, dpl := 0, present := 1, opsize := 1 } := by
  unfold theLdtDesc
  rw [setParams_eq]
  simp (disch := omega) only [Desc.segment, getField_setField_same, getField_setField_disjoint,
    base_parts, limit_parts]
  rfl

def flat (type : BitVec 4) (dpl : BitVec 2) : Segment where
  base := 0
  limit := 0xFFFFF
  last := 2 ^ 32 - 1
  type := type
  sys := 1
  dpl := dpl
  present := 1
  opsize := 1

/-- Every selector of x86_desc.h names the segment it is meant for, wherever the linker put
the task state segment and the local table and whatever the stack of `entry` held. -/
theorem gdt_selectors (tss ldt : Word) (d d' : Desc) :
    let table := gdt (theTssDesc tss tssLimit d) (theLdtDesc ldt ldtLimit d')
    lookup table kernelCs = some (flat 0xA 0) ∧ lookup table kernelDs = some (flat 0x2 0) ∧
      lookup table userCs = some (flat 0xA 3) ∧ lookup table userDs = some (flat 0x2 3) ∧
      lookup table kernelTss = some ⟨tss, 103, 103, 9, 0, 0, 1, 0⟩ ∧
      lookup table kernelLdt = some ⟨ldt, 31, 31, 2, 0, 0, 1, 1⟩ ∧
      userCs &&& 3 = 3 ∧ userDs &&& 3 = 3 ∧ kernelCs &&& 3 = 0 ∧ kernelDs &&& 3 = 0 := by
  refine ⟨rfl, rfl, rfl, rfl, ?_, ?_, by decide⟩
  · exact congrArg some (segment_theTssDesc tss tssLimit d)
  · exact congrArg some (segment_theLdtDesc ldt ldtLimit d')

end LumettaOS.Gates
