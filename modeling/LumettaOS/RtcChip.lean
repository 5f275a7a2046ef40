import LumettaOS.RtcTiming

/-! The registers of the clock behind ports 0x70 and 0x71, as `rtc_init` sets them and
`rtc_handler` reads them, together with the driver's own counting. Chips differ in what an
access to the data port does to the selected index, so that is left open. -/

namespace LumettaOS.RtcChip
open Lib.Runs RtcReader

/-- The last byte written to the index port, whose bit 7 masks the NMI, and the registers. -/
structure Chip where
  index : Byte
  reg : BitVec 7 → Byte

def regA : Byte := 0x8A
def regB : Byte := 0x8B
def regC : Byte := 0x0C

namespace Chip

def selected (c : Chip) : BitVec 7 := c.index.setWidth 7

def select (v : Byte) (c : Chip) : Chip := { c with index := v }

section Data

variable (after : Byte → Byte)

/-- `outb(v, RTC_DATA)`. Bit 7 of register A, an update in progress, cannot be written. -/
def put (v : Byte) (c : Chip) : Chip where
  index := after c.index
  reg := Function.update c.reg c.selected
    (if c.selected = 0x0A then (c.reg 0x0A &&& 0x80) ||| (v &&& 0x7F) else v)

/-- `inb(RTC_DATA)`. Reading register C clears it. -/
def get (c : Chip) : Byte × Chip :=
  (c.reg c.selected, ⟨after c.index,
    if c.selected = 0x0C then Function.update c.reg 0x0C 0 else c.reg⟩)

end Data

def frequency (c : Chip) : Nat :=
  match (c.reg 0x0A &&& 0x0F).toNat with
  | 0 => 0
  | 1 => 256
  | 2 => 128
  | rate => 32768 >>> (rate - 1)

def periodic (c : Chip) : Bool := c.reg 0x0B &&& 0x40 != 0

end Chip

def rateOf (freq : Word) : Nat :=
  ((List.range' 6 10).find? fun i => freq == BitVec.ofNat 32 (32768 >>> (i - 1))).getD 0

section Driver

variable (after : Byte → Byte)

def rtcSetRate (freq : Word) (c : Chip) : Word × Chip :=
  if rateOf freq = 0 then (0, c)
  else
    let rate := BitVec.ofNat 8 (rateOf freq) &&& 0x0F
    let r := (c.select regA).get after
    (1, (r.2.select regA).put after ((r.1 &&& 0xF0) ||| rate))

def rtcInit (c : Chip) : Chip :=
  let r := (c.select regB).get after
  (rtcSetRate after 1024 ((r.2.select regB).put after (r.1 ||| 0x40))).2

/-- `rtc_handler` on the chip. -/
def acknowledge (c : Chip) : Chip := ((c.select regC).get after).2

def act (a : Act) (s : Chip × Session) : Option (Chip × Session) :=
  (RtcReader.act a s.2).map fun t =>
    (match a with
      | .tick => acknowledge after s.1
      | _ => s.1, t)

end Driver

/-- The frequency asked for last: by `rtc_open`, or by a write that was accepted. -/
def requested (freq : Nat) : Act → Nat
  | .open => 2
  | .write null buf nbytes =>
    if (Rtc.init.rtcWrite null buf nbytes).1 = -1 then freq else (Rtc.freqAt buf).toNat
  | _ => freq

section Rate

theorem rateOf_power {freq : Word} {j : Nat} (low : 1 ≤ j) (high : j ≤ 10)
    (value : freq.toNat = 2 ^ j) : rateOf freq = 16 - j := by
  have word : freq = BitVec.ofNat 32 (2 ^ j) := BitVec.eq_of_toNat_eq (by
    rw [value, BitVec.toNat_ofNat, Nat.mod_eq_of_lt (Nat.pow_lt_pow_right (by decide) (by omega))])
  rw [word]
  clear word value
  interval_cases j <;> decide

theorem rateOf_other {freq : Word} (h : ¬ ∃ j, 1 ≤ j ∧ j ≤ 10 ∧ freq.toNat = 2 ^ j) :
    rateOf freq = 0 := by
  have none_ : (List.range' 6 10).find?
      (fun i => freq == BitVec.ofNat 32 (32768 >>> (i - 1))) = none := by
    rw [List.find?_eq_none]
    intro i hi equal
    rw [List.mem_range'_1] at hi
    refine h ⟨16 - i, by omega, by omega, ?_⟩
    rw [beq_iff_eq.mp equal]
    obtain ⟨low, high⟩ := hi
    interval_cases i <;> decide
  rw [rateOf, none_]
  rfl

theorem written_rate : ∀ a : Byte, ∀ rate ∈ List.range' 6 10,
    (a &&& 0x80) ||| ((a &&& 0xF0 ||| BitVec.ofNat 8 rate &&& 0x0F) &&& 0x7F) =
      a &&& 0xF0 ||| BitVec.ofNat 8 rate := by decide +kernel

theorem rate_in_a : ∀ a : Byte, ∀ rate ∈ List.range' 6 10,
    ((a &&& 0xF0 ||| BitVec.ofNat 8 rate) &&& 0x0F).toNat = rate ∧
      (a &&& 0xF0 ||| BitVec.ofNat 8 rate) &&& 0xF0 = a &&& 0xF0 := by decide +kernel

end Rate

section Registers

variable {after : Byte → Byte} {c : Chip}

theorem selected_a : (c.select regA).selected = 0x0A :=
  (by decide : regA.setWidth 7 = (0x0A : BitVec 7))

theorem selected_b : (c.select regB).selected = 0x0B :=
  (by decide : regB.setWidth 7 = (0x0B : BitVec 7))

theorem selected_c : (c.select regC).selected = 0x0C :=
  (by decide : regC.setWidth 7 = (0x0C : BitVec 7))

theorem get_select {v : Byte} (h : v.setWidth 7 ≠ (0x0C : BitVec 7)) :
    (c.select v).get after = (c.reg (v.setWidth 7), ⟨after v, c.reg⟩) := by
  have other : (c.select v).selected ≠ 0x0C := h
  rw [Chip.get, if_neg other]
  rfl

theorem put_a (b : Byte) :
    ((c.select regA).put after b).reg =
      Function.update c.reg 0x0A ((c.reg 0x0A &&& 0x80) ||| (b &&& 0x7F)) := by
  rw [Chip.put, if_pos selected_a, selected_a]
  rfl

theorem put_b (b : Byte) :
    ((c.select regB).put after b).reg = Function.update c.reg 0x0B b := by
  rw [Chip.put, selected_b, if_neg (by decide)]
  rfl

/-- Selecting again before the write makes the write go to the register that was read. -/
theorem rtcSetRate_reg (after : Byte → Byte) (freq : Word) (c : Chip)
    (h : 6 ≤ rateOf freq ∧ rateOf freq < 16) :
    rtcSetRate after freq c = (1, (rtcSetRate after freq c).2) ∧
    (rtcSetRate after freq c).2.reg =
      Function.update c.reg 0x0A (c.reg 0x0A &&& 0xF0 ||| BitVec.ofNat 8 (rateOf freq)) := by
  have known : rateOf freq ∈ List.range' 6 10 := List.mem_range'_1.mpr h
  have some_ : rateOf freq ≠ 0 := by omega
  rw [rtcSetRate, if_neg some_, get_select (by decide)]
  refine ⟨rfl, (put_a _).trans ?_⟩
  exact congrArg (Function.update c.reg 0x0A) (written_rate _ _ known)

theorem rtcInit_reg (after : Byte → Byte) (c : Chip) :
    (rtcInit after c).reg = Function.update (Function.update c.reg 0x0B (c.reg 0x0B ||| 0x40))
      0x0A (c.reg 0x0A &&& 0xF0 ||| 6) := by
  have top : rateOf 1024 = 6 := by decide
  rw [rtcInit, get_select (by decide)]
  refine (rtcSetRate_reg after 1024 _ (by rw [top]; decide)).2.trans ?_
  rw [put_b, top]
  congr 1

theorem acknowledge_reg (after : Byte → Byte) (c : Chip) :
    (acknowledge after c).reg = Function.update c.reg 0x0C 0 := by
  rw [acknowledge, Chip.get, if_pos selected_c]
  rfl

theorem frequency_of_reg {a : Byte} {rate : Nat} (low : 6 ≤ rate) (high : rate < 16)
    (h : c.reg 0x0A = a &&& 0xF0 ||| BitVec.ofNat 8 rate) :
    c.frequency = 32768 >>> (rate - 1) ∧ c.reg 0x0A &&& 0xF0 = a &&& 0xF0 := by
  obtain ⟨value, kept⟩ := rate_in_a a rate (List.mem_range'_1.mpr ⟨low, high⟩)
  rw [← h] at value kept
  refine ⟨?_, kept⟩
  rw [Chip.frequency, value]
  split <;> omega

end Registers

/-- `rtc_set_rate` accepts the powers of two from 2 to 1024 and makes the chip interrupt at
that frequency; of the chip's registers only the rate changes. Any other frequency is
refused and leaves the chip alone. -/
theorem rtcSetRate_programs (after : Byte → Byte) (freq : Word) (c : Chip) :
    (∀ j, 1 ≤ j → j ≤ 10 → freq.toNat = 2 ^ j →
      (rtcSetRate after freq c).1 = 1 ∧ (rtcSetRate after freq c).2.frequency = freq.toNat ∧
      (rtcSetRate after freq c).2.reg 0x0A &&& 0xF0 = c.reg 0x0A &&& 0xF0 ∧
      ∀ r, r ≠ 0x0A → (rtcSetRate after freq c).2.reg r = c.reg r) ∧
    ((¬ ∃ j, 1 ≤ j ∧ j ≤ 10 ∧ freq.toNat = 2 ^ j) → rtcSetRate after freq c = (0, c)) := by
  refine ⟨fun j low high value => ?_, fun other => ?_⟩
  · have rate := rateOf_power low high value
    obtain ⟨one, regs⟩ := rtcSetRate_reg after freq c (by rw [rate]; omega)
    have at_a := congrFun regs 0x0A
    rw [Function.update_self] at at_a
    obtain ⟨frequency, kept⟩ := frequency_of_reg (by omega) (by omega) at_a
    refine ⟨by rw [one], ?_, kept, fun r other => ?_⟩
    · rw [frequency, rate, value]
      clear * - low high
      interval_cases j <;> rfl
    · rw [regs, Function.update_of_ne other]
  · rw [rtcSetRate, if_pos (rateOf_other other)]

theorem rtcSetRate_programs_sample :
    (rtcSetRate id 512 ⟨0, fun _ => 0x26⟩).2.frequency = 512 ∧
      rtcSetRate id 3 ⟨0, fun _ => 0x26⟩ = (0, ⟨0, fun _ => 0x26⟩) := by
  obtain ⟨accepted, -⟩ := rtcSetRate_programs id 512 ⟨0, fun _ => 0x26⟩
  obtain ⟨-, refused⟩ := rtcSetRate_programs id 3 ⟨0, fun _ => 0x26⟩
  refine ⟨(accepted 9 (by decide) (by decide) rfl).2.1, refused ?_⟩
  rintro ⟨j, low, high, value⟩
  have three : 3 = 2 ^ j := value
  interval_cases j <;> omega

section Runs

variable {before : Chip} {after : Byte → Byte}

structure Kept (before c : Chip) : Prop where
  a : c.reg 0x0A = before.reg 0x0A &&& 0xF0 ||| 6
  b : c.reg 0x0B = before.reg 0x0B ||| 0x40
  others : ∀ r, r ≠ 0x0A → r ≠ 0x0B → r ≠ 0x0C → c.reg r = before.reg r

theorem rtcInit_kept : Kept before (rtcInit after before) where
  a := by rw [rtcInit_reg, Function.update_self]
  b := by rw [rtcInit_reg, Function.update_of_ne (by decide), Function.update_self]
  others r a b _ := by rw [rtcInit_reg, Function.update_of_ne a, Function.update_of_ne b]

theorem Kept.acknowledge {c : Chip} (h : Kept before c) : Kept before (acknowledge after c) where
  a := by rw [acknowledge_reg, Function.update_of_ne (by decide), h.a]
  b := by rw [acknowledge_reg, Function.update_of_ne (by decide), h.b]
  others r a b c := by rw [acknowledge_reg, Function.update_of_ne c, h.others r a b c]

theorem rtcWrite_maxCount {r : Rtc} {freq : Nat} (h : r.maxCount * freq = 1024) (null : Bool)
    (buf : Memory) (nbytes : Word) :
    (r.rtcWrite null buf nbytes).2.maxCount * requested freq (.write null buf nbytes) = 1024 := by
  rw [requested]
  rcases rtcWrite_cases null buf nbytes r with ⟨he, bad⟩ | ⟨he, good⟩
  · rcases rtcWrite_cases null buf nbytes Rtc.init with ⟨hi, -⟩ | ⟨-, good⟩
    · rw [hi, if_pos rfl, he]
      exact h
    · exact absurd good bad
  · rcases rtcWrite_cases null buf nbytes Rtc.init with ⟨-, bad⟩ | ⟨hi, -⟩
    · exact absurd good bad
    · obtain ⟨-, -, j, -, high, value⟩ := good
      rw [hi, if_neg (show (4 : Word) ≠ -1 by decide), he, value]
      exact (period_spec high).2

theorem act_maxCount {a : Act} {s s' : Session} {freq : Nat} (h : s.rtc.maxCount * freq = 1024)
    (ha : RtcReader.act a s = some s') : s'.rtc.maxCount * requested freq a = 1024 := by
  cases a with
  | tick =>
    rw [RtcReader.act, Option.some_inj] at ha
    rw [← ha]
    show s.rtc.rtcHandler.maxCount * freq = 1024
    rw [Rtc.rtcHandler]
    split <;> exact h
  | «open» =>
    rw [RtcReader.act, Option.ite_none_right_eq_some, Option.some_inj] at ha
    rw [← ha.2]
    rfl
  | write null buf nbytes =>
    rw [RtcReader.act, Option.ite_none_right_eq_some, Option.some_inj] at ha
    rw [← ha.2]
    exact rtcWrite_maxCount h null buf nbytes
  | read null =>
    rw [RtcReader.act, Option.ite_none_right_eq_some, Option.some_inj] at ha
    rw [← ha.2]
    cases null <;> exact h
  | step =>
    rw [RtcReader.act, advance] at ha
    split at ha
    · simp at ha
    · rw [← Option.some_inj.mp ha]
      exact h
    · rw [← Option.some_inj.mp ha]
      exact h

theorem act_kept {a : Act} {s s' : Chip × Session} {freq : Nat} (chip : Kept before s.1)
    (limit : s.2.rtc.maxCount * freq = 1024) (ha : act after a s = some s') :
    Kept before s'.1 ∧ s'.2.rtc.maxCount * requested freq a = 1024 := by
  obtain ⟨t, ht, rfl⟩ := Option.map_eq_some_iff.mp ha
  refine ⟨?_, act_maxCount limit ht⟩
  cases a with
  | tick => exact chip.acknowledge
  | _ => exact chip

theorem run_kept {acts : List Act} {s s' : Chip × Session} {freq : Nat} (chip : Kept before s.1)
    (limit : s.2.rtc.maxCount * freq = 1024) (hrun : run (act after) acts s = some s') :
    Kept before s'.1 ∧ s'.2.rtc.maxCount * acts.foldl requested freq = 1024 := by
  induction acts generalizing s freq with
  | nil =>
    rw [run_nil, Option.some_inj] at hrun
    rw [← hrun]
    exact ⟨chip, limit⟩
  | cons a acts ih =>
    obtain ⟨s₁, step, rest⟩ := run_cons_some hrun
    obtain ⟨chip₁, limit₁⟩ := act_kept chip limit step
    exact ih chip₁ limit₁ rest

end Runs

/-- From `rtc_init` on, under every order of interrupts, opens, reads and writes, the chip
interrupts at 1024 Hz, which is the limit of the driver's counter times the frequency that was
asked for last: the virtual clock has exactly that frequency. Nothing but the rate, the enable
bit and the flags in register C is ever changed. -/
theorem clock_frequency (after : Byte → Byte) (before : Chip) {acts : List Act}
    {s : Chip × Session}
    (hrun : run (act after) acts (rtcInit after before, start Rtc.init) = some s) :
    s.1.periodic = true ∧ s.1.frequency = 1024 ∧
      s.2.rtc.maxCount * acts.foldl requested 2 = s.1.frequency ∧
      s.1.reg 0x0A &&& 0xF0 = before.reg 0x0A &&& 0xF0 ∧
      s.1.reg 0x0B = before.reg 0x0B ||| 0x40 ∧
      ∀ r, r ≠ 0x0A → r ≠ 0x0B → r ≠ 0x0C → s.1.reg r = before.reg r := by
  have enabled : ∀ b : Byte, ((b ||| 0x40) &&& 0x40 != 0) = true := by decide
  have first : Rtc.init.maxCount * 2 = 1024 := by decide
  obtain ⟨chip, limit⟩ := run_kept rtcInit_kept first hrun
  obtain ⟨frequency, kept⟩ := frequency_of_reg (by decide) (by decide) chip.a
  have top : s.1.frequency = 1024 := frequency
  refine ⟨?_, top, by rw [limit, top], kept, chip.b, chip.others⟩
  rw [Chip.periodic, chip.b]
  exact enabled _

theorem clock_frequency_sample :
    ∃ s, run (act id) [.tick, .open] (rtcInit id ⟨0, fun _ => 0x26⟩, start Rtc.init) = some s ∧
      s.1.frequency = 1024 ∧ s.2.rtc.maxCount * 2 = s.1.frequency := by
  have hrun : run (act id) [.tick, .open] (rtcInit id ⟨0, fun _ => 0x26⟩, start Rtc.init) =
    some (_, _) := rfl
  obtain ⟨-, top, limit, -⟩ := clock_frequency id ⟨0, fun _ => 0x26⟩ hrun
  exact ⟨_, hrun, top, limit⟩

end LumettaOS.RtcChip
