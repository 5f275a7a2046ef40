import LumettaOS.Word

/-! The virtualised RTC of rtc.c (`RTC_VT_EN` is 1): the device ticks at 1024 Hz
and `rtc_handler` raises the virtual interrupt once every `rtc_max_count` ticks. -/

namespace LumettaOS

structure Rtc where
  interruptOccurred : Bool
  counter : Nat
  maxCount : Nat

namespace Rtc

/-- The values `rtc_init` leaves: `RTC_MAX_FREQ / RTC_BASE_FREQ` is 512. -/
def init : Rtc := ⟨false, 0, 1024 / 2⟩

def rtcOpen (r : Rtc) : Rtc := { r with maxCount := 1024 / 2, interruptOccurred := false }

def rtcHandler (r : Rtc) : Rtc :=
  let counter := r.counter + 1
  if r.maxCount ≤ counter then { r with interruptOccurred := true, counter := 0 }
  else { r with counter := counter }

def freqAt (buf : Memory) : Word := buf 3 ++ buf 2 ++ buf 1 ++ buf 0

def rtcWrite (null : Bool) (buf : Memory) (nbytes : Word) (r : Rtc) : Word × Rtc :=
  if null ∨ nbytes ≠ 4 then (-1, r)
  else
    let freq := freqAt buf
    if ¬ (2 ≤ freq ∧ freq ≤ 1024 ∧ (freq - 1) &&& freq = 0) then (-1, r)
    else (nbytes, { r with maxCount := 1024 / freq.toNat, counter := 0 })

/-- The wait of `rtc_read` while at most `ticks` interrupts arrive; `none` while
the flag is still down after all of them. -/
def await : (ticks : Nat) → Rtc → Option Rtc
  | ticks, r =>
    if r.interruptOccurred then some r
    else match ticks with
      | 0 => none
      | ticks + 1 => await ticks r.rtcHandler

def rtcRead (null : Bool) (ticks : Nat) (r : Rtc) : Option (Word × Rtc) :=
  if null then some (-1, r)
  else (await ticks r).map fun r => (0, { r with interruptOccurred := false })

end Rtc

end LumettaOS
