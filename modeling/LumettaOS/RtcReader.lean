import LumettaOS.Lib.Runs
import LumettaOS.Rtc

/-! The RTC driver between its interrupts. A system call enters with interrupts off,
so `rtc_open` and `rtc_write` are single steps; `rtc_read` turns them on and then
waits, so a tick may come before each test of the flag and before the store that
clears it. -/

namespace LumettaOS.RtcReader
open Lib.Runs

inductive Phase where
  | idle
  | waiting
  | leaving
  deriving DecidableEq

/-- `raised` counts the ticks that set `rtc_interrupt_occurred` and `entered` is that
number at the entry of the current read; `log` has both ends of every finished read. -/
structure Session where
  rtc : Rtc
  phase : Phase
  raised : Nat
  entered : Nat
  log : List (Nat × Nat)

inductive Act where
  | tick
  | open
  | write (null : Bool) (buf : Memory) (nbytes : Word)
  | read (null : Bool)
  | step

/-- The next run of `rtc_handler` sets `rtc_interrupt_occurred`: it is up behind it even if
it was down before. -/
def raises (r : Rtc) : Bool := { r with interruptOccurred := false }.rtcHandler.interruptOccurred

def advance (s : Session) : Option Session :=
  match s.phase with
  | .idle => none
  | .waiting => some { s with phase := if s.rtc.interruptOccurred then .leaving else .waiting }
  | .leaving => some { s with
      rtc := { s.rtc with interruptOccurred := false }
      phase := .idle
      log := s.log ++ [(s.entered, s.raised)] }

/-- A call is made outside a read only; a read with a null buffer returns at once. -/
def act : Act → Session → Option Session
  | .tick, s => some { s with
      rtc := s.rtc.rtcHandler
      raised := s.raised + if raises s.rtc then 1 else 0 }
  | .open, s => if s.phase = .idle then some { s with rtc := s.rtc.rtcOpen } else none
  | .write null buf nbytes, s =>
    if s.phase = .idle then some { s with rtc := (s.rtc.rtcWrite null buf nbytes).2 } else none
  | .read null, s =>
    if s.phase = .idle then
      some (if null then s else { s with phase := .waiting, entered := s.raised })
    else none
  | .step, s => advance s

def start (r : Rtc) : Session := ⟨r, .idle, 0, 0, []⟩

def ticksOf (acts : List Act) : Nat := acts.countP fun a => match a with
  | .tick => true
  | _ => false

def Act.Keeps : Act → Prop
  | .open => False
  | .write _ _ _ => False
  | _ => True

def Fresh : Act → Session → Prop
  | .read null, s => null = false → s.rtc.interruptOccurred = false
  | _, _ => True

theorem run_await {ticks : Nat} {s : Session} {r : Rtc} (hp : s.phase = .waiting)
    (h : Rtc.await ticks s.rtc = some r) :
    r.interruptOccurred = true ∧
      ∃ n raised, run act (List.replicate n .tick) s =
        some { s with rtc := r, raised := raised } := by
  induction ticks generalizing s with
  | zero =>
    rw [Rtc.await] at h
    split at h
    · rename_i flag
      rw [Option.some_inj] at h
      exact ⟨h ▸ flag, 0, s.raised, by rw [← h]; rfl⟩
    · simp at h
  | succ ticks ih =>
    rw [Rtc.await] at h
    split at h
    · rename_i flag
      rw [Option.some_inj] at h
      exact ⟨h ▸ flag, 0, s.raised, by rw [← h]; rfl⟩
    · obtain ⟨flag, n, raised, hrun⟩ := ih (s := { s with
        rtc := s.rtc.rtcHandler
        raised := s.raised + if raises s.rtc then 1 else 0 }) hp h
      exact ⟨flag, n + 1, raised, hrun⟩

/-- The read that `sys_read` makes is one schedule of this session. -/
theorem run_rtcRead {ticks : Nat} {r r' : Rtc} {v : Word}
    (h : r.rtcRead false ticks = some (v, r')) :
    v = 0 ∧ ∃ acts s, run act (.read false :: acts) (start r) = some s ∧ s.rtc = r' ∧
      s.phase = .idle ∧ s.log.length = 1 := by
  simp only [Rtc.rtcRead, Bool.false_eq_true, if_false, Option.map_eq_some_iff,
    Prod.mk.injEq] at h
  obtain ⟨r₁, waited, hv, hr⟩ := h
  obtain ⟨flag, n, raised, hrun⟩ := run_await (s := ⟨r, .waiting, 0, 0, []⟩) rfl waited
  refine ⟨hv.symm, List.replicate n .tick ++ [.step, .step],
    ⟨r', .idle, raised, 0, [(0, raised)]⟩, ?_, rfl, rfl, rfl⟩
  change run act (List.replicate n .tick ++ [.step, .step]) ⟨r, .waiting, 0, 0, []⟩ = _
  rw [run_append, hrun, ← hr]
  simp [run, act, advance, flag]

end LumettaOS.RtcReader
