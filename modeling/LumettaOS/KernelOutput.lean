import LumettaOS.Cursor
import LumettaOS.Printf

/-! What the kernel itself prints. `putc` of lib.c has the cursor in common with the
terminal, but it never scrolls: a character wraps inside its row, and a newline goes to the
next row even from the last one. -/

namespace LumettaOS.Console
open Lib.Runs

def isNewline (b : Byte) : Bool := b == 0x0A || b == 0x0D

def putc (c : Console) (b : Byte) : Console :=
  if isNewline b then { c with screenX := 0, screenY := c.screenY + 1 }
  else
    let c := c.putCell b
    let c := { c with screenX := c.screenX + 1 }
    let c := { c with screenX := c.screenX % numCols }
    { c with screenY := (c.screenY + c.screenX / numCols) % numRows }

def putsFrom (s : Memory) : (rounds index : Nat) → List Byte
  | 0, _ => []
  | rounds + 1, index => if s index = 0 then [] else s index :: putsFrom s rounds (index + 1)

/-- Output of the kernel, also while a call is still at it: `puts` and `printf` come with
the number of rounds or steps they have done. -/
inductive Output where
  | putc (b : Byte)
  | puts (s : Memory) (rounds : Nat)
  | printf (call : Printf.Call) (steps : Nat)

def Output.bytes : Output → List Byte
  | .putc b => [b]
  | .puts s rounds => putsFrom s rounds 0
  | .printf call steps => (call.step^[steps] .start).out

def putcStep (b : Byte) (c : Console) : Option Console := some (c.putc b)

/-- The cursor is on the screen afterwards, and whatever the memory holds, it is kept from
the end of the screen on. -/
def OnScreen (b : Byte) (c : Console) : Prop :=
  (c.putc b).InRange ∧
    ∀ mem a, numRows * numCols * 2 ≤ a → (putc { c with mem := mem } b).mem a = mem a

section Step

variable {c : Console} {b : Byte}

theorem putc_newline (h : isNewline b = true) :
    c.putc b = { c with screenX := 0, screenY := c.screenY + 1 } := by
  rw [putc, if_pos h]

/-- The column is reduced before it is looked at, so a character never leaves its row. -/
theorem putc_other (h : isNewline b = false) (row : c.screenY < 25) :
    c.putc b = { c.putCell b with screenX := (c.screenX + 1) % 80 } := by
  have within : (c.screenX + 1) % 80 / 80 = 0 := Nat.div_eq_of_lt (Nat.mod_lt _ (by decide))
  simp only [putc, h, Bool.false_eq_true, if_false, putCell_screenX, putCell_screenY, numCols,
    numRows, within, Nat.add_zero, Nat.mod_eq_of_lt row]

theorem onScreen_iff (h : c.InRange) : OnScreen b c ↔ (isNewline b = true → c.screenY < 24) := by
  have row := h.row
  by_cases newline : isNewline b = true
  · refine ⟨fun on _ => ?_, fun room => ⟨?_, fun mem a _ => ?_⟩⟩
    · have after := on.1.row
      rw [putc_newline newline] at after
      dsimp only at after
      omega
    · have below := room newline
      rw [putc_newline newline]
      exact ⟨Nat.zero_lt_succ 79, by dsimp only; omega⟩
    · rw [putc_newline newline]
  · rw [Bool.not_eq_true] at newline
    refine ⟨fun _ other => absurd (newline.symm.trans other) (by decide), fun _ => ⟨?_, ?_⟩⟩
    · rw [putc_other newline row]
      exact ⟨Nat.mod_lt _ (by decide), row⟩
    · intro mem a ha
      have same : InRange { c with mem := mem } := ⟨h.col, h.row⟩
      rw [putc_other newline same.row]
      exact putCell_outside same.here_lt b a ha

theorem putc_screenY (h : c.InRange) :
    (c.putc b).screenY = c.screenY + if isNewline b = true then 1 else 0 := by
  by_cases newline : isNewline b = true
  · rw [putc_newline newline, if_pos newline]
  · rw [if_neg newline, putc_other (Bool.not_eq_true _ ▸ newline) h.row]
    rfl

end Step

theorem along_onScreen_iff {c : Console} (h : c.InRange) (bs : List Byte) :
    Along putcStep OnScreen bs c ↔ c.screenY + bs.countP isNewline ≤ 24 := by
  induction bs generalizing c with
  | nil =>
    have row := h.row
    refine ⟨fun _ => ?_, fun _ => trivial⟩
    rw [List.countP_nil]
    omega
  | cons b bs ih =>
    have row := h.row
    have cost := putc_screenY (b := b) h
    have here := onScreen_iff (b := b) h
    rw [List.countP_cons]
    refine ⟨fun along => ?_, fun room => ?_⟩
    · have rest := (ih along.1.1).mp (along.2 _ rfl)
      rw [cost] at rest
      omega
    · have on : OnScreen b c := here.mpr fun newline => by
        rw [if_pos newline] at room
        omega
      refine along_cons on rfl ((ih on.1).mpr ?_)
      rw [cost]
      omega

/-- What the kernel prints stays on the screen exactly as long as its newlines fit below the
cursor. -/
theorem kernel_output_iff (c : Console) (h : c.InRange) (calls : List Output) :
    Along putcStep OnScreen (calls.flatMap Output.bytes) c ↔
      c.screenY + (calls.flatMap Output.bytes).countP isNewline ≤ 24 :=
  along_onScreen_iff h _

theorem kernel_output_iff_sample :
    InRange ⟨fun _ => 0, 79, 24⟩ ∧
      Along putcStep OnScreen
        ([Output.putc 0x41, .puts (CString.literal [0x42, 0x43] fun _ => 0) 3].flatMap Output.bytes)
        ⟨fun _ => 0, 79, 24⟩ := by
  have range : InRange ⟨fun _ => 0, 79, 24⟩ := ⟨Nat.lt_succ_self 79, Nat.lt_succ_self 24⟩
  exact ⟨range, (kernel_output_iff _ range _).mpr (by decide)⟩

/-- After 25 newlines from the top the cursor is below the last row, and the next character
is stored behind the screen. -/
theorem newlines_leave_screen :
    InRange ⟨fun _ => 0, 0, 0⟩ ∧
      ¬ Along putcStep OnScreen ((List.replicate 25 (Output.putc 0x0A)).flatMap Output.bytes)
        ⟨fun _ => 0, 0, 0⟩ ∧
      ((List.replicate 25 (0x0A : Byte) ++ [0x61]).foldl putc ⟨fun _ => 0, 0, 0⟩).mem 4000 =
        0x61 := by
  have range : InRange ⟨fun _ => 0, 0, 0⟩ := ⟨Nat.zero_lt_succ 79, Nat.zero_lt_succ 24⟩
  refine ⟨range, fun along => ?_, by decide +kernel⟩
  have room := (along_onScreen_iff range _).mp along
  exact absurd room (by decide)

end LumettaOS.Console
