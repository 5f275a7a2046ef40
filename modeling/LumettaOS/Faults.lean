import LumettaOS.Printf
import LumettaOS.Traps

/-! What an exception leaves on the screen. The functions of idt.c print one line and spin;
two of them print the error code and `cr2`, which their wrappers pass to them. -/

namespace LumettaOS.Faults
open Lib.Stack Gates Traps Printf CString Itoa

def message : Handler → List Byte
  | .de => ascii "Divide error"
  | .db => ascii "RESERVED"
  | .nmi => ascii "NMI interrupt"
  | .bp => ascii "Breakpoint"
  | .of => ascii "Overflow"
  | .br => ascii "BOUND Range Exceeded"
  | .ud => ascii "Invalid Opcode"
  | .nm => ascii "Device not available"
  | .df => ascii "Double fault"
  | .cso => ascii "Coprocessor Segment Overrun"
  | .ts => ascii "Invalid TSS"
  | .np => ascii "Segment not present"
  | .ss => ascii "Stack segment fault"
  | .gp => ascii "GP Fault exception code is %d attempting to access %x\n"
  | .pf => ascii "Page Fault exception code is %d attempting to access %x\n"
  | .r => ascii "Intel RESERVED"
  | .mf => ascii "x87 FPU Floating Point Error"
  | .ac => ascii "Alignment Check"
  | .mc => ascii "Machine Check"
  | .xf => ascii "SIMD Floating Point Exception"
  | _ => ascii "invalid"

def calling : Handler → Cpu → Cpu
  | .gp, s => faultEntry s
  | .pf, s => faultEntry s
  | _, s => s.pushal.pushfl

def hasCode (v : Nat) : Bool := v == 8 || (10 ≤ v && v ≤ 14) || v == 17

section Report

-- `constants` is where the linker put the formats
variable (tss : Tss) (mem : Ram) (constants : Handler → Word) (convBuf : Nat → Memory)
  (v : BitVec 8) (code : Word) (s : Cpu)

def reportCall (g : Gate) : Printf.Call where
  mem := mem
  format := constants (exceptions v.toNat)
  args := (calling (exceptions v.toNat)
    (s.deliver g tss (if hasCode v.toNat then some code else none))).word
  convBuf := convBuf

def reporting (idt : Idt) : Option Printf.Call :=
  match checkGate idt .event v with
  | .error _ => none
  | .ok g => some (reportCall tss mem constants convBuf v code s g)

end Report

def report (h : Handler) (code cr2 : Word) : List Byte :=
  match h with
  | .gp => ascii "GP Fault exception code is " ++ (signedNumeral code.toInt ++
      (ascii " attempting to access " ++ (hexNumeral false cr2.toNat ++ [0x0A])))
  | .pf => ascii "Page Fault exception code is " ++ (signedNumeral code.toInt ++
      (ascii " attempting to access " ++ (hexNumeral false cr2.toNat ++ [0x0A])))
  | h => message h

section Arguments

variable {p k : Cpu} {ws : List Word}

/-- `40(%esp)` is the word on the stack when the wrapper was entered, which for these two
exceptions is the error code. -/
theorem faultEntry_pushed {code : Word} (h : Pushed p (code :: ws) k)
    (room : 4 * (ws.length + 12) ≤ p.esp.toNat) :
    ∃ vs, Pushed p (code :: k.cr2 :: vs) (faultEntry k) := by
  have saves := pushal_pushed h (h.left (n := 8) (by rw [List.length_cons]; omega))
  have long : (saved k ++ code :: ws).length = ws.length + 9 := by
    rw [List.length_append, List.length_cons, Nat.add_comm]
    rfl
  have flags : Pushed p (_ :: (saved k ++ code :: ws)) k.pushal.pushfl :=
    saves.push _ (saves.left (n := 1) (by omega))
  have same : k.pushal.pushfl.cr2 = k.cr2 := pushes_cr2 _ k
  have third := (flags.setReg .eax k.pushal.pushfl.cr2).push k.pushal.pushfl.cr2
    ((flags.setReg .eax k.pushal.pushfl.cr2).left (n := 1) (by rw [List.length_cons]; omega))
  have fourth := third.push code (third.left (n := 1) (by
    rw [List.length_cons, List.length_cons]
    omega))
  have whole : faultEntry k = ((k.pushal.pushfl.setReg .eax k.pushal.pushfl.cr2).push
      k.pushal.pushfl.cr2).push code := by
    simp only [faultEntry, setReg_same]
    rw [third.word (i := 10) (w := code) rfl]
  rw [whole, ← same]
  exact ⟨_, fourth⟩

end Arguments

theorem faultEntry_args (g : Gate) (tss : Tss) (code : Word) (s : Cpu)
    (room : 72 ≤ (start tss s).toNat) :
    (faultEntry (s.deliver g tss (some code))).word 0 = code ∧
      (faultEntry (s.deliver g tss (some code))).word 1 = s.cr2 := by
  obtain ⟨-, -, -, -, cr2, -⟩ := deliver_registers g tss (some code) s
  have short := length_frame s
  have first : Pushed { s with esp := start tss s } (code :: frame s)
      (s.deliver g tss (some code)) := deliver_pushed g tss (some code) s (by omega)
  obtain ⟨vs, pushed⟩ := faultEntry_pushed first (by change _ ≤ (start tss s).toNat; omega)
  exact ⟨pushed.word rfl, (pushed.word rfl).trans cr2⟩

def plain (text : List Byte) : Bool := text.all fun b => b != 0x25

theorem pieces_plain {text : List Byte} (h : plain text = true) (rest : List Byte) :
    pieces none (text ++ rest) = text.map .char ++ pieces none rest := by
  induction text with
  | nil => rfl
  | cons b text ih =>
    obtain ⟨first, others⟩ : b ≠ 0x25 ∧ plain text = true := by simpa [plain] using h
    rw [List.cons_append, pieces, if_neg first, ih others]
    rfl

theorem render_chars (c : Printf.Call) (text : List Byte) (ps : List Piece) (i : Nat) :
    c.render (text.map .char ++ ps) i = text ++ c.render ps i := by
  induction text with
  | nil => rfl
  | cons b text ih => exact congrArg (List.cons b) ih

def faultFormat (before : List Byte) : List Byte :=
  before ++ ([0x25, 0x64] ++ (ascii " attempting to access " ++ [0x25, 0x78, 0x0A]))

theorem pieces_fault {before : List Byte} (h : plain before = true) :
    pieces none (faultFormat before) = before.map .char ++ (.conversion false 0x64 ::
      ((ascii " attempting to access ").map .char ++ [.conversion false 0x78, .char 0x0A])) := by
  rw [faultFormat, pieces_plain h]
  have between : pieces none (ascii " attempting to access " ++ [0x25, 0x78, 0x0A]) =
    (ascii " attempting to access ").map .char ++ [.conversion false 0x78, .char 0x0A] :=
      pieces_plain rfl _
  rw [← between]
  rfl

theorem message_fault : message .gp = faultFormat (ascii "GP Fault exception code is ") ∧
    message .pf = faultFormat (ascii "Page Fault exception code is ") := ⟨rfl, rfl⟩

theorem message_plain {h : Handler} (gp : h ≠ .gp) (pf : h ≠ .pf) : plain (message h) = true := by
  cases h <;> first | rfl | contradiction

theorem render_fault (c : Printf.Call) {before : List Byte} (h : plain before = true) :
    c.render (pieces none (faultFormat before)) 0 = before ++ (signedNumeral (c.args 0).toInt ++
      (ascii " attempting to access " ++ (hexNumeral false (c.args 1).toNat ++ [0x0A]))) := by
  rw [pieces_fault h, render_chars, Call.render, render_chars]
  rfl

theorem render_report (c : Printf.Call) (h : Handler) {code cr2 : Word}
    (args : h = .gp ∨ h = .pf → c.args 0 = code ∧ c.args 1 = cr2) :
    c.render (pieces none (message h)) 0 = report h code cr2 := by
  have constant (gp : h ≠ .gp) (pf : h ≠ .pf) :
      c.render (pieces none (message h)) 0 = message h := by
    have all := pieces_plain (message_plain gp pf) []
    rw [List.append_nil] at all
    rw [all, render_chars, pieces, Call.render, List.append_nil]
  cases h with
  | gp =>
    obtain ⟨first, second⟩ := args (Or.inl rfl)
    rw [message_fault.1, render_fault c rfl, first, second, report]
  | pf =>
    obtain ⟨first, second⟩ := args (Or.inr rfl)
    rw [message_fault.2, render_fault c rfl, first, second, report]
  | _ => exact constant (by simp) (by simp)

theorem message_finished (h : Handler) : .unfinished ∉ pieces none (message h) := by
  have fault {before : List Byte} (ok : plain before = true) :
      .unfinished ∉ pieces none (faultFormat before) := by
    rw [pieces_fault ok]
    simp
  by_cases gp : h = .gp
  · rw [gp, message_fault.1]
    exact fault rfl
  by_cases pf : h = .pf
  · rw [pf, message_fault.2]
    exact fault rfl
  have all := pieces_plain (message_plain gp pf) []
  rw [List.append_nil] at all
  rw [all]
  simp [pieces]

theorem checkGate_exception (link : Handler → Word) (old : Idt) {v : BitVec 8}
    (present : v.toNat ∈ vectors) :
    checkGate (idtInit link old) .event v = .ok (gateOf link v.toNat) := by
  unfold checkGate
  simp [gate_idtInit, gateOf, (isPresent_iff v.toNat).mpr present, Source.level]

theorem fault_vector {n : Nat} (exception : n < 20) (h : exceptions n = .gp ∨ exceptions n = .pf) :
    n = 13 ∨ n = 14 := by
  interval_cases n <;> simp [exceptions] at h ⊢

/-- Every exception that has a gate, raised anywhere in user mode or in the kernel, gets to
the function of idt.c for it, and the line that function prints is complete: `GP` and `PF`
name the error code that the processor pushed and the address in `cr2`. -/
theorem exceptions_report (link : Handler → Word) (old : Idt) (tss : Tss) (mem : Ram)
    (constants : Handler → Word) (convBuf : Nat → Memory) {v : BitVec 8}
    (exception : v.toNat < 20) (present : v.toNat ≠ 1 ∧ v.toNat ≠ 15)
    (constant : IsString (fun i => mem (Word.place (constants (exceptions v.toNat)) i))
      (message (exceptions v.toNat)))
    (code : Word) (s : Cpu) (room : 72 ≤ (start tss s).toNat) :
    ∃ c n, reporting tss mem constants convBuf v code s (idtInit link old) = some c ∧
      (c.step^[n] .start).phase = .returned ∧
      (c.step^[n] .start).out = report (exceptions v.toNat) code s.cr2 := by
  have listed : v.toNat ∈ vectors := (isPresent_iff _).mp (by
    simp only [isPresent, Bool.or_eq_true, Bool.and_eq_true, decide_eq_true_eq, bne_iff_ne]
    omega)
  have called : reporting tss mem constants convBuf v code s (idtInit link old) =
      some (reportCall tss mem constants convBuf v code s (gateOf link v.toNat)) := by
    rw [reporting, checkGate_exception link old listed]
  have args : exceptions v.toNat = .gp ∨ exceptions v.toNat = .pf →
      (reportCall tss mem constants convBuf v code s (gateOf link v.toNat)).args 0 = code ∧
        (reportCall tss mem constants convBuf v code s (gateOf link v.toNat)).args 1 = s.cr2 := by
    intro fault
    have pushes : hasCode v.toNat = true := by
      rcases fault_vector exception fault with e | e <;> rw [e] <;> rfl
    have wrapped : calling (exceptions v.toNat) = faultEntry := by
      rcases fault with e | e <;> rw [e] <;> rfl
    have passed : (reportCall tss mem constants convBuf v code s (gateOf link v.toNat)).args =
        (faultEntry (s.deliver (gateOf link v.toNat) tss (some code))).word := by
      simp only [reportCall, if_pos pushes, wrapped]
    rw [passed]
    exact faultEntry_args (gateOf link v.toNat) tss code s room
  have format : IsString (reportCall tss mem constants convBuf v code s
      (gateOf link v.toNat)).byte (message (exceptions v.toNat)) := constant
  generalize reportCall tss mem constants convBuf v code s (gateOf link v.toNat) = c at *
  obtain ⟨n, done⟩ := printf_returns c format (message_finished _)
  refine ⟨c, n, called, ?_, ?_⟩
  · rw [done]
  · rw [done]
    exact render_report c _ args

theorem exceptions_report_page_fault :
    ∃ c n, reporting ⟨0x18, 0x7FFFFC⟩ (fun a => literal (message .pf) (fun _ => 0) a.toNat)
        (fun _ => 0) (fun _ _ => 0) 14 4 userCpu (idtInit (fun _ => 0x400000) fun _ => ⟨0, 0⟩) =
          some c ∧
      (c.step^[n] .start).out =
        ascii "Page Fault exception code is 4 attempting to access 0\n" := by
  have live : ∀ b ∈ message .pf, b ≠ 0 := by decide +kernel
  have small : (message .pf).length + 1 < 2 ^ 32 := by decide +kernel
  have constant := sampleCall_isString live small (fun _ => 0) 0
  obtain ⟨c, n, called, -, out⟩ := exceptions_report (fun _ => 0x400000) (fun _ => ⟨0, 0⟩)
    ⟨0x18, 0x7FFFFC⟩ (fun a => literal (message .pf) (fun _ => 0) a.toNat) (fun _ => 0)
    (fun _ _ => 0) (v := 14) (by decide) (by decide) constant 4 userCpu (by decide)
  refine ⟨c, n, called, out.trans ?_⟩
  decide +kernel

end LumettaOS.Faults
