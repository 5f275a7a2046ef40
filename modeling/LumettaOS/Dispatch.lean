import LumettaOS.Lib.Logged
import LumettaOS.Execute

/-! `syscall_wrapper` of handler_wrapper.S, one instruction after another. The function
behind the call target is compiled C: it is a parameter, known by its calling
convention, and it need not come back (`sys_halt`). -/

namespace LumettaOS.Dispatch
open Lib Lib.Logged

inductive Reg where
  | eax
  | ebx
  | ecx
  | edx
  deriving DecidableEq

/-- The registers, the stack by the addresses of its slots, and `eax_mem`. -/
structure Cpu where
  regs : Reg → Word
  esp : Word
  stack : Word → Word
  eaxMem : Word

/-- The functions that `sys_call_table` lists; its entry 0 is a zero. -/
inductive SysFn where
  | zero
  | sysHalt
  | sysExecute
  | sysRead
  | sysWrite
  | sysOpen
  | sysClose
  | sysGetargs
  | sysVidmap
  deriving DecidableEq

def sysCallTable : List SysFn :=
  [.zero, .sysHalt, .sysExecute, .sysRead, .sysWrite, .sysOpen, .sysClose, .sysGetargs, .sysVidmap]

inductive Target where
  | listed (f : SysFn)
  | behind (address : Word)
  deriving DecidableEq

inductive Access where
  | pushed (r : Reg) (slot : Word)
  | popped (r : Reg) (slot : Word)
  | loaded (index : Word)
  | called (t : Target)
  deriving DecidableEq

def setReg (r : Reg) (v : Word) (s : Cpu) : Cpu := { s with regs := Function.update s.regs r v }

def pushl (r : Reg) (s : Cpu) : Logged Access Cpu :=
  touch (.pushed r (s.esp - 4))
    (some { s with esp := s.esp - 4, stack := Function.update s.stack (s.esp - 4) (s.regs r) })

def popl (r : Reg) (s : Cpu) : Logged Access Cpu :=
  touch (.popped r s.esp) (some { setReg r (s.stack s.esp) s with esp := s.esp + 4 })

def entryAt (behind : Word → Word) (index : Word) : Target :=
  match sysCallTable[index.toNat]? with
  | some f => .listed f
  | none => .behind (behind index)

def loadTarget (behind : Word → Word) (index : Word) : Logged Access Target :=
  touch (.loaded index) (some (entryAt behind index))

abbrev Callee := Target → Cpu → Option Cpu

def call (callee : Callee) (t : Target) (s : Cpu) : Logged Access Cpu :=
  touch (.called t) (callee t s)

def popAll (s : Cpu) : Logged Access Cpu := do
  let s ← popl .ebx s
  let s ← popl .ecx s
  popl .edx s

def invalid (s : Cpu) : Logged Access Cpu := do
  let s ← popAll s
  return setReg .eax (-1) s

def dispatch (callee : Callee) (behind : Word → Word) (s : Cpu) : Logged Access Cpu :=
  -- `cmpl $9, %eax; ja invalid` is unsigned, `cmpl $0, %eax; jle invalid` is signed
  if 9 < s.regs .eax then invalid s
  else if (s.regs .eax).toInt ≤ 0 then invalid s
  else do
    let t ← loadTarget behind (s.regs .eax)
    let s ← call callee t s
    popAll { s with eaxMem := s.regs .eax }

def syscallWrapper (callee : Callee) (behind : Word → Word) (s : Cpu) : Logged Access Cpu := do
  let s ← pushl .edx s
  let s ← pushl .ecx s
  let s ← pushl .ebx s
  dispatch callee behind s

/-- A function of the table that comes back has the stack pointer where it was, and has
stored nothing above its three arguments. -/
def Cdecl (callee : Callee) : Prop :=
  ∀ f s s', callee (.listed f) s = some s' → s'.esp = s.esp ∧
    ∀ i : Nat, i < 5 → s'.stack (s.esp + 12 + 4 * BitVec.ofNat 32 i) =
      s.stack (s.esp + 12 + 4 * BitVec.ofNat 32 i)

def calls (log : List Access) : List Target :=
  log.filterMap fun a => match a with
    | .called t => some t
    | _ => none

structure StaysInTable (s : Cpu) (r : Logged Access Cpu) : Prop where
  target : (∃ f, 1 ≤ (s.regs .eax).toNat ∧ (s.regs .eax).toNat ≤ 8 ∧
      sysCallTable[(s.regs .eax).toNat]? = some f ∧ calls r.log = [.listed f]) ∨
    (calls r.log = [] ∧ ∃ s', r.value = some s' ∧ s'.regs .eax = -1)
  loads : ∀ index, .loaded index ∈ r.log → index.toNat < sysCallTable.length
  slots : ∀ s', r.value = some s' → s'.esp = s.esp ∧
    ∀ reg slot, .popped reg slot ∈ r.log ↔ .pushed reg slot ∈ r.log
  frame : ∀ s', r.value = some s' → ∀ i : Nat, i < 5 →
    s'.stack (s.esp + 4 * BitVec.ofNat 32 i) = s.stack (s.esp + 4 * BitVec.ofNat 32 i)

section Stack

variable (s : Cpu)

def pushed : Cpu where
  regs := s.regs
  esp := s.esp - 4 - 4 - 4
  stack := Function.update (Function.update (Function.update s.stack
    (s.esp - 4) (s.regs .edx)) (s.esp - 4 - 4) (s.regs .ecx)) (s.esp - 4 - 4 - 4) (s.regs .ebx)
  eaxMem := s.eaxMem

def pushes : List Access :=
  [.pushed .edx (s.esp - 4), .pushed .ecx (s.esp - 4 - 4), .pushed .ebx (s.esp - 4 - 4 - 4)]

def pops (esp : Word) : List Access :=
  [.popped .ebx esp, .popped .ecx (esp + 4), .popped .edx (esp + 4 + 4)]

theorem wrapper_log (callee : Callee) (behind : Word → Word) :
    (syscallWrapper callee behind s).log = pushes s ++ (dispatch callee behind (pushed s)).log :=
  rfl

theorem wrapper_value (callee : Callee) (behind : Word → Word) :
    (syscallWrapper callee behind s).value = (dispatch callee behind (pushed s)).value := rfl

theorem popAll_log : (popAll s).log = pops s.esp := rfl

theorem popAll_value : ∃ s', (popAll s).value = some s' ∧ s'.esp = s.esp + 4 + 4 + 4 ∧
    s'.stack = s.stack := ⟨_, rfl, rfl, rfl⟩

theorem invalid_log : (invalid s).log = pops s.esp := by
  rw [invalid, bind_pure_log, popAll_log]

theorem invalid_value : ∃ s', (invalid s).value = some s' ∧ s'.regs .eax = -1 ∧
    s'.esp = s.esp + 4 + 4 + 4 ∧ s'.stack = s.stack := ⟨_, rfl, rfl, rfl, rfl⟩

theorem pushed_esp : (pushed s).esp + 4 + 4 + 4 = s.esp := by
  simp only [pushed, BitVec.sub_add_cancel]

theorem popped_iff_pushed (reg : Reg) (slot : Word) :
    .popped reg slot ∈ pops (pushed s).esp ↔ .pushed reg slot ∈ pushes s := by
  simp only [pops, pushes, pushed, BitVec.sub_add_cancel, List.mem_cons, List.not_mem_nil,
    or_false, Access.popped.injEq, Access.pushed.injEq]
  tauto

theorem pushed_stack {i : Nat} (h : i < 5) :
    (pushed s).stack (s.esp + 4 * BitVec.ofNat 32 i) =
      s.stack (s.esp + 4 * BitVec.ofNat 32 i) := by
  have first : s.esp + 4 * BitVec.ofNat 32 i ≠ s.esp - 4 := by bv_omega
  have second : s.esp + 4 * BitVec.ofNat 32 i ≠ s.esp - 4 - 4 := by bv_omega
  have third : s.esp + 4 * BitVec.ofNat 32 i ≠ s.esp - 4 - 4 - 4 := by bv_omega
  simp only [pushed]
  rw [Function.update_of_ne third, Function.update_of_ne second, Function.update_of_ne first]

theorem pushed_frame (i : Nat) : (pushed s).esp + 12 + 4 * BitVec.ofNat 32 i =
    s.esp + 4 * BitVec.ofNat 32 i := by
  simp only [pushed]
  bv_omega

end Stack

section Paths

variable {callee : Callee} {behind : Word → Word} {s : Cpu}

theorem wrapper_invalid (h : 9 < s.regs .eax ∨ (s.regs .eax).toInt ≤ 0) :
    (syscallWrapper callee behind s).log = pushes s ++ pops (pushed s).esp ∧
      (syscallWrapper callee behind s).value = (invalid (pushed s)).value := by
  have path : dispatch callee behind (pushed s) = invalid (pushed s) := by
    unfold dispatch
    change (if 9 < s.regs .eax then _ else if (s.regs .eax).toInt ≤ 0 then _ else _) = _
    by_cases high : 9 < s.regs .eax
    · rw [if_pos high]
    · rw [if_neg high, if_pos (h.resolve_left high)]
  rw [wrapper_log, wrapper_value, path, invalid_log]
  exact ⟨rfl, rfl⟩

theorem wrapper_call (low : 1 ≤ (s.regs .eax).toNat) (high : (s.regs .eax).toNat ≤ 9) :
    (syscallWrapper callee behind s).log = pushes s ++ .loaded (s.regs .eax) ::
        (call callee (entryAt behind (s.regs .eax)) (pushed s) >>= fun s₁ =>
          popAll { s₁ with eaxMem := s₁.regs .eax }).log ∧
      (syscallWrapper callee behind s).value =
        (callee (entryAt behind (s.regs .eax)) (pushed s)).bind fun s₁ =>
          (popAll { s₁ with eaxMem := s₁.regs .eax }).value := by
  have above : ¬ 9 < (pushed s).regs .eax := by
    change ¬ 9 < s.regs .eax
    bv_omega
  have positive : ¬ ((pushed s).regs .eax).toInt ≤ 0 := by
    change ¬ (s.regs .eax).toInt ≤ 0
    rw [Word.toInt_of_toNat_lt (k := 10) (by omega) (by omega)]
    omega
  rw [wrapper_log, wrapper_value, dispatch, if_neg above, if_neg positive]
  refine ⟨rfl, ?_⟩
  simp only [bind_value]
  rfl

theorem wrapper_call_cases (conv : Cdecl callee) (low : 1 ≤ (s.regs .eax).toNat)
    (high : (s.regs .eax).toNat ≤ 9) {f : SysFn}
    (listed : entryAt behind (s.regs .eax) = .listed f) :
    ((syscallWrapper callee behind s).log = pushes s ++
        [.loaded (s.regs .eax), .called (.listed f)] ∧
      (syscallWrapper callee behind s).value = none) ∨
    ((syscallWrapper callee behind s).log = pushes s ++
        [.loaded (s.regs .eax), .called (.listed f)] ++ pops (pushed s).esp ∧
      ∃ s', (syscallWrapper callee behind s).value = some s' ∧ s'.esp = s.esp ∧
        ∀ i : Nat, i < 5 → s'.stack (s.esp + 4 * BitVec.ofNat 32 i) =
          s.stack (s.esp + 4 * BitVec.ofNat 32 i)) := by
  obtain ⟨log, value⟩ := @wrapper_call callee behind s low high
  rw [listed] at log value
  cases back : callee (.listed f) (pushed s) with
  | none =>
    left
    rw [log, value, back, bind_log_stopped (by rw [call, touch_value, back])]
    exact ⟨rfl, rfl⟩
  | some s₁ =>
    right
    obtain ⟨esp, frame⟩ := conv _ _ _ back
    obtain ⟨s', popped, esp', stack⟩ := popAll_value { s₁ with eaxMem := s₁.regs .eax }
    have restored : s'.esp = s.esp := by
      rw [esp', esp, pushed_esp]
    refine ⟨?_, s', ?_, restored, fun i hi => ?_⟩
    · rw [log, bind_log (show (call _ _ _).value = some s₁ from back), popAll_log, esp]
      rfl
    · rw [value, back, Option.bind_some, popped]
    · have kept := frame i hi
      rw [pushed_frame, pushed_stack s hi] at kept
      rw [stack]
      exact kept

theorem pushes_clean (s : Cpu) : calls (pushes s) = [] ∧ (∀ index, .loaded index ∉ pushes s) ∧
    ∀ reg slot, .popped reg slot ∉ pushes s := by
  simp [calls, pushes]

theorem pops_clean (esp : Word) : calls (pops esp) = [] ∧ (∀ index, .loaded index ∉ pops esp) ∧
    ∀ reg slot, .pushed reg slot ∉ pops esp := by
  simp [calls, pops]

theorem stays_invalid (h : 9 < s.regs .eax ∨ (s.regs .eax).toInt ≤ 0) :
    StaysInTable s (syscallWrapper callee behind s) := by
  obtain ⟨log, value⟩ := @wrapper_invalid callee behind s h
  obtain ⟨s', popped, minus, esp, stack⟩ := invalid_value (pushed s)
  obtain ⟨noCall, noLoad, noPop⟩ := pushes_clean s
  obtain ⟨noCall', noLoad', noPush⟩ := pops_clean (pushed s).esp
  rw [popped] at value
  refine ⟨Or.inr ⟨?_, s', value, minus⟩, fun index hi => ?_, fun s₂ h₂ => ?_,
    fun s₂ h₂ i hi => ?_⟩
  · rw [log, calls, List.filterMap_append]
    exact congrArg₂ _ noCall noCall'
  · rw [log, List.mem_append] at hi
    exact (hi.elim (noLoad index) (noLoad' index)).elim
  · rw [value, Option.some_inj] at h₂
    refine ⟨by rw [← h₂, esp, pushed_esp], fun reg slot => ?_⟩
    rw [log, List.mem_append, List.mem_append, popped_iff_pushed]
    simp [noPop, noPush]
  · rw [value, Option.some_inj] at h₂
    rw [← h₂, stack, pushed_stack s hi]

theorem call_log {f : SysFn} {tail : List Access}
    (htail : calls tail = [] ∧ ∀ index, .loaded index ∉ tail) :
    calls (pushes s ++ [.loaded (s.regs .eax), .called (.listed f)] ++ tail) = [.listed f] ∧
      ∀ index, .loaded index ∈ pushes s ++ [.loaded (s.regs .eax), .called (.listed f)] ++ tail →
        index = s.regs .eax := by
  obtain ⟨noCall, noLoad, -⟩ := pushes_clean s
  refine ⟨?_, fun index hi => ?_⟩
  · unfold calls at noCall htail ⊢
    rw [List.filterMap_append, List.filterMap_append, noCall, htail.1]
    rfl
  · simpa [noLoad, htail.2] using hi

theorem stays_call (conv : Cdecl callee) (low : 1 ≤ (s.regs .eax).toNat)
    (high : (s.regs .eax).toNat ≤ 8) : StaysInTable s (syscallWrapper callee behind s) := by
  have inside : (s.regs .eax).toNat < sysCallTable.length := by
    change _ < 9
    omega
  obtain ⟨f, entry⟩ : ∃ f, sysCallTable[(s.regs .eax).toNat]? = some f :=
    ⟨_, List.getElem?_eq_getElem inside⟩
  have listed : entryAt behind (s.regs .eax) = .listed f := by rw [entryAt, entry]
  rcases wrapper_call_cases conv low (by omega) listed with
    ⟨log, stopped⟩ | ⟨log, s', back, esp, frame⟩
  · obtain ⟨called, loaded⟩ := @call_log s f [] ⟨rfl, by simp⟩
    rw [List.append_nil, ← log] at called loaded
    refine ⟨Or.inl ⟨f, low, high, entry, called⟩, fun index hi => ?_, fun s₂ h₂ => ?_,
      fun s₂ h₂ => ?_⟩
    · rw [loaded index hi]
      exact inside
    · simp [stopped] at h₂
    · simp [stopped] at h₂
  · obtain ⟨noCall, noLoad, noPush⟩ := pops_clean (pushed s).esp
    obtain ⟨-, -, noPop⟩ := pushes_clean s
    obtain ⟨called, loaded⟩ := @call_log s f _ ⟨noCall, noLoad⟩
    rw [← log] at called loaded
    refine ⟨Or.inl ⟨f, low, high, entry, called⟩, fun index hi => ?_, fun s₂ h₂ => ?_,
      fun s₂ h₂ i hi => ?_⟩
    · rw [loaded index hi]
      exact inside
    · rw [back, Option.some_inj] at h₂
      refine ⟨by rw [← h₂, esp], fun reg slot => ?_⟩
      rw [log, List.mem_append, List.mem_append, List.mem_append, List.mem_append,
        popped_iff_pushed]
      simp [noPop, noPush]
    · rw [back, Option.some_inj] at h₂
      rw [← h₂]
      exact frame i hi

/-- Number 9 passes both tests, and its target is read from behind the table. -/
theorem nine_leaves_table (nine : s.regs .eax = 9) :
    .loaded 9 ∈ (syscallWrapper callee behind s).log := by
  have value : (s.regs .eax).toNat = 9 := by rw [nine]; rfl
  obtain ⟨log, -⟩ := @wrapper_call callee behind s (by omega) (by omega)
  rw [log, nine]
  simp

end Paths

/-- For every number but 9 the wrapper calls what the table lists or returns -1, reads no
entry behind the table, and leaves the stack as it was. -/
theorem dispatch_inside_iff {callee : Callee} (conv : Cdecl callee) (behind : Word → Word)
    (s : Cpu) : StaysInTable s (syscallWrapper callee behind s) ↔ s.regs .eax ≠ 9 := by
  refine ⟨fun stays nine => ?_, fun other => ?_⟩
  · have inside := stays.loads 9 (nine_leaves_table nine)
    exact absurd inside (by decide)
  · have bound : (s.regs .eax).toNat ≠ 9 := fun e => other (BitVec.eq_of_toNat_eq e)
    by_cases valid : 1 ≤ (s.regs .eax).toNat ∧ (s.regs .eax).toNat ≤ 8
    · exact stays_call conv valid.1 valid.2
    · refine stays_invalid ?_
      by_cases zero : s.regs .eax = 0
      · right
        rw [zero]
        decide
      · left
        bv_omega

def vidmapOnly : Callee := fun t s =>
  if t = .listed .sysVidmap then
    some (setReg .eax (Execute.sysVidmap (s.stack s.esp)).1 s)
  else none

theorem vidmapOnly_cdecl : Cdecl vidmapOnly := by
  intro f s s' h
  rw [vidmapOnly, Option.ite_none_right_eq_some] at h
  rw [← Option.some_inj.mp h.2]
  exact ⟨rfl, fun _ _ => rfl⟩

def entering (eax : Word) : Cpu :=
  ⟨fun r => if r = .eax then eax else 0, 0x7FFFE8, fun _ => 0, 0⟩

theorem dispatch_inside_iff_sample :
    (syscallWrapper vidmapOnly (fun _ => 0) (entering 8)).value.isSome ∧
      StaysInTable (entering 8) (syscallWrapper vidmapOnly (fun _ => 0) (entering 8)) :=
  ⟨by decide, (dispatch_inside_iff vidmapOnly_cdecl _ _).mpr (by decide)⟩

/-- The number of `SYS_SET_HANDLER`: the word behind the table is called. -/
theorem set_handler_number_escapes :
    calls (syscallWrapper vidmapOnly (fun _ => 0x1234) (entering 9)).log = [.behind 0x1234] ∧
      ¬ StaysInTable (entering 9) (syscallWrapper vidmapOnly (fun _ => 0x1234) (entering 9)) := by
  refine ⟨by decide, fun stays => ?_⟩
  have inside := stays.loads 9 (nine_leaves_table rfl)
  exact absurd inside (by decide)

end LumettaOS.Dispatch
