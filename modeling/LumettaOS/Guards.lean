import LumettaOS.ReadSafety
import LumettaOS.Lib.Logged

/-! The calls that take a descriptor, with their accesses to the descriptor table in the
order the source has them. `sys_read` and `sys_close` test the range of the descriptor
first, `sys_write` reads the flag first. -/

namespace LumettaOS.FileCalls
open Lib Lib.Logged

inductive Access where
  | index (fd : Word)
  | call (fd : Word)
  deriving DecidableEq

def InTable (fd : Word) : Prop := 0 ≤ fd.toInt ∧ fd.toInt ≤ 7

instance instDecidableInTable (fd : Word) : Decidable (InTable fd) :=
  inferInstanceAs (Decidable (_ ∧ _))

/-- `file_desc_tb[fd].flag`. Around the table lies other memory, `none` where no page is
mapped and the access faults. -/
def readFlag (around : Word → Option Word) (fd : Word) (t : Task) : Logged Access Word :=
  touch (.index fd) (if InTable fd then some (t.desc (index fd)).flag else around fd)

def readOps (fd : Word) (t : Task) : Logged Access (Option FileOps) :=
  touch (.index fd) (some (t.desc (index fd)).fOp)

def deviceRead (fd : Word) (result : Option CallResult) :
    Option FileOps → Logged Access CallResult
  | some .dir => touch (.index fd) result
  | some .file => touch (.index fd) result
  | _ => ⟨[], result⟩

def sysReadLogged (around : Word → Option Word) (img : Image) (env : Env) (fd : Word)
    (buf : Buffer) (n : Word) (t : Task) : Logged Access CallResult := do
  if fd.toInt < 0 then return fail t
  if fd = 1 then return fail t
  if 7 < fd.toInt then return fail t
  let flag ← readFlag around fd t
  if flag = 0 then return fail t
  let ops ← readOps fd t
  touch (.call fd) (some ())
  deviceRead fd (opRead img env (index fd) buf n t ops) ops

def sysWriteLogged (around : Word → Option Word) (fd : Word) (buf : Buffer) (n : Word)
    (t : Task) : Logged Access CallResult := do
  let flag ← readFlag around fd t
  if flag = 0 then return fail t
  if 1 < fd.toInt ∧ fd.toInt ≤ 7 then
    let ops ← readOps fd t
    let r ← touch (.call fd) (opWrite buf n t.dev ops)
    return ⟨if r.1 ≠ -1 then n else -1, [], { t with dev := r.2 }⟩
  if fd = 0 then return fail t
  if fd = 1 then
    let ops ← readOps fd t
    let r ← touch (.call fd) (opWrite buf n t.dev ops)
    return ⟨r.1, [], { t with dev := r.2 }⟩
  return fail t

def sysCloseLogged (around : Word → Option Word) (fd : Word) (t : Task) :
    Logged Access CallResult := do
  if fd.toInt ≤ 1 ∨ 8 ≤ fd.toInt then return fail t
  let flag ← readFlag around fd t
  if flag = 0 then return fail t
  touch (.index fd) (some ⟨0, [], t.setDesc (index fd) { t.desc (index fd) with flag := 0 }⟩)

section Values

variable (img : Image) (env : Env) (fd : Word) (buf : Buffer) (n : Word) (t : Task)

theorem readFlag_inside (around : Word → Option Word) {fd : Word} (h : InTable fd) :
    readFlag around fd t = touch (.index fd) (some (t.desc (index fd)).flag) := by
  rw [readFlag, if_pos h]

theorem deviceRead_value (fd : Word) (result : Option CallResult) (ops : Option FileOps) :
    (deviceRead fd result ops).value = result := by
  cases ops with
  | none => rfl
  | some ops => cases ops <;> rfl

theorem sysReadLogged_value (around : Word → Option Word) :
    (sysReadLogged around img env fd buf n t).value = sysRead img env fd buf n t := by
  unfold sysReadLogged sysRead readGuard
  split_ifs with h0 h1 h7 hz
  · rfl
  · rfl
  · rfl
  · have inside : InTable fd := ⟨by omega, by omega⟩
    simp only [readFlag_inside t around inside, bind_value, touch_value, Option.bind_some,
      if_pos hz, pure_value]
  · have inside : InTable fd := ⟨by omega, by omega⟩
    simp only [readFlag_inside t around inside, readOps, bind_value, touch_value,
      Option.bind_some, if_neg hz, deviceRead_value]

theorem sysWriteLogged_value :
    (sysWriteLogged (fun a => some (env.around a)) fd buf n t).value =
      sysWrite env fd buf n t := by
  have flag : (readFlag (fun a => some (env.around a)) fd t).value = some (flagAt env fd t) := by
    by_cases inside : InTable fd
    · rw [readFlag_inside t _ inside, touch_value, flagAt]
      exact congrArg some (if_pos inside).symm
    · rw [readFlag, if_neg inside, touch_value, flagAt]
      exact congrArg some (if_neg inside).symm
  unfold sysWriteLogged sysWrite
  rw [bind_value, flag, Option.bind_some]
  split_ifs with hz hr h0 h1
  · rfl
  · simp only [readOps, bind_value, touch_value, Option.bind_some, pure_value]
    cases opWrite buf n t.dev (t.desc (index fd)).fOp <;> rfl
  · rfl
  · simp only [readOps, bind_value, touch_value, Option.bind_some, pure_value]
    cases opWrite buf n t.dev (t.desc (index fd)).fOp <;> rfl
  · rfl

theorem sysCloseLogged_value (around : Word → Option Word) :
    (sysCloseLogged around fd t).value = perform img env (.close fd) t := by
  unfold sysCloseLogged
  simp only [perform, sysClose]
  split_ifs with hr hz
  · rfl
  · have inside : InTable fd := ⟨by omega, by omega⟩
    simp only [readFlag_inside t around inside, bind_value, touch_value, Option.bind_some,
      if_pos hz, pure_value]
    rfl
  · have inside : InTable fd := ⟨by omega, by omega⟩
    simp only [readFlag_inside t around inside, bind_value, touch_value, Option.bind_some,
      if_neg hz]

end Values

section Logs

variable {img : Image} {env : Env} {fd : Word} {buf : Buffer} {n : Word} {t : Task}

theorem deviceRead_log {result : Option CallResult} {ops : Option FileOps} {a : Access}
    (h : a ∈ (deviceRead fd result ops).log) : a = .index fd := by
  cases ops with
  | none => simp [deviceRead] at h
  | some ops => cases ops <;> simp_all [deviceRead]

theorem sysReadLogged_refused (h : ¬ (InTable fd ∧ fd ≠ 1)) (around : Word → Option Word) :
    sysReadLogged around img env fd buf n t = pure (fail t) := by
  unfold sysReadLogged
  split_ifs with h0 h1 h7
  · rfl
  · rfl
  · rfl
  · exact absurd ⟨⟨by omega, by omega⟩, h1⟩ h

theorem sysReadLogged_free (h : InTable fd) (h1 : fd ≠ 1) (hz : (t.desc (index fd)).flag = 0)
    (around : Word → Option Word) :
    (sysReadLogged around img env fd buf n t).log = [.index fd] := by
  unfold sysReadLogged
  rw [if_neg (not_lt.mpr h.1), if_neg h1, if_neg (not_lt.mpr h.2), readFlag_inside t around h,
    bind_log rfl, if_pos hz]
  rfl

theorem sysReadLogged_used (h : InTable fd) (h1 : fd ≠ 1) (hz : (t.desc (index fd)).flag ≠ 0)
    (around : Word → Option Word) :
    (sysReadLogged around img env fd buf n t).log = .index fd :: .index fd :: .call fd ::
      (deviceRead fd (opRead img env (index fd) buf n t (t.desc (index fd)).fOp)
        (t.desc (index fd)).fOp).log := by
  unfold sysReadLogged
  rw [if_neg (not_lt.mpr h.1), if_neg h1, if_neg (not_lt.mpr h.2), readFlag_inside t around h,
    bind_log rfl, if_neg hz, readOps, bind_log rfl, bind_log rfl]
  rfl

theorem sysWriteLogged_outside (h : ¬ InTable fd) (around : Word → Option Word) :
    (sysWriteLogged around fd buf n t).log = [.index fd] ∧
      (sysWriteLogged around fd buf n t).value = (around fd).map fun _ => fail t := by
  have range : ¬ (1 < fd.toInt ∧ fd.toInt ≤ 7) := fun r => h ⟨by omega, r.2⟩
  have h0 : fd ≠ 0 := fun e => h (by rw [e]; decide)
  have h1 : fd ≠ 1 := fun e => h (by rw [e]; decide)
  unfold sysWriteLogged
  rw [readFlag, if_neg h, bind_value, touch_value]
  cases flag : around fd with
  | none => exact ⟨bind_log_stopped rfl _, rfl⟩
  | some v =>
    rw [bind_log rfl]
    simp only [if_neg range, if_neg h0, if_neg h1, ite_self]
    exact ⟨rfl, rfl⟩

theorem sysWriteLogged_free (h : InTable fd) (hz : fd = 0 ∨ (t.desc (index fd)).flag = 0)
    (around : Word → Option Word) :
    (sysWriteLogged around fd buf n t).log = [.index fd] := by
  unfold sysWriteLogged
  rw [readFlag_inside t around h, bind_log rfl]
  by_cases zero : (t.desc (index fd)).flag = 0
  · rw [if_pos zero]
    rfl
  · have h0 : fd = 0 := hz.resolve_right zero
    have range : ¬ (1 < fd.toInt ∧ fd.toInt ≤ 7) := by rw [h0]; decide
    rw [if_neg zero, if_neg range, if_pos h0]
    rfl

theorem sysWriteLogged_used (h : InTable fd) (h0 : fd ≠ 0)
    (hz : (t.desc (index fd)).flag ≠ 0) (around : Word → Option Word) :
    (sysWriteLogged around fd buf n t).log = [.index fd, .index fd, .call fd] := by
  unfold sysWriteLogged
  rw [readFlag_inside t around h, bind_log rfl, if_neg hz]
  by_cases range : 1 < fd.toInt ∧ fd.toInt ≤ 7
  · rw [if_pos range, readOps, bind_log rfl, bind_pure_log]
    rfl
  · have h1 : fd = 1 := by
      have low := h.1
      have high := h.2
      have zero : fd.toInt ≠ 0 := fun e => h0 (BitVec.eq_of_toInt_eq e)
      exact BitVec.eq_of_toInt_eq (show fd.toInt = 1 by omega)
    rw [if_neg range, if_neg h0, if_pos h1, readOps, bind_log rfl, bind_pure_log]
    rfl

theorem sysCloseLogged_log (around : Word → Option Word) {a : Access}
    (ha : a ∈ (sysCloseLogged around fd t).log) : InTable fd ∧ a = .index fd := by
  unfold sysCloseLogged at ha
  split_ifs at ha with range
  · simp at ha
  · have inside : InTable fd := ⟨by omega, by omega⟩
    rw [readFlag_inside t around inside, bind_log rfl] at ha
    refine ⟨inside, ?_⟩
    split_ifs at ha
    · simpa using ha
    · simpa using ha

end Logs

/-- The descriptor of a call is checked before use: the table is accessed inside its
bounds only, a descriptor outside gives -1 whatever lies around the table, and functions
are called only through entries with flag 1. -/
structure Guarded (fd : Word) (t : Task)
    (call : (Word → Option Word) → Logged Access CallResult) : Prop where
  inside : ∀ around a, .index a ∈ (call around).log → InTable a
  refused : ¬ InTable fd → ∀ around, ∃ r, (call around).value = some r ∧ r.ret = -1
  called : ∀ around a, .call a ∈ (call around).log → (t.desc (index a)).flag = 1

section Guards

variable {fd : Word} {t : Task}

theorem guarded_of_log {call : (Word → Option Word) → Logged Access CallResult}
    (log : ∀ around, ∀ a ∈ (call around).log, InTable fd ∧
      (a = .index fd ∨ a = .call fd ∧ (t.desc (index fd)).flag = 1))
    (refused : ¬ InTable fd → ∀ around, ∃ r, (call around).value = some r ∧ r.ret = -1) :
    Guarded fd t call where
  inside around a ha := by
    obtain ⟨inside, e | ⟨e, -⟩⟩ := log around _ ha
    · rw [Access.index.inj e]
      exact inside
    · simp at e
  refused := refused
  called around a ha := by
    obtain ⟨-, e | ⟨e, flag⟩⟩ := log around _ ha
    · simp at e
    · rw [Access.call.inj e]
      exact flag

def ProperFlag (fd : Word) (t : Task) : Prop :=
  (t.desc (index fd)).flag = 0 ∨ (t.desc (index fd)).flag = 1

theorem Guarded.properFlag {call : (Word → Option Word) → Logged Access CallResult}
    (guarded : Guarded fd t call)
    (used : (t.desc (index fd)).flag ≠ 0 → .call fd ∈ (call fun _ => none).log) :
    ProperFlag fd t := by
  by_cases zero : (t.desc (index fd)).flag = 0
  · exact Or.inl zero
  · exact Or.inr (guarded.called _ fd (used zero))

theorem read_guarded_iff (img : Image) (env : Env) (buf : Buffer) (n : Word) :
    Guarded fd t (fun around => sysReadLogged around img env fd buf n t) ↔
      (InTable fd → fd ≠ 1 → ProperFlag fd t) := by
  refine ⟨fun guarded inside h1 => ?_, fun proper => guarded_of_log (fun around a ha => ?_) ?_⟩
  · refine guarded.properFlag fun used => ?_
    simp [sysReadLogged_used inside h1 used]
  · by_cases inside : InTable fd ∧ fd ≠ 1
    · refine ⟨inside.1, ?_⟩
      rcases proper inside.1 inside.2 with zero | one
      · rw [sysReadLogged_free inside.1 inside.2 zero, List.mem_singleton] at ha
        exact Or.inl ha
      · have used : (t.desc (index fd)).flag ≠ 0 := by rw [one]; decide
        simp only [sysReadLogged_used inside.1 inside.2 used, List.mem_cons] at ha
        rcases ha with e | e | e | e
        · exact Or.inl e
        · exact Or.inl e
        · exact Or.inr ⟨e, one⟩
        · exact Or.inl (deviceRead_log e)
    · rw [sysReadLogged_refused inside] at ha
      simp at ha
  · intro outside around
    refine ⟨fail t, ?_, rfl⟩
    rw [sysReadLogged_refused fun inside => outside inside.1]
    rfl

theorem write_guarded_iff (buf : Buffer) (n : Word) :
    Guarded fd t (fun around => sysWriteLogged around fd buf n t) ↔
      (InTable fd ∧ (fd ≠ 0 → ProperFlag fd t)) := by
  refine ⟨fun guarded => ?_, fun ⟨inside, proper⟩ => guarded_of_log (fun around a ha => ?_) ?_⟩
  · have inside : InTable fd := by
      by_contra outside
      refine outside (guarded.inside (fun _ => none) fd ?_)
      rw [(sysWriteLogged_outside outside _).1]
      exact List.mem_singleton_self _
    refine ⟨inside, fun h0 => guarded.properFlag fun used => ?_⟩
    simp [sysWriteLogged_used inside h0 used]
  · refine ⟨inside, ?_⟩
    by_cases free : fd = 0 ∨ (t.desc (index fd)).flag = 0
    · rw [sysWriteLogged_free inside free, List.mem_singleton] at ha
      exact Or.inl ha
    · obtain ⟨h0, used⟩ := not_or.mp free
      simp only [sysWriteLogged_used inside h0 used, List.mem_cons, List.not_mem_nil,
        or_false] at ha
      rcases ha with e | e | e
      · exact Or.inl e
      · exact Or.inl e
      · exact Or.inr ⟨e, (proper h0).resolve_left used⟩
  · exact fun outside => absurd inside outside

/-- `sys_close` is guarded, and so is `sys_read` where the flags are what the kernel
makes them; `sys_write` is guarded only for descriptors of the table. -/
theorem descriptor_guards_iff (img : Image) (env : Env) (fd : Word) (buf : Buffer) (n : Word)
    (t : Task) :
    (Guarded fd t (fun around => sysReadLogged around img env fd buf n t) ↔
      (InTable fd → fd ≠ 1 → ProperFlag fd t)) ∧
    (Guarded fd t (fun around => sysWriteLogged around fd buf n t) ↔
      (InTable fd ∧ (fd ≠ 0 → ProperFlag fd t))) ∧
    Guarded fd t (fun around => sysCloseLogged around fd t) := by
  refine ⟨read_guarded_iff img env buf n, write_guarded_iff buf n,
    guarded_of_log (fun around a ha => ?_) fun outside around => ?_⟩
  · obtain ⟨inside, e⟩ := sysCloseLogged_log around ha
    exact ⟨inside, Or.inl e⟩
  · refine ⟨fail t, ?_, rfl⟩
    have range : fd.toInt ≤ 1 ∨ 8 ≤ fd.toInt := by
      simp only [InTable] at outside
      omega
    unfold sysCloseLogged
    rw [if_pos range]
    rfl

/-- Descriptor 8: the flag is read behind the table, from the bytes of `args`. -/
theorem write_reads_behind_table :
    (sysWriteLogged (fun _ => some 0) 8 Buffer.zero 0 Task.fresh).log = [.index 8] ∧
      ¬ Guarded 8 Task.fresh (fun around => sysWriteLogged around 8 Buffer.zero 0 Task.fresh) := by
  refine ⟨by decide, fun guarded => ?_⟩
  have inside := guarded.inside (fun _ => some 0) 8 (by decide)
  revert inside
  decide

end Guards

end LumettaOS.FileCalls
