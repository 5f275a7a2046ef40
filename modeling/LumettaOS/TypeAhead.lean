import LumettaOS.Lines

/-! Schedules of keys and reads. Every read that was issued ends once its line is
there, and two schedules of the same keys give the same reads, as long as no key
edits a line that waits. A key that does can overwrite it. -/

namespace LumettaOS.Reader
open Lib.Runs Keyboard Terminal

section Enter

variable {k : Keyboard}

theorem handler_enterpress (scancode : Byte) (flag : k.enterpress = false) :
    (k.handler scancode).enterpress = true ↔ scancode = 0x1C := by
  rw [← typedChar_enter k.keyStatus]
  cases ht : typedChar k.keyStatus scancode with
  | none =>
    rw [handler_none ht]
    simp [flag]
  | some c =>
    rw [handler_some ht, Option.some_inj]
    by_cases e : c = 0x0A
    · exact iff_of_true (e ▸ typed_enter k) e
    · rw [typed_other e, store_enterpress, erase_enterpress, flag]
      exact iff_of_false (by decide) e

theorem length_typeKeys (scancodes : List Byte) {p : Keyboard × List Line}
    (flag : p.1.enterpress = false) :
    (scancodes.foldl typeKey p).2.length = p.2.length + scancodes.count 0x1C := by
  induction scancodes generalizing p with
  | nil => simp
  | cons scancode scancodes ih =>
    rw [List.foldl_cons, typeKey]
    by_cases enter : scancode = 0x1C
    · have complete := (handler_enterpress scancode flag).mpr enter
      rw [if_pos complete, ih rfl, enter, List.count_cons_self, List.length_append,
        List.length_singleton]
      omega
    · have open_ : (p.1.handler scancode).enterpress = false := by
        have no := mt (handler_enterpress scancode flag).mp enter
        simpa using no
      rw [if_neg (by simp [open_]), List.count_cons_of_ne enter]
      exact ih (p := (p.1.handler scancode, p.2)) open_

end Enter

section Completion

variable {s s' : Session} {p : Keyboard × List Line} {k : Keyboard}

def Busy (s : Session) : Prop :=
  s.phase ≠ .idle ∧ (s.phase = .waiting → s.keyboard.enterpress = true)

/-- A bound on the accesses that the read still makes. -/
def Phase.left : Phase → Nat
  | .idle => 0
  | .waiting => 520
  | .scanning i => 519 - i
  | .copying n done => 2 * (n - done.length) + 132
  | .padding n done => n - done.length + 131
  | .clearing _ _ j => 130 - j
  | .leaving _ _ => 1

theorem advance_left (t : Progress s.keyboard s.phase) (busy : Busy s) :
    ∃ s', advance s = some s' ∧
      ((s'.phase = .idle ∧ s'.log.length = s.log.length + 1) ∨
        (Busy s' ∧ s'.log = s.log ∧ s'.phase.left < s.phase.left)) := by
  cases hp : s.phase with
  | idle => exact absurd hp busy.1
  | waiting =>
    simp only [advance, hp, busy.2 hp, if_true]
    exact ⟨_, rfl, Or.inr ⟨⟨by simp, by simp⟩, rfl, by simp [Phase.left]⟩⟩
  | scanning i =>
    rw [hp] at t
    have bound := t.2.1
    simp only [advance, hp]
    split
    · refine ⟨_, rfl, Or.inr ⟨⟨by simp, by simp⟩, rfl, ?_⟩⟩
      simp only [Phase.left]
      omega
    · refine ⟨_, rfl, Or.inr ⟨⟨by simp, by simp⟩, rfl, ?_⟩⟩
      simp only [Phase.left, List.length_nil]
      omega
  | copying n done =>
    simp only [advance, hp]
    split
    · refine ⟨_, rfl, Or.inr ⟨⟨by simp, by simp⟩, rfl, ?_⟩⟩
      simp only [Phase.left, List.length_append, List.length_singleton]
      omega
    · refine ⟨_, rfl, Or.inr ⟨⟨by simp, by simp⟩, rfl, ?_⟩⟩
      simp only [Phase.left]
      omega
  | padding n done =>
    simp only [advance, hp]
    split
    · refine ⟨_, rfl, Or.inr ⟨⟨by simp, by simp⟩, rfl, ?_⟩⟩
      simp only [Phase.left, List.length_append, List.length_singleton]
      omega
    · refine ⟨_, rfl, Or.inr ⟨⟨by simp, by simp⟩, rfl, ?_⟩⟩
      simp only [Phase.left]
      omega
  | clearing n done j =>
    rw [hp] at t
    have bound := t.2
    simp only [advance, hp]
    split
    · refine ⟨_, rfl, Or.inr ⟨⟨by simp, by simp⟩, rfl, ?_⟩⟩
      simp only [Phase.left]
      omega
    · refine ⟨_, rfl, Or.inr ⟨⟨by simp, by simp⟩, rfl, ?_⟩⟩
      simp only [Phase.left]
      omega
  | leaving n done =>
    simp only [advance, hp]
    exact ⟨_, rfl, Or.inl ⟨rfl, by simp⟩⟩

theorem Tracks.finishes (t : Tracks s p) (busy : Busy s) :
    ∃ N s', Lib.Runs.run act (List.replicate N .step) s = some s' ∧ Tracks s' p ∧
      s'.phase = .idle ∧ s'.log.length = s.log.length + 1 := by
  induction hl : s.phase.left using Nat.strong_induction_on generalizing s with
  | _ l ih =>
    obtain ⟨s₁, hs, ⟨idle, done⟩ | ⟨busy₁, same, less⟩⟩ := advance_left t.progress busy
    · refine ⟨1, s₁, ?_, t.advance hs, idle, done⟩
      rw [List.replicate_one, run_cons, act, hs]
      rfl
    · obtain ⟨N, s', hrun, t', idle, done⟩ := ih _ (hl ▸ less) (t.advance hs) busy₁ rfl
      refine ⟨N + 1, s', ?_, t', idle, by rw [done, same]⟩
      rw [List.replicate_succ, run_cons, act, hs]
      exact hrun

theorem run_takeLine (flag : k.enterpress = true) (log : List Line) :
    ∃ N, run act (List.replicate N .step) ⟨k, .waiting, log⟩ =
      some ⟨consume k, .idle, log ++ [takeLine k]⟩ := by
  have start : Tracks ⟨k, .waiting, log⟩ (finish 0 k, log ++ [takeLine k]) :=
    ⟨fun h => absurd (h.symm.trans flag) (by decide),
      fun _ => by simp [Phase.cleared, Phase.results, Phase.owed], trivial⟩
  obtain ⟨N, ⟨k', ph, log'⟩, hrun, t, idle, done⟩ := start.finishes ⟨by simp, fun _ => flag⟩
  refine ⟨N, hrun.trans ?_⟩
  have idle : ph = .idle := idle
  subst idle
  cases flag' : k'.enterpress with
  | true =>
    have lines := congrArg (fun p => p.2.length) (t.pending flag')
    simp [Phase.results, Phase.owed] at lines done
    omega
  | false =>
    have lines := t.settled flag'
    simp only [Phase.results, List.append_nil, Prod.mk.injEq] at lines
    rw [← lines.1, ← lines.2, finish_zero]

theorem run_await {keys : List Byte} {c c' : Console} {k' : Keyboard} (log : List Line)
    (h : await keys k c = some (k', c')) :
    k'.enterpress = true ∧
      ∃ acts, run act acts ⟨k, .waiting, log⟩ = some ⟨k', .waiting, log⟩ := by
  induction keys generalizing k c with
  | nil =>
    rw [await] at h
    split at h
    · rename_i flag
      rw [Option.some_inj, Prod.mk.injEq] at h
      exact ⟨h.1 ▸ flag, [], by rw [h.1, run_nil]⟩
    · simp at h
  | cons key keys ih =>
    rw [await] at h
    split at h
    · rename_i flag
      rw [Option.some_inj, Prod.mk.injEq] at h
      exact ⟨h.1 ▸ flag, [], by rw [h.1, run_nil]⟩
    · obtain ⟨flag, acts, hrun⟩ := ih h
      exact ⟨flag, .key key :: acts, hrun⟩

/-- The read that `sys_read` makes is one schedule of this session. -/
theorem run_terminalRead {keys : List Byte} {c : Console} {r : ReadResult}
    (h : terminalRead false keys k c = some r) :
    ∃ acts, run act (.read :: acts) (start k) = some ⟨r.keyboard, .idle, [(r.ret, r.stored)]⟩ := by
  simp only [terminalRead, Bool.false_eq_true, if_false, Option.map_eq_some_iff] at h
  obtain ⟨⟨k', c'⟩, waited, rfl⟩ := h
  obtain ⟨flag, acts, hrun⟩ := run_await [] waited
  obtain ⟨N, taken⟩ := run_takeLine flag []
  refine ⟨acts ++ List.replicate N .step, ?_⟩
  change run act (acts ++ List.replicate N .step) ⟨k, .waiting, []⟩ = _
  rw [run_append, hrun]
  exact taken

def issued (s : Session) : Nat := s.log.length + if s.phase = .idle then 0 else 1

theorem advance_issued (h : advance s = some s') : issued s' = issued s := by
  cases hp : s.phase with
  | idle => simp [advance, hp] at h
  | waiting =>
    simp only [advance, hp, Option.some_inj] at h
    subst h
    cases s.keyboard.enterpress <;> simp [issued, hp]
  | leaving n done =>
    simp only [advance, hp, Option.some_inj] at h
    subst h
    simp [issued, hp]
  | _ =>
    simp only [advance, hp] at h
    split at h <;> rw [← Option.some_inj.mp h] <;> simp [issued, hp]

theorem act_issued {a : Act} (h : act a s = some s') :
    issued s' = issued s + [a].count .read := by
  cases a with
  | key scancode =>
    rw [act, Option.some_inj] at h
    rw [← h]
    simp [issued]
  | read =>
    rw [act, Option.ite_none_right_eq_some, Option.some_inj] at h
    rw [← h.2]
    simp [issued, h.1]
  | step =>
    have same : issued s' = issued s := advance_issued h
    simpa using same

theorem run_issued {acts : List Act} (h : run act acts s = some s') :
    issued s' = issued s + readsOf acts := by
  induction acts generalizing s with
  | nil =>
    rw [run_nil, Option.some_inj] at h
    simp [h, readsOf]
  | cons a acts ih =>
    obtain ⟨s₁, hs, hrest⟩ := run_cons_some h
    have first := act_issued hs
    have later := ih hrest
    have split : (a :: acts).count .read = [a].count .read + acts.count .read :=
      (List.count_append : ([a] ++ acts).count .read = _)
    rw [readsOf] at later ⊢
    omega

theorem Tracks.completes (t : Tracks s p) (enough : issued s ≤ p.2.length) :
    ∃ N s', Lib.Runs.run act (List.replicate N .step) s = some s' ∧
      s'.log = p.2.take (issued s) := by
  by_cases idle : s.phase = .idle
  · have all : issued s = s.log.length := by simp [issued, idle]
    exact ⟨0, s, rfl, by rw [all]; exact t.log_eq⟩
  · have one : issued s = s.log.length + 1 := by simp [issued, idle]
    have busy : Busy s := by
      refine ⟨idle, fun hp => ?_⟩
      by_contra flag
      rw [t.settled (by simpa using flag), hp, one] at enough
      simp [Phase.results] at enough
    obtain ⟨N, s', hrun, t', -, done⟩ := t.finishes busy
    refine ⟨N, s', hrun, ?_⟩
    rw [one, ← done]
    exact t'.log_eq

/-- Two schedules of the same keys, each with `m` reads and at least `m` Enter keys,
neither of which edits a line that waits: with the accesses they still need, both
finish all their reads, and the reads gave the same. -/
theorem timing_independent (flag : k.enterpress = false) {acts acts' : List Act} {m : Nat}
    (same : keysOf acts' = keysOf acts) (enough : m ≤ (keysOf acts).count 0x1C)
    (reads : readsOf acts = m) (reads' : readsOf acts' = m)
    (orderly : Along act Orderly acts (start k)) (orderly' : Along act Orderly acts' (start k))
    (h : run act acts (start k) = some s) (h' : run act acts' (start k) = some s') :
    ∃ N N' t t', run act (List.replicate N .step) s = some t ∧
      run act (List.replicate N' .step) s' = some t' ∧ t.log.length = m ∧ t'.log = t.log := by
  have tracks := (start_tracks flag).run orderly h
  have tracks' := (start_tracks flag).run orderly' h'
  have count := length_typeKeys (p := (k, [])) (keysOf acts) flag
  have all : issued s = m := by
    rw [run_issued h, reads]
    simp [issued, start]
  have all' : issued s' = m := by
    rw [run_issued h', reads']
    simp [issued, start]
  rw [same] at tracks'
  obtain ⟨N, t, hrun, log⟩ := tracks.completes (by rw [all, count]; simpa using enough)
  obtain ⟨N', t', hrun', log'⟩ := tracks'.completes (by rw [all', count]; simpa using enough)
  refine ⟨N, N', t, t', hrun, hrun', ?_, ?_⟩
  · rw [log, all, List.length_take, count]
    simpa using enough
  · rw [log, log', all, all']

theorem timing_independent_sample :
    ∃ s s', run act [.key 0x1E, .key 0x1C, .read] (start Keyboard.init) = some s ∧
      run act [.read, .key 0x1E, .key 0x1C] (start Keyboard.init) = some s' ∧
      ∃ N N' t t', run act (List.replicate N .step) s = some t ∧
        run act (List.replicate N' .step) s' = some t' ∧ t.log.length = 1 ∧ t'.log = t.log := by
  have early : Along act Orderly [.key 0x1E, .key 0x1C, .read] (start Keyboard.init) :=
    along_cons (fun e => absurd e (by decide)) rfl
      (along_cons (fun e => absurd e (by decide)) rfl (along_cons trivial rfl trivial))
  have late : Along act Orderly [.read, .key 0x1E, .key 0x1C] (start Keyboard.init) :=
    along_cons trivial rfl (along_cons (fun e => absurd e (by decide)) rfl
      (along_cons (fun e => absurd e (by decide)) rfl trivial))
  have same : keysOf [.read, .key 0x1E, .key 0x1C] = keysOf [.key 0x1E, .key 0x1C, .read] := rfl
  exact ⟨_, _, rfl, rfl, timing_independent rfl same (by decide) rfl rfl early late rfl rfl⟩

def typedInTime : List Act :=
  [.read, .key 0x1E, .key 0x1C] ++ List.replicate 137 .step ++ [.key 0x30]

def typedAhead : List Act :=
  [.key 0x1E, .key 0x1C, .key 0x30, .read] ++ List.replicate 137 .step

/-- The key behind Enter overwrites the line that waits: the read gives `b`. -/
theorem type_ahead_overwrites :
    keysOf typedAhead = keysOf typedInTime ∧ (keysOf typedInTime).count 0x1C = 1 ∧
      readsOf typedInTime = 1 ∧ readsOf typedAhead = 1 ∧
      ∃ s s', run act typedInTime (start Keyboard.init) = some s ∧
        run act typedAhead (start Keyboard.init) = some s' ∧
        s.log = [(2, [0x61, 0x0A])] ∧ s'.log = [(2, [0x62, 0x0A])] := by
  refine ⟨by decide +kernel, by decide +kernel, by decide +kernel, by decide +kernel, ?_⟩
  have inTime : (run act typedInTime (start Keyboard.init)).map Session.log =
      some [(2, [0x61, 0x0A])] := by decide +kernel
  have ahead : (run act typedAhead (start Keyboard.init)).map Session.log =
      some [(2, [0x62, 0x0A])] := by decide +kernel
  obtain ⟨s, hs, log⟩ := Option.map_eq_some_iff.mp inTime
  obtain ⟨s', hs', log'⟩ := Option.map_eq_some_iff.mp ahead
  exact ⟨s, s', hs, hs', log, log'⟩

end Completion

end LumettaOS.Reader
