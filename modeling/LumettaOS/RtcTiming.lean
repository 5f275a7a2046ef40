import LumettaOS.RtcReader

/-! The virtual RTC over whole runs. The counter stays below the limit that the
frequency sets, so after a write of `f` every `1024 / f`-th tick raises the virtual
interrupt. A read takes an interrupt that was raised before it was made for its own. -/

namespace LumettaOS.RtcReader
open Lib.Runs

structure Counting (r : Rtc) : Prop where
  counter_lt : r.counter < r.maxCount
  limit : ∃ j, 1 ≤ j ∧ j ≤ 10 ∧ r.maxCount * 2 ^ j = 1024

section Driver

variable {r : Rtc}

theorem Counting.maxCount_le (h : Counting r) : r.maxCount ≤ 512 := by
  obtain ⟨j, low, -, product⟩ := h.limit
  have two : 2 ^ 1 ≤ 2 ^ j := Nat.pow_le_pow_right (by omega) low
  have bound := Nat.mul_le_mul_left r.maxCount two
  omega

theorem init_counting : Counting Rtc.init :=
  ⟨by decide, 1, le_rfl, by decide, by decide⟩

theorem rtcOpen_counting (h : Counting r) : Counting r.rtcOpen where
  counter_lt := by
    have lower := h.counter_lt
    have upper := h.maxCount_le
    change r.counter < 1024 / 2
    omega
  limit := ⟨1, le_rfl, by decide, rfl⟩

theorem rtcHandler_counting (h : Counting r) : Counting r.rtcHandler := by
  have lower := h.counter_lt
  simp only [Rtc.rtcHandler]
  split
  · refine ⟨?_, h.limit⟩
    change 0 < r.maxCount
    omega
  · refine ⟨?_, h.limit⟩
    change r.counter + 1 < r.maxCount
    omega

theorem raises_eq (r : Rtc) : raises r = decide (r.maxCount ≤ r.counter + 1) := by
  simp only [raises, Rtc.rtcHandler]
  split
  · rename_i due
    exact (decide_eq_true due).symm
  · rename_i early
    exact (decide_eq_false early).symm

theorem rtcHandler_flag (r : Rtc) :
    r.rtcHandler.interruptOccurred = (r.interruptOccurred || raises r) := by
  rw [raises_eq, Rtc.rtcHandler]
  by_cases due : r.maxCount ≤ r.counter + 1
  · simp [due]
  · simp [due]

theorem freq_iff (freq : Word) :
    (2 ≤ freq ∧ freq ≤ 1024 ∧ (freq - 1) &&& freq = 0) ↔
      ∃ j, 1 ≤ j ∧ j ≤ 10 ∧ freq.toNat = 2 ^ j := by
  have test : 2 ≤ freq.toNat → ((freq - 1) &&& freq = 0 ↔ ∃ j, freq.toNat = 2 ^ j) := by
    intro low
    have before : (freq - 1).toNat = freq.toNat - 1 := by
      rw [BitVec.toNat_sub_of_le (by rw [BitVec.le_def]; simp; omega)]
      rfl
    have power := Nat.and_sub_one_eq_zero_iff_isPowerOfTwo (n := freq.toNat) (by omega)
    rw [Nat.isPowerOfTwo, Nat.and_comm, ← before, ← BitVec.toNat_and] at power
    rw [← power]
    exact ⟨fun e => by rw [e]; rfl, fun e => BitVec.eq_of_toNat_eq e⟩
  refine ⟨fun ⟨low, high, zero⟩ => ?_, fun ⟨j, low, high, value⟩ => ?_⟩
  · obtain ⟨j, value⟩ := (test low).mp zero
    refine ⟨j, ?_, ?_, value⟩
    · by_contra small
      have j0 : j = 0 := by omega
      rw [BitVec.le_def, value, j0] at low
      simp at low
    · by_contra large
      have upper : 2 ^ 11 ≤ 2 ^ j := Nat.pow_le_pow_right (by omega) (by omega)
      rw [BitVec.le_def, value] at high
      simp at high
      omega
  · have lower : 2 ^ 1 ≤ 2 ^ j := Nat.pow_le_pow_right (by omega) low
    have upper : 2 ^ j ≤ 2 ^ 10 := Nat.pow_le_pow_right (by omega) high
    refine ⟨?_, ?_, (test (by omega)).mpr ⟨j, value⟩⟩
    · rw [BitVec.le_def, value]
      exact lower
    · rw [BitVec.le_def, value]
      exact upper

theorem rtcWrite_cases (null : Bool) (buf : Memory) (nbytes : Word) (r : Rtc) :
    (r.rtcWrite null buf nbytes = (-1, r) ∧
      ¬ (null = false ∧ nbytes = 4 ∧ ∃ j, 1 ≤ j ∧ j ≤ 10 ∧ (Rtc.freqAt buf).toNat = 2 ^ j)) ∨
    (r.rtcWrite null buf nbytes = (4, { r with
        maxCount := 1024 / (Rtc.freqAt buf).toNat, counter := 0 }) ∧
      null = false ∧ nbytes = 4 ∧ ∃ j, 1 ≤ j ∧ j ≤ 10 ∧ (Rtc.freqAt buf).toNat = 2 ^ j) := by
  rw [Rtc.rtcWrite]
  by_cases refused : null ∨ nbytes ≠ 4
  · refine Or.inl ⟨if_pos refused, fun ⟨given, size, _⟩ => ?_⟩
    rw [given] at refused
    simp [size] at refused
  · have given : null = false := by simpa using fun e => refused (Or.inl e)
    have size : nbytes = 4 := by simpa using fun e => refused (Or.inr e)
    have accepts := freq_iff (Rtc.freqAt buf)
    rw [if_neg refused]
    by_cases valid : ∃ j, 1 ≤ j ∧ j ≤ 10 ∧ (Rtc.freqAt buf).toNat = 2 ^ j
    · refine Or.inr ⟨?_, given, size, valid⟩
      rw [if_neg (not_not.mpr (accepts.mpr valid)), size]
    · exact Or.inl ⟨if_pos fun e => valid (accepts.mp e), fun h => valid h.2.2⟩

theorem period_spec {j : Nat} (high : j ≤ 10) :
    0 < 1024 / 2 ^ j ∧ 1024 / 2 ^ j * 2 ^ j = 1024 := by
  have divides : 2 ^ j ∣ 2 ^ 10 := pow_dvd_pow 2 high
  exact ⟨Nat.div_pos (Nat.le_of_dvd (by decide) divides) (by positivity),
    Nat.div_mul_cancel divides⟩

theorem rtcWrite_counting (h : Counting r) (null : Bool) (buf : Memory) (nbytes : Word) :
    Counting (r.rtcWrite null buf nbytes).2 := by
  rcases rtcWrite_cases null buf nbytes r with ⟨he, -⟩ | ⟨he, -, -, j, low, high, value⟩
  · rw [he]
    exact h
  · obtain ⟨pos, whole⟩ := period_spec high
    rw [he, value]
    exact ⟨pos, j, low, high, whole⟩

end Driver

section Rate

variable {s s' : Session} {m base t : Nat}

theorem act_counting {a : Act} (h : Counting s.rtc) (ha : act a s = some s') :
    Counting s'.rtc := by
  cases a with
  | tick =>
    rw [act, Option.some_inj] at ha
    rw [← ha]
    exact rtcHandler_counting h
  | «open» =>
    rw [act, Option.ite_none_right_eq_some, Option.some_inj] at ha
    rw [← ha.2]
    exact rtcOpen_counting h
  | write null buf nbytes =>
    rw [act, Option.ite_none_right_eq_some, Option.some_inj] at ha
    rw [← ha.2]
    exact rtcWrite_counting h null buf nbytes
  | read null =>
    rw [act, Option.ite_none_right_eq_some, Option.some_inj] at ha
    rw [← ha.2]
    cases null <;> exact h
  | step =>
    rw [act, advance] at ha
    split at ha
    · simp at ha
    · rw [← Option.some_inj.mp ha]
      exact h
    · rw [← Option.some_inj.mp ha]
      exact ⟨h.counter_lt, h.limit⟩

/-- `t` ticks after the counter was reset, with a limit of `m`. -/
structure Paced (m base t : Nat) (s : Session) : Prop where
  limit : s.rtc.maxCount = m
  counter : s.rtc.counter = t % m
  raised : s.raised = base + t / m

theorem Paced.raises_iff (pos : 0 < m) (h : Paced m base t s) :
    raises s.rtc = true ↔ m ∣ t + 1 := by
  have below := Nat.mod_lt t pos
  have parts := Nat.div_add_mod t m
  simp only [raises_eq, decide_eq_true_eq, h.limit, h.counter]
  refine ⟨fun full => ⟨t / m + 1, ?_⟩, fun ⟨q, hq⟩ => ?_⟩
  · rw [Nat.mul_add, Nat.mul_one]
    omega
  · by_contra early
    have last : (t + 1) % m = t % m + 1 := by
      rw [Nat.add_mod, Nat.mod_eq_of_lt (a := 1) (by omega), Nat.mod_eq_of_lt (by omega)]
    rw [hq, Nat.mul_mod_right] at last
    omega

theorem Paced.tick (pos : 0 < m) (h : Paced m base t s) (ha : act .tick s = some s') :
    Paced m base (t + 1) s' := by
  have iff := h.raises_iff pos
  have count := Nat.succ_div (a := t) (b := m)
  rw [act, Option.some_inj] at ha
  rw [← ha]
  by_cases full : m ∣ t + 1
  · have due := iff.mpr full
    rw [if_pos full] at count
    have reached : s.rtc.maxCount ≤ s.rtc.counter + 1 := by simpa [raises_eq] using due
    refine ⟨?_, ?_, ?_⟩
    · simp only [Rtc.rtcHandler, if_pos reached]
      exact h.limit
    · simp only [Rtc.rtcHandler, if_pos reached]
      rw [Nat.mod_eq_zero_of_dvd full]
    · simp only [due, if_true, h.raised, count]
      omega
  · have open_ : ¬ s.rtc.maxCount ≤ s.rtc.counter + 1 := by
      simpa [raises_eq] using fun e => full (iff.mp e)
    have early : raises s.rtc = false := by simpa [raises_eq] using open_
    rw [if_neg full] at count
    refine ⟨?_, ?_, ?_⟩
    · simp only [Rtc.rtcHandler, if_neg open_]
      exact h.limit
    · simp only [Rtc.rtcHandler, if_neg open_]
      have below : t % m + 1 < m := by
        have limit := h.limit
        have counter := h.counter
        omega
      rw [h.counter, Nat.add_mod, Nat.mod_eq_of_lt (a := 1) (by omega), Nat.mod_eq_of_lt below]
    · simp only [early, Bool.false_eq_true, if_false, h.raised, count]
      omega

theorem Paced.act {a : Act} (pos : 0 < m) (h : Paced m base t s) (keeps : a.Keeps)
    (ha : act a s = some s') : Paced m base (t + ticksOf [a]) s' := by
  cases a with
  | tick => exact h.tick pos ha
  | «open» => exact keeps.elim
  | write null buf nbytes => exact keeps.elim
  | read null =>
    rw [RtcReader.act, Option.ite_none_right_eq_some, Option.some_inj] at ha
    rw [← ha.2]
    cases null <;> exact ⟨h.limit, h.counter, h.raised⟩
  | step =>
    rw [RtcReader.act, advance] at ha
    split at ha
    · simp at ha
    · rw [← Option.some_inj.mp ha]
      exact ⟨h.limit, h.counter, h.raised⟩
    · rw [← Option.some_inj.mp ha]
      exact ⟨h.limit, h.counter, h.raised⟩

theorem Paced.run {acts : List Act} (pos : 0 < m) (h : Paced m base t s)
    (keeps : ∀ a ∈ acts, a.Keeps) (hrun : run RtcReader.act acts s = some s') :
    Paced m base (t + ticksOf acts) s' := by
  induction acts generalizing s t with
  | nil =>
    rw [run_nil, Option.some_inj] at hrun
    exact hrun ▸ h
  | cons a acts ih =>
    obtain ⟨s₁, hs, hrest⟩ := run_cons_some hrun
    have first := h.act pos (keeps a (by simp)) hs
    have rest := ih first (fun b hb => keeps b (by simp [hb])) hrest
    have split : ticksOf (a :: acts) = ticksOf [a] + ticksOf acts := by
      rw [ticksOf, ← List.singleton_append, List.countP_append]
      rfl
    rw [split, ← Nat.add_assoc]
    exact rest

theorem write_paced {null : Bool} {buf : Memory} {nbytes : Word}
    (accepted : (s.rtc.rtcWrite null buf nbytes).1 = 4)
    (hw : act (.write null buf nbytes) s = some s') :
    ∃ j, j ≤ 10 ∧ (Rtc.freqAt buf).toNat = 2 ^ j ∧ Paced (1024 / 2 ^ j) s.raised 0 s' := by
  rcases rtcWrite_cases null buf nbytes s.rtc with ⟨he, -⟩ | ⟨he, -, -, j, -, high, value⟩
  · have differ : (-1 : Word) ≠ 4 := by decide
    rw [he] at accepted
    exact absurd accepted differ
  · rw [act, Option.ite_none_right_eq_some, Option.some_inj, he, value] at hw
    rw [← hw.2]
    exact ⟨j, high, value, rfl, (Nat.zero_mod _).symm, by simp⟩

/-- The virtual RTC from `rtc_init` on, after any calls and ticks: the counter and the
limit are in range, `rtc_write` accepts exactly the powers of two from 2 to 1024 and
otherwise changes nothing, and after it accepted `f` the ticks that set the flag are the
multiples of `1024 / f`; the others leave it as it is. -/
theorem virtual_rate {acts : List Act} (hrun : run RtcReader.act acts (start Rtc.init) = some s) :
    s.rtc.counter < s.rtc.maxCount ∧ s.rtc.maxCount ≤ 512 ∧
    (∃ j, 1 ≤ j ∧ j ≤ 10 ∧ s.rtc.maxCount * 2 ^ j = 1024) ∧
    (∀ null buf nbytes, (s.rtc.rtcWrite null buf nbytes).1 = -1 →
      (s.rtc.rtcWrite null buf nbytes).2 = s.rtc) ∧
    (∀ buf nbytes, (s.rtc.rtcWrite false buf nbytes).1 = 4 ↔
      nbytes = 4 ∧ ∃ j, 1 ≤ j ∧ j ≤ 10 ∧ (Rtc.freqAt buf).toNat = 2 ^ j) ∧
    ∀ null buf nbytes s₁, (s.rtc.rtcWrite null buf nbytes).1 = 4 →
      RtcReader.act (.write null buf nbytes) s = some s₁ →
      ∀ later s₂, (∀ a ∈ later, a.Keeps) → run RtcReader.act later s₁ = some s₂ →
        s₂.raised = s.raised + ticksOf later * (Rtc.freqAt buf).toNat / 1024 ∧
        (raises s₂.rtc = true ↔ 1024 / (Rtc.freqAt buf).toNat ∣ ticksOf later + 1) ∧
        (1024 / (Rtc.freqAt buf).toNat ∣ ticksOf later + 1 →
          s₂.rtc.rtcHandler.interruptOccurred = true) ∧
        (¬ 1024 / (Rtc.freqAt buf).toNat ∣ ticksOf later + 1 →
          s₂.rtc.rtcHandler.interruptOccurred = s₂.rtc.interruptOccurred) := by
  have counting : Counting s.rtc :=
    invariant (I := fun s => Counting s.rtc) (fun _ _ _ h ha => act_counting h ha) hrun
      init_counting
  have differ : (4 : Word) ≠ -1 := by decide
  refine ⟨counting.counter_lt, counting.maxCount_le, counting.limit, fun null buf nbytes h => ?_,
    fun buf nbytes => ?_, fun null buf nbytes s₁ h hw later s₂ keeps hlater => ?_⟩
  · rcases rtcWrite_cases null buf nbytes s.rtc with ⟨he, -⟩ | ⟨he, -⟩
    · rw [he]
    · rw [he] at h
      exact absurd h differ
  · rcases rtcWrite_cases false buf nbytes s.rtc with ⟨he, refused⟩ | ⟨he, -, accepted⟩
    · rw [he]
      exact iff_of_false differ.symm fun h => refused ⟨rfl, h⟩
    · rw [he]
      exact iff_of_true rfl accepted
  · obtain ⟨j, high, value, first⟩ := write_paced h hw
    obtain ⟨pos, whole⟩ := period_spec high
    have paced := first.run pos keeps hlater
    rw [Nat.zero_add] at paced
    have due := paced.raises_iff pos
    rw [value, rtcHandler_flag]
    refine ⟨?_, due, fun full => ?_, fun early => ?_⟩
    · rw [paced.raised]
      nth_rewrite 2 [← whole]
      rw [Nat.mul_div_mul_right _ _ (by positivity)]
    · rw [due.mpr full, Bool.or_true]
    · have quiet : raises s₂.rtc = false := Bool.eq_false_iff.mpr (mt due.mp early)
      rw [quiet, Bool.or_false]

def half : Memory := fun i => if i = 1 then 2 else 0

theorem virtual_rate_sample :
    ∃ s s₁ s₂, run RtcReader.act [.tick, .open] (start Rtc.init) = some s ∧
      RtcReader.act (.write false half 4) s = some s₁ ∧
      run RtcReader.act (List.replicate 5 .tick) s₁ = some s₂ ∧ s₂.raised = s.raised + 2 := by
  refine ⟨_, _, _, rfl, rfl, rfl, ?_⟩
  have keeps : ∀ a ∈ List.replicate 5 Act.tick, a.Keeps := fun a ha => by
    rw [List.eq_of_mem_replicate ha]
    trivial
  have reached : run RtcReader.act [.tick, .open] (start Rtc.init) = some _ := rfl
  exact ((virtual_rate reached).2.2.2.2.2 false half 4 _ (by decide) rfl _ _ keeps rfl).1

end Rate

section Waiting

variable {s s' : Session}

/-- Every finished read has an interrupt of its own, and so has the current one
before it leaves its loop. -/
structure Apart (s : Session) : Prop where
  own : ∀ p ∈ s.log, p.1 < p.2
  order : s.log.Pairwise fun p q => p.2 ≤ q.1
  past : ∀ p ∈ s.log, p.2 ≤ s.raised ∧ (s.phase ≠ .idle → p.2 ≤ s.entered)
  entered : s.phase ≠ .idle → s.entered ≤ s.raised
  waiting : s.phase = .waiting → s.rtc.interruptOccurred = true → s.entered < s.raised
  leaving : s.phase = .leaving → s.entered < s.raised

theorem start_apart (r : Rtc) : Apart (start r) where
  own p hp := by simp [start] at hp
  order := List.Pairwise.nil
  past p hp := by simp [start] at hp
  entered h := absurd rfl h
  waiting h := by simp [start] at h
  leaving h := by simp [start] at h

theorem Apart.tick (h : Apart s) (ha : act .tick s = some s') : Apart s' := by
  rw [act, Option.some_inj] at ha
  rw [← ha]
  refine ⟨h.own, h.order, fun p hp => ?_, fun away => ?_, fun hw flag => ?_, fun hl => ?_⟩
  · have bounds := h.past p hp
    exact ⟨Nat.le_add_right_of_le bounds.1, bounds.2⟩
  · exact Nat.le_add_right_of_le (h.entered away)
  · rw [rtcHandler_flag, Bool.or_eq_true] at flag
    rcases flag with flag | due
    · exact Nat.lt_add_right _ (h.waiting hw flag)
    · have before := h.entered (by rw [show s.phase = .waiting from hw]; decide)
      simp only [due, if_true]
      omega
  · exact Nat.lt_add_right _ (h.leaving hl)

theorem Apart.idle (h : Apart s) (hp : s.phase = .idle) (r : Rtc) :
    Apart { s with rtc := r } where
  own := h.own
  order := h.order
  past := h.past
  entered := h.entered
  waiting hw := by simp [hp] at hw
  leaving := h.leaving

theorem Apart.enter (h : Apart s) (flag : s.rtc.interruptOccurred = false) :
    Apart { s with phase := .waiting, entered := s.raised } where
  own := h.own
  order := h.order
  past p hp := ⟨(h.past p hp).1, fun _ => (h.past p hp).1⟩
  entered _ := le_rfl
  waiting _ up := by simp [flag] at up
  leaving hl := by simp at hl

theorem Apart.advance (h : Apart s) (ha : advance s = some s') : Apart s' := by
  cases hp : s.phase with
  | idle => simp [RtcReader.advance, hp] at ha
  | waiting =>
    have away : s.phase ≠ .idle := by simp [hp]
    simp only [RtcReader.advance, hp, Option.some_inj] at ha
    rw [← ha]
    cases flag : s.rtc.interruptOccurred with
    | false =>
      refine ⟨h.own, h.order, fun p hp => ⟨(h.past p hp).1, fun _ => (h.past p hp).2 away⟩,
        fun _ => h.entered away, fun _ up => ?_, fun hl => ?_⟩
      · exact h.waiting hp up
      · simp at hl
    | true =>
      refine ⟨h.own, h.order, fun p hp => ⟨(h.past p hp).1, fun _ => (h.past p hp).2 away⟩,
        fun _ => h.entered away, fun hw => ?_, fun _ => ?_⟩
      · simp at hw
      · exact h.waiting hp flag
  | leaving =>
    have away : s.phase ≠ .idle := by simp [hp]
    have own := h.leaving hp
    simp only [RtcReader.advance, hp, Option.some_inj] at ha
    rw [← ha]
    refine ⟨fun p hp => ?_, ?_, fun p hp => ?_, fun hi => absurd rfl hi, fun hw => ?_, fun hl => ?_⟩
    · rcases List.mem_append.mp hp with old | new
      · exact h.own p old
      · rw [List.mem_singleton.mp new]
        exact own
    · refine List.pairwise_append.mpr ⟨h.order, List.pairwise_singleton _ _, fun p hp q hq => ?_⟩
      rw [List.mem_singleton.mp hq]
      exact (h.past p hp).2 away
    · refine ⟨?_, fun hi => absurd rfl hi⟩
      rcases List.mem_append.mp hp with old | new
      · exact (h.past p old).1
      · rw [List.mem_singleton.mp new]
    · simp at hw
    · simp at hl

theorem act_apart (a : Act) (s s' : Session) (h : Apart s) (fresh : Fresh a s)
    (ha : act a s = some s') : Apart s' := by
  cases a with
  | tick => exact h.tick ha
  | «open» =>
    rw [act, Option.ite_none_right_eq_some, Option.some_inj] at ha
    exact ha.2 ▸ h.idle ha.1 _
  | write null buf nbytes =>
    rw [act, Option.ite_none_right_eq_some, Option.some_inj] at ha
    exact ha.2 ▸ h.idle ha.1 _
  | read null =>
    rw [act, Option.ite_none_right_eq_some, Option.some_inj] at ha
    rw [← ha.2]
    cases null with
    | true => exact h
    | false => exact h.enter (fresh rfl)
  | step => exact h.advance ha

theorem Apart.span (h : Apart s) {i k : Nat} {p q : Nat × Nat} (hi : s.log[i]? = some p)
    (hk : s.log[i + k]? = some q) : p.1 + (k + 1) ≤ q.2 := by
  induction k generalizing q with
  | zero =>
    rw [Nat.add_zero, hi, Option.some_inj] at hk
    rw [← hk]
    exact h.own p (List.mem_of_getElem? hi)
  | succ k ih =>
    obtain ⟨later, value⟩ := List.getElem?_eq_some_iff.mp hk
    have before : i + k < s.log.length := by omega
    have reached := ih (List.getElem?_eq_getElem before)
    have apart := List.pairwise_iff_getElem.mp h.order (i + k) (i + (k + 1)) before later (by omega)
    rw [value] at apart
    have own := h.own q (List.mem_of_getElem? hk)
    omega

/-- In a run whose reads all start with the flag down, every read ends behind an
interrupt raised since its start, and `k + 1` reads in a row span that many. A read
that finds the flag up ends without any tick. -/
theorem reads_span_interrupts {r : Rtc} {acts : List Act}
    (fresh : Along act Fresh acts (start r)) (hrun : run act acts (start r) = some s) :
    (∀ p ∈ s.log, p.1 < p.2) ∧
    (∀ i k p q, s.log[i]? = some p → s.log[i + k]? = some q → p.1 + (k + 1) ≤ q.2) ∧
    (s.phase = .idle → s.rtc.interruptOccurred = true →
      ∃ s', run act [.read false, .step, .step] s = some s' ∧
        s'.log = s.log ++ [(s.raised, s.raised)]) := by
  have h := invariant_along act_apart fresh hrun (start_apart r)
  refine ⟨h.own, fun i k p q hi hk => h.span hi hk, fun idle flag => ?_⟩
  refine ⟨⟨{ s.rtc with interruptOccurred := false }, .idle, s.raised, s.raised,
    s.log ++ [(s.raised, s.raised)]⟩, ?_, rfl⟩
  simp [run, act, advance, idle, flag]

def oneByOne : List Act :=
  [.read false, .step, .tick, .step, .step, .read false, .tick, .step, .step]

theorem reads_span_interrupts_sample :
    ∃ s, run act oneByOne (start ⟨false, 0, 1⟩) = some s ∧ s.log.length = 2 ∧
      ∀ p ∈ s.log, p.1 < p.2 := by
  have fresh : Along act Fresh oneByOne (start ⟨false, 0, 1⟩) :=
    along_cons (fun _ => rfl) rfl (along_cons trivial rfl (along_cons trivial rfl
      (along_cons trivial rfl (along_cons trivial rfl (along_cons (fun _ => rfl) rfl
        (along_cons trivial rfl (along_cons trivial rfl (along_cons trivial rfl trivial))))))))
  exact ⟨_, rfl, rfl, (reads_span_interrupts fresh rfl).1⟩

def full : Memory := fun i => if i = 1 then 4 else 0

/-- The tick comes before the read, which takes it for its own and returns. -/
theorem stale_tick_ends_read :
    ∃ s, run act [.write false full 4, .tick, .read false, .step, .step] (start Rtc.init) = some s ∧
      s.log = [(1, 1)] ∧ ¬ ∀ p ∈ s.log, p.1 < p.2 := by
  refine ⟨_, rfl, rfl, fun h => ?_⟩
  have own := h (1, 1) (by decide)
  exact absurd own (by decide)

end Waiting

end LumettaOS.RtcReader
