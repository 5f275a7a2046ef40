import LumettaOS.ReadSafety

/-! Reading a regular file through a descriptor. Whatever other calls the process
makes in between, the reads on one descriptor deliver the file from its first
byte on, cut where the counts cut it. -/

namespace LumettaOS.FileCalls
open Lib.Runs

structure Stream where
  asked : Nat
  delivered : List Byte

def Stream.note (fd : Word) (stored : List Byte) (s : Stream) : FileCall → Stream
  | .read fd' _ n =>
    if fd' = fd then ⟨s.asked + n.toNat, s.delivered ++ stored⟩ else s
  | _ => s

def streamStep (img : Image) (fd : Word) (e : Env × FileCall) (s : Task × Stream) :
    Option (Task × Stream) :=
  (perform img e.1 e.2 s.1).map fun r => (r.task, s.2.note fd r.stored e.2)

def KeepsOpen (fd : Word) : FileCall → Prop
  | .read _ _ n => 0 ≤ n.toInt
  | .close fd' => fd' ≠ fd
  | _ => True

def Addresses (fd : Word) : FileCall → Prop
  | .close fd' => fd' = fd
  | .read fd' _ _ => fd' = fd
  | _ => False

theorem Addresses.cases {fd : Word} {c : FileCall} (h : Addresses fd c) :
    c = .close fd ∨ ∃ buf n, c = .read fd buf n := by
  cases c with
  | «open» name => exact h.elim
  | close fd' => exact Or.inl (congrArg FileCall.close h)
  | read fd' buf n => exact Or.inr ⟨buf, n, congrArg (fun fd => FileCall.read fd buf n) h⟩
  | write fd' buf n => exact h.elim

theorem index_ne {fd fd' : Word} (h : fd.toNat < 8) (h' : fd'.toNat < 8) (hne : fd' ≠ fd) :
    index fd ≠ index fd' := by
  intro e
  have values := congrArg Fin.val e
  rw [index_val h, index_val h'] at values
  exact hne (BitVec.eq_of_toNat_eq values.symm)

theorem perform_desc_other {img : Image} {env : Env} {c : FileCall} {t : Task} {r : CallResult}
    {fd : Word} (h : perform img env c t = some r) (h8 : fd.toNat < 8)
    (hopen : (t.desc (index fd)).flag ≠ 0) (hc : ¬ Addresses fd c) :
    r.task.desc (index fd) = t.desc (index fd) := by
  change r.task.pcb.fileDescTb (index fd) = t.pcb.fileDescTb (index fd)
  cases c with
  | «open» name =>
    simp only [perform, Option.some_inj] at h
    subst h
    rcases sysOpen_cases img name t with ⟨he, -⟩ | he | ⟨d, -, -, hlt, -, he⟩
    · rw [he]
    · rw [he]
    · have hne : index fd ≠ slot t := fun e => hopen (e ▸ freeSlot_flag hlt)
      rw [he, Pcb.setDesc_other _ _ _ _ hne]
  | close fd' =>
    simp only [perform, Option.some_inj] at h
    subst h
    rcases sysClose_cases fd' t with ⟨he, -⟩ | ⟨-, h8', -, he⟩
    · rw [he]
    · rw [he]
      exact Pcb.setDesc_other _ _ _ _ (index_ne h8 h8' hc)
  | read fd' buf n =>
    rcases sysRead_cases h with he | ⟨h8', -, pos, he⟩
    · rw [he]
    · rw [he]
      exact Pcb.setDesc_other _ _ _ _ (index_ne h8 h8' hc)
  | write fd' buf n => rw [sysWrite_pcb h]

/-- The entry of an open regular file stands at the position its reads have
reached, never past the end. -/
def AtPosition (img : Image) (fd nd : Word) (s : Task × Stream) : Prop :=
  s.1.desc (index fd) =
      ⟨some .file, nd, BitVec.ofNat 32 (min s.2.asked (img.len nd).toNat), 1⟩ ∧
    s.2.delivered = (img.content nd).take s.2.asked

section

variable {img : Image} {fd nd : Word}

theorem position_toNat (img : Image) (nd : Word) (asked : Nat) :
    (BitVec.ofNat 32 (min asked (img.len nd).toNat)).toNat = min asked (img.len nd).toNat := by
  have bound := (img.len nd).isLt
  rw [BitVec.toNat_ofNat, Nat.mod_eq_of_lt (by omega)]

theorem AtPosition.isOpen {s : Task × Stream} (h : AtPosition img fd nd s) :
    (s.1.desc (index fd)).flag ≠ 0 := by
  rw [h.1]
  exact (by decide : (1 : Word) ≠ 0)

theorem AtPosition.read {s : Task × Stream} (h : AtPosition img fd nd s) (h2 : 2 ≤ fd.toNat)
    (h8 : fd.toNat < 8) (hn : nd < img.nnod) (hl : (img.len nd).toNat ≤ 1023 * 4096)
    (env : Env) (buf : Buffer) {n : Word} (hn0 : 0 ≤ n.toInt) :
    sysRead img env fd buf n s.1 = some
      ⟨BitVec.ofNat 32 (min n.toNat ((img.len nd).toNat - s.2.asked)),
        ((img.content nd).drop s.2.asked).take n.toNat,
        s.1.setDesc (index fd) ⟨some .file, nd,
          BitVec.ofNat 32 (min (s.2.asked + n.toNat) (img.len nd).toNat), 1⟩⟩ := by
  have bound := Word.toInt_nonneg_iff.mp hn0
  have pos := position_toNat img nd s.2.asked
  have inside : BitVec.ofNat 32 (min s.2.asked (img.len nd).toNat) ≤ img.len nd := by
    rw [BitVec.le_def, pos]
    omega
  have slice := img.readData_slice nd _ n hn inside (by rw [pos]; omega)
  have dropped : (img.content nd).drop (min s.2.asked (img.len nd).toNat) =
      (img.content nd).drop s.2.asked := by
    rcases Nat.le_total s.2.asked (img.len nd).toNat with h | h
    · rw [min_eq_left h]
    · rw [min_eq_right h, List.drop_eq_nil_of_le (by simp), List.drop_eq_nil_of_le (by simpa)]
  have moved : BitVec.ofNat 32 (min s.2.asked (img.len nd).toNat) +
      BitVec.ofNat 32 (min n.toNat ((img.len nd).toNat - s.2.asked)) =
      BitVec.ofNat 32 (min (s.2.asked + n.toNat) (img.len nd).toNat) := by
    rw [← BitVec.ofNat_add]
    congr 1
    omega
  have left : (img.len nd).toNat - min s.2.asked (img.len nd).toNat =
      (img.len nd).toNat - s.2.asked := by omega
  rw [pos, dropped, left] at slice
  rw [sysRead_accepted (accepted_of_flag h2 h8 h.isOpen), h.1]
  have short : ¬ longestRun < (((img.content nd).drop s.2.asked).take n.toNat).length := by
    rw [longestRun, List.length_take, List.length_drop, Image.length_content]
    omega
  simp only [opRead, fileRead, h.1, slice, moved, if_neg short]

theorem streamStep_atPosition (h2 : 2 ≤ fd.toNat) (h8 : fd.toNat < 8) (hn : nd < img.nnod)
    (hl : (img.len nd).toNat ≤ 1023 * 4096) (e : Env × FileCall) (s s' : Task × Stream)
    (h : AtPosition img fd nd s) (hk : KeepsOpen fd e.2) (hs : streamStep img fd e s = some s') :
    AtPosition img fd nd s' := by
  obtain ⟨env, c⟩ := e
  simp only [streamStep, Option.map_eq_some_iff] at hs
  obtain ⟨r, hr, rfl⟩ := hs
  by_cases hc : ∃ buf n, c = .read fd buf n
  · obtain ⟨buf, n, rfl⟩ := hc
    rw [perform, h.read h2 h8 hn hl env buf hk, Option.some_inj] at hr
    subst hr
    refine ⟨?_, ?_⟩
    · simp [Stream.note]
    · simp only [Stream.note, if_true, h.2]
      exact (List.take_add).symm
  · have hna : ¬ Addresses fd c := fun ha => by
      rcases ha.cases with rfl | read
      · exact hk rfl
      · exact hc read
    have hnote : s.2.note fd r.stored c = s.2 := by
      cases c with
      | read fd' buf n => exact if_neg hna
      | _ => rfl
    simp only [hnote]
    exact ⟨(perform_desc_other hr h8 h.isOpen hna).trans h.1, h.2⟩

end

theorem sysOpen_entry {img : Image} {name : Memory} {d : Dentry} {t : Task}
    (hd : img.readDentryByName name = some d) (hk : (opsOf d.ft).isSome)
    (hopen : (sysOpen img name t).1 ≠ -1) :
    2 ≤ (sysOpen img name t).1.toNat ∧ (sysOpen img name t).1.toNat < 8 ∧
      (sysOpen img name t).2.desc (index (sysOpen img name t).1) =
        opened d (t.desc (slot t)) := by
  have bound := freeSlot_le t
  have low := two_le_freeSlot t
  by_cases hf : freeSlot t = 8
  · exact absurd (by rw [sysOpen_fail (Or.inr ⟨⟨d, hd, hk⟩, hf⟩)]) hopen
  · have hlt : freeSlot t < 8 := by omega
    obtain ⟨hret, hpcb⟩ := sysOpen_success hd hk hlt
    have hi : index (sysOpen img name t).1 = slot t := by
      rw [index, hret, freeSlot_toNat hlt, slot]
    rw [hret, freeSlot_toNat hlt, ← hret]
    refine ⟨low, hlt, ?_⟩
    rw [hi]
    change (sysOpen img name t).2.pcb.fileDescTb (slot t) = _
    rw [hpcb, Pcb.setDesc_same]

theorem sysOpen_atPosition {img : Image} {name : Memory} {d : Dentry} {t : Task}
    (hd : img.readDentryByName name = some d) (hft : d.ft = 2)
    (hopen : (sysOpen img name t).1 ≠ -1) :
    2 ≤ (sysOpen img name t).1.toNat ∧ (sysOpen img name t).1.toNat < 8 ∧
      AtPosition img (sysOpen img name t).1 d.ind ((sysOpen img name t).2, ⟨0, []⟩) := by
  have hk : (opsOf d.ft).isSome := by rw [hft]; rfl
  obtain ⟨h2, h8, entry⟩ := sysOpen_entry hd hk hopen
  refine ⟨h2, h8, ?_, by simp⟩
  rw [entry, opened, hft]
  simp [opsOf]

/-- The stream of a descriptor of a regular file, from its open to its close and
through any calls in between: what the reads delivered so far is the prefix of the
file that their counts add up to, and the next read delivers what follows. -/
theorem file_stream {img : Image} (wf : img.WellFormed) {name : Memory} {d : Dentry} {t : Task}
    (hd : img.readDentryByName name = some d) (hft : d.ft = 2)
    (hopen : (sysOpen img name t).1 ≠ -1) {calls : List (Env × FileCall)}
    (hcalls : ∀ e ∈ calls, KeepsOpen (sysOpen img name t).1 e.2) {t' : Task} {s : Stream}
    (hrun : run (streamStep img (sysOpen img name t).1) calls
      ((sysOpen img name t).2, ⟨0, []⟩) = some (t', s)) :
    s.delivered = (img.content d.ind).take (min s.asked (img.content d.ind).length) ∧
    ∀ (env : Env) (buf : Buffer) (n : Word), 0 ≤ n.toInt →
      ∃ r, sysRead img env (sysOpen img name t).1 buf n t' = some r ∧
        r.stored = ((img.content d.ind).drop s.asked).take n.toNat ∧
        r.ret.toInt = r.stored.length ∧
        ((img.content d.ind).length ≤ s.asked → r.ret = 0) := by
  obtain ⟨h2, h8, start⟩ := sysOpen_atPosition hd hft hopen
  obtain ⟨i, hi, hdir, -⟩ := img.readDentryByName_some hd
  have hnd : d.ind < img.nnod := by
    rw [hdir] at hft ⊢
    exact wf.ind_lt i hi hft
  have hl := wf.len_le d.ind hnd
  have allowed : Along (streamStep img (sysOpen img name t).1)
      (fun e _ => KeepsOpen (sysOpen img name t).1 e.2) calls
      ((sysOpen img name t).2, ⟨0, []⟩) := along_of_forall hcalls _
  have h := invariant_along
    (fun e s s' hs hk he => streamStep_atPosition h2 h8 hnd hl e s s' hs hk he) allowed hrun start
  refine ⟨?_, fun env buf n hn => ⟨_, h.read h2 h8 hnd hl env buf hn, rfl, ?_, fun hend => ?_⟩⟩
  · rw [h.2]
    exact List.take_eq_take_min
  · have small : (BitVec.ofNat 32 (min n.toNat ((img.len d.ind).toNat - s.asked))).toNat =
        min n.toNat ((img.len d.ind).toNat - s.asked) := by
      have limit := n.isLt
      rw [BitVec.toNat_ofNat, Nat.mod_eq_of_lt (by omega)]
    have bound := Word.toInt_nonneg_iff.mp hn
    change (BitVec.ofNat 32 (min n.toNat ((img.len d.ind).toNat - s.asked))).toInt = _
    rw [Word.toInt_of_toNat_lt (k := 2147483648) (by omega) le_rfl, small]
    simp
  · rw [img.length_content] at hend
    simp [Nat.sub_eq_zero_of_le hend]

def interleavedReads : List (Env × FileCall) :=
  [(Env.quiet, .read 2 Buffer.zero 4), (Env.quiet, .open shellText),
    (Env.quiet, .read 3 Buffer.zero 1), (Env.quiet, .read 2 Buffer.zero 4)]

theorem interleavedReads_keepOpen :
    ∀ e ∈ interleavedReads, KeepsOpen (sysOpen (Image.sample 0) shellText Task.fresh).1 e.2 := by
  intro e he
  simp only [interleavedReads, List.mem_cons, List.not_mem_nil, or_false] at he
  rcases he with rfl | rfl | rfl | rfl
  · exact (by decide : (0 : Int) ≤ (4 : Word).toInt)
  · exact trivial
  · exact (by decide : (0 : Int) ≤ (1 : Word).toInt)
  · exact (by decide : (0 : Int) ≤ (4 : Word).toInt)

theorem file_stream_sample :
    ∃ t' s, run (streamStep (Image.sample 0) (sysOpen (Image.sample 0) shellText Task.fresh).1)
        interleavedReads ((sysOpen (Image.sample 0) shellText Task.fresh).2, ⟨0, []⟩) =
          some (t', s) ∧ s.asked = 8 ∧
      s.delivered = ((Image.sample 0).content 0).take
        (min s.asked ((Image.sample 0).content 0).length) := by
  have found : (Image.sample 0).readDentryByName shellText = some ((Image.sample 0).dirs 2) := rfl
  refine ⟨_, _, rfl, by decide, ?_⟩
  exact (file_stream (t := Task.fresh) Image.sample_wellFormed found (by decide) (by decide)
    interleavedReads_keepOpen rfl).1

end LumettaOS.FileCalls
