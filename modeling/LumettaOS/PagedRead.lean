import LumettaOS.Lib.Logged
import LumettaOS.AddressSpace
import LumettaOS.FileCalls
import LumettaOS.ReadData

/-! `read_data` through the page tables: an access to an address that is not mapped
faults, and the call does not come back. The block numbers are used as they stand in
the inode, so they decide where the accesses go. The log has the bytes that were stored
from the buffer on, also where the call faults behind them. -/

namespace LumettaOS.Image
open Paging Lib Lib.Logged

/-- The page tables, and where the boot block and the caller's buffer are. -/
structure Place where
  pages : PageTables
  boot : Word
  buf : Word

section Accesses

variable (img : Image) (place : Place)

def fetch (a : Word) : Option Byte :=
  if Mapped place.pages (place.boot + a) then some (img.byte a) else none

def fetchWord (a : Word) : Option Word := do
  let b0 ← img.fetch place a
  let b1 ← img.fetch place (a + 1)
  let b2 ← img.fetch place (a + 2)
  let b3 ← img.fetch place (a + 3)
  return b3 ++ b2 ++ b1 ++ b0

def storePaged (i : Word) (b : Byte) : Logged Byte Unit :=
  if Mapped place.pages (place.buf + i) then touch b (some ()) else silent none

def entryAddr (nd k : Word) : Word := 4096 * (nd + 1) + 4 + 4 * k

def fetchBlkPaged (nd k : Word) : Option Word := do
  let nnod ← img.fetchWord place 4
  let number ← img.fetchWord place (entryAddr nd k)
  return 4096 * (nnod + 1 + number)

def refreshPaged (nd off blk : Word) : Option Word :=
  if off % 4096 = 0 then img.fetchBlkPaged place nd (off / 4096) else some blk

def readLoopPaged (nd : Word) : (n : Nat) → (off blk i : Word) → Logged Byte Unit
  | 0, _, _, _ => pure ()
  | n + 1, off, blk, i => do
    let byte ← silent (img.fetch place (blk + off % 4096))
    storePaged place i byte
    let off' := off + 1
    let blk' ← silent (img.refreshPaged place nd off' blk)
    readLoopPaged nd n off' blk' (i + 1)

def copyPaged (nd off len : Word) : Logged Byte Word := do
  let nodLen ← silent (img.fetchWord place (4096 * (nd + 1)))
  let len := clampLen nodLen off len
  let blk ← silent (img.fetchBlkPaged place nd (off / 4096))
  img.readLoopPaged place nd len.toNat off blk 0
  return len

def readDataPaged (nd off len : Word) : Logged Byte Word := do
  let nnod ← silent (img.fetchWord place 4)
  if nnod ≤ nd then return -1 else img.copyPaged place nd off len

end Accesses

section Values

variable {img : Image} {place : Place}

def WordMapped (place : Place) (a : Word) : Prop :=
  ∀ i < 4, Mapped place.pages (place.boot + (a + BitVec.ofNat 32 i))

theorem fetch_eq_some {a : Word} {b : Byte} :
    img.fetch place a = some b ↔ Mapped place.pages (place.boot + a) ∧ img.byte a = b := by
  simp [fetch]

theorem fetchWord_eq_some {a w : Word} :
    img.fetchWord place a = some w ↔ WordMapped place a ∧ img.word a = w := by
  have four : WordMapped place a ↔ Mapped place.pages (place.boot + a) ∧
      Mapped place.pages (place.boot + (a + 1)) ∧ Mapped place.pages (place.boot + (a + 2)) ∧
      Mapped place.pages (place.boot + (a + 3)) := by
    refine ⟨fun h => ⟨?_, h 1 (by decide), h 2 (by decide), h 3 (by decide)⟩, ?_⟩
    · simpa using h 0 (by decide)
    · rintro ⟨m0, m1, m2, m3⟩ i hi
      have cases4 : i = 0 ∨ i = 1 ∨ i = 2 ∨ i = 3 := by omega
      rcases cases4 with rfl | rfl | rfl | rfl
      · simpa using m0
      · exact m1
      · exact m2
      · exact m3
  simp only [fetchWord, bind, pure, Option.bind_eq_some_iff, fetch_eq_some, four,
    Option.some_inj]
  constructor
  · rintro ⟨_, ⟨m0, rfl⟩, _, ⟨m1, rfl⟩, _, ⟨m2, rfl⟩, _, ⟨m3, rfl⟩, rfl⟩
    exact ⟨⟨m0, m1, m2, m3⟩, rfl⟩
  · rintro ⟨⟨m0, m1, m2, m3⟩, rfl⟩
    exact ⟨_, ⟨m0, rfl⟩, _, ⟨m1, rfl⟩, _, ⟨m2, rfl⟩, _, ⟨m3, rfl⟩, rfl⟩

theorem fetchBlkPaged_eq_some {nd k b : Word} :
    img.fetchBlkPaged place nd k = some b ↔
      WordMapped place 4 ∧ WordMapped place (entryAddr nd k) ∧ img.blk nd k = b := by
  simp only [fetchBlkPaged, bind, pure, Option.bind_eq_some_iff, fetchWord_eq_some,
    Option.some_inj]
  constructor
  · rintro ⟨_, ⟨head, rfl⟩, _, ⟨entry, rfl⟩, rfl⟩
    exact ⟨head, entry, rfl⟩
  · rintro ⟨head, entry, rfl⟩
    exact ⟨_, ⟨head, rfl⟩, _, ⟨entry, rfl⟩, rfl⟩

def RoundMapped (img : Image) (place : Place) (nd off i : Word) (j : Nat) : Prop :=
  Mapped place.pages (place.boot + img.fileAddr nd (off + BitVec.ofNat 32 j)) ∧
  Mapped place.pages (place.buf + (i + BitVec.ofNat 32 j)) ∧
  ((off + BitVec.ofNat 32 (j + 1)) % 4096 = 0 →
    WordMapped place (entryAddr nd ((off + BitVec.ofNat 32 (j + 1)) / 4096)))

theorem add_one_ofNat (a : Word) (j : Nat) :
    a + 1 + BitVec.ofNat 32 j = a + BitVec.ofNat 32 (j + 1) := by
  rw [BitVec.ofNat_add, BitVec.add_assoc, BitVec.add_comm (1 : Word)]
  rfl

theorem roundMapped_succ (nd off i : Word) (j : Nat) :
    RoundMapped img place nd off i (j + 1) ↔ RoundMapped img place nd (off + 1) (i + 1) j := by
  simp only [RoundMapped, add_one_ofNat]

theorem roundMapped_zero (nd off i : Word) :
    RoundMapped img place nd off i 0 ↔ Mapped place.pages (place.boot + img.fileAddr nd off) ∧
      Mapped place.pages (place.buf + i) ∧
      ((off + 1) % 4096 = 0 → WordMapped place (entryAddr nd ((off + 1) / 4096))) := by
  simp [RoundMapped]

theorem refreshPaged_eq_some (head : WordMapped place 4) {nd off b : Word} :
    img.refreshPaged place nd (off + 1) (img.blk nd (off / 4096)) = some b ↔
      ((off + 1) % 4096 = 0 → WordMapped place (entryAddr nd ((off + 1) / 4096))) ∧
        img.blk nd ((off + 1) / 4096) = b := by
  unfold refreshPaged
  by_cases multiple : (off + 1) % 4096 = 0
  · rw [if_pos multiple, fetchBlkPaged_eq_some, and_iff_right head]
    exact and_congr_left fun _ => ⟨fun entry _ => entry, fun entry => entry multiple⟩
  · rw [if_neg multiple, blk_refresh off multiple, Option.some_inj]
    exact ⟨fun same => ⟨fun e => absurd e multiple, same⟩, fun h => h.2⟩

section Round

variable {nd off i : Word} (head : WordMapped place 4)
include head

theorem readLoopPaged_round (n : Nat) (round : RoundMapped img place nd off i 0) :
    img.readLoopPaged place nd (n + 1) off (img.blk nd (off / 4096)) i =
      touch (img.byte (img.fileAddr nd off)) (some ()) >>= fun _ =>
        img.readLoopPaged place nd n (off + 1) (img.blk nd ((off + 1) / 4096)) (i + 1) := by
  obtain ⟨source, target, entry⟩ := (roundMapped_zero nd off i).mp round
  have got : img.fetch place (img.blk nd (off / 4096) + off % 4096) =
      some (img.byte (img.fileAddr nd off)) := fetch_eq_some.mpr ⟨source, rfl⟩
  have next : img.refreshPaged place nd (off + 1) (img.blk nd (off / 4096)) =
      some (img.blk nd ((off + 1) / 4096)) := (refreshPaged_eq_some head).mpr ⟨entry, rfl⟩
  rw [readLoopPaged, got, silent_some_bind, storePaged, if_pos target]
  simp only [next, silent_some_bind]

/-- A round that faults has stored its byte or not. -/
theorem readLoopPaged_fault (n : Nat) (fault : ¬ RoundMapped img place nd off i 0) :
    (img.readLoopPaged place nd (n + 1) off (img.blk nd (off / 4096)) i).value = none ∧
      (img.readLoopPaged place nd (n + 1) off (img.blk nd (off / 4096)) i).log =
        if Mapped place.pages (place.boot + img.fileAddr nd off) ∧
          Mapped place.pages (place.buf + i) then [img.byte (img.fileAddr nd off)] else [] := by
  rw [roundMapped_zero] at fault
  by_cases source : Mapped place.pages (place.boot + img.fileAddr nd off)
  · have got : img.fetch place (img.blk nd (off / 4096) + off % 4096) =
        some (img.byte (img.fileAddr nd off)) := fetch_eq_some.mpr ⟨source, rfl⟩
    rw [readLoopPaged, got, silent_some_bind, storePaged]
    by_cases target : Mapped place.pages (place.buf + i)
    · have stuck : img.refreshPaged place nd (off + 1) (img.blk nd (off / 4096)) = none :=
        Option.eq_none_iff_forall_ne_some.mpr fun b next =>
          fault ⟨source, target, ((refreshPaged_eq_some head).mp next).1⟩
      rw [if_pos target, if_pos ⟨source, target⟩]
      simp only [stuck, silent_none_bind]
      exact ⟨rfl, rfl⟩
    · rw [if_neg target, if_neg fun both => target both.2]
      exact ⟨rfl, rfl⟩
  · have missed : img.fetch place (img.blk nd (off / 4096) + off % 4096) = none :=
      Option.eq_none_iff_forall_ne_some.mpr fun b got => source (fetch_eq_some.mp got).1
    rw [readLoopPaged, missed, if_neg fun both => source both.1]
    exact ⟨rfl, rfl⟩

theorem readLoopPaged_value (n : Nat) :
    (img.readLoopPaged place nd n off (img.blk nd (off / 4096)) i).value = some () ↔
      ∀ j < n, RoundMapped img place nd off i j := by
  induction n generalizing off i with
  | zero => simp [readLoopPaged]
  | succ n ih =>
    rw [Nat.forall_lt_succ_left]
    by_cases round : RoundMapped img place nd off i 0
    · rw [readLoopPaged_round head n round, and_iff_right round]
      simp only [roundMapped_succ]
      exact ih
    · rw [(readLoopPaged_fault head n round).1]
      simp [round]

/-- What is stored before a fault is the beginning of what would be. -/
theorem readLoopPaged_log (n : Nat) :
    (img.readLoopPaged place nd n off (img.blk nd (off / 4096)) i).log <+:
        img.readLoop nd n off (img.blk nd (off / 4096)) ∧
      ((img.readLoopPaged place nd n off (img.blk nd (off / 4096)) i).value = some () →
        (img.readLoopPaged place nd n off (img.blk nd (off / 4096)) i).log =
          img.readLoop nd n off (img.blk nd (off / 4096))) := by
  induction n generalizing off i with
  | zero => exact ⟨List.nil_prefix, fun _ => rfl⟩
  | succ n ih =>
    have cached : (if (off + 1) % 4096 = 0 then img.blk nd ((off + 1) / 4096)
        else img.blk nd (off / 4096)) = img.blk nd ((off + 1) / 4096) := by
      split
      · rfl
      · rename_i inner
        rw [blk_refresh off inner]
    simp only [readLoop, cached]
    by_cases round : RoundMapped img place nd off i 0
    · obtain ⟨start, whole⟩ := @ih (off + 1) (i + 1)
      rw [readLoopPaged_round head n round, touch_bind_log, bind_value, touch_value,
        Option.bind_some]
      exact ⟨List.prefix_cons_inj _ |>.mpr start, fun done => congrArg _ (whole done)⟩
    · obtain ⟨none_, log⟩ := readLoopPaged_fault head n round
      rw [none_, log]
      refine ⟨?_, by simp⟩
      split
      · exact List.prefix_cons_inj _ |>.mpr List.nil_prefix
      · exact List.nil_prefix

end Round

end Values

section Calls

variable {img : Image} {place : Place} {nd off len : Word}

/-- What `read_data` reads before its loop. -/
structure HeaderMapped (place : Place) (nd off : Word) : Prop where
  head : WordMapped place 4
  inode : WordMapped place (4096 * (nd + 1))
  entry : WordMapped place (entryAddr nd (off / 4096))

theorem fetchWord_none {a : Word} (h : ¬ WordMapped place a) : img.fetchWord place a = none :=
  Option.eq_none_iff_forall_ne_some.mpr fun _ got => h (fetchWord_eq_some.mp got).1

theorem readDataPaged_absent (absent : img.nnod ≤ nd) :
    (img.readDataPaged place nd off len).log = [] ∧
      ∀ v, (img.readDataPaged place nd off len).value = some v → v = -1 := by
  rw [readDataPaged]
  by_cases head : WordMapped place 4
  · rw [fetchWord_eq_some.mpr ⟨head, rfl⟩, silent_some_bind]
    change (if img.nnod ≤ nd then pure (-1) else img.copyPaged place nd off len).log = [] ∧ ∀ v,
      (if img.nnod ≤ nd then pure (-1) else img.copyPaged place nd off len).value = some v → v = -1
    rw [if_pos absent]
    exact ⟨rfl, fun v value => (Option.some_inj.mp value).symm⟩
  · rw [fetchWord_none head, silent_none_bind]
    exact ⟨rfl, fun v stuck => by simp at stuck⟩

theorem readDataPaged_present (present : nd < img.nnod) (header : HeaderMapped place nd off) :
    img.readDataPaged place nd off len =
      img.readLoopPaged place nd (clampLen (img.len nd) off len).toNat off
        (img.blk nd (off / 4096)) 0 >>= fun _ => pure (clampLen (img.len nd) off len) := by
  have there : ¬ img.nnod ≤ nd := by bv_omega
  have nnod : img.fetchWord place 4 = some img.nnod := fetchWord_eq_some.mpr ⟨header.head, rfl⟩
  have nodLen : img.fetchWord place (4096 * (nd + 1)) = some (img.len nd) :=
    fetchWord_eq_some.mpr ⟨header.inode, rfl⟩
  have blk : img.fetchBlkPaged place nd (off / 4096) = some (img.blk nd (off / 4096)) :=
    fetchBlkPaged_eq_some.mpr ⟨header.head, header.entry, rfl⟩
  rw [readDataPaged, nnod, silent_some_bind]
  refine (if_neg there).trans ?_
  rw [copyPaged, nodLen, silent_some_bind]
  simp only [blk, silent_some_bind]

theorem readDataPaged_fault (present : nd < img.nnod) (fault : ¬ HeaderMapped place nd off) :
    img.readDataPaged place nd off len = silent none := by
  have there : ¬ img.nnod ≤ nd := by bv_omega
  rw [readDataPaged]
  by_cases head : WordMapped place 4
  · rw [fetchWord_eq_some.mpr ⟨head, rfl⟩, silent_some_bind]
    refine (if_neg there).trans ?_
    rw [copyPaged]
    by_cases inode : WordMapped place (4096 * (nd + 1))
    · have stuck : img.fetchBlkPaged place nd (off / 4096) = none :=
        Option.eq_none_iff_forall_ne_some.mpr fun _ got =>
          fault ⟨head, inode, (fetchBlkPaged_eq_some.mp got).2.1⟩
      rw [fetchWord_eq_some.mpr ⟨inode, rfl⟩, silent_some_bind]
      simp only [stuck, silent_none_bind]
    · rw [fetchWord_none inode, silent_none_bind]
  · rw [fetchWord_none head, silent_none_bind]

theorem readDataPaged_value (present : nd < img.nnod) (v : Word) :
    (img.readDataPaged place nd off len).value = some v ↔
      (HeaderMapped place nd off ∧
        ∀ j < (img.readData nd off len).1.toNat, RoundMapped img place nd off 0 j) ∧
      (img.readData nd off len).1 = v := by
  have count : (img.readData nd off len).1 = clampLen (img.len nd) off len :=
    congrArg Prod.fst (readData_present img nd off len present)
  rw [count]
  by_cases header : HeaderMapped place nd off
  · rw [readDataPaged_present present header, bind_value, and_iff_right header,
      ← readLoopPaged_value header.head]
    cases (img.readLoopPaged place nd (clampLen (img.len nd) off len).toNat off
      (img.blk nd (off / 4096)) 0).value with
    | none => simp
    | some u => simp
  · rw [readDataPaged_fault present header]
    simp [header]

theorem readDataPaged_log (place : Place) (nd off len : Word) :
    (img.readDataPaged place nd off len).log <+: (img.readData nd off len).2 ∧
      ∀ v, (img.readDataPaged place nd off len).value = some v →
        (img.readDataPaged place nd off len).log = (img.readData nd off len).2 := by
  by_cases absent : img.nnod ≤ nd
  · rw [(readDataPaged_absent absent).1, img.readData_absent nd off len absent]
    exact ⟨List.nil_prefix, fun v _ => rfl⟩
  · have present : nd < img.nnod := by bv_omega
    by_cases header : HeaderMapped place nd off
    · obtain ⟨start, whole⟩ := @readLoopPaged_log img place nd off 0 header.head
        (clampLen (img.len nd) off len).toNat
      have all : (img.readData nd off len).2 = img.readLoop nd (clampLen (img.len nd) off len).toNat
          off (img.blk nd (off / 4096)) := by rw [readData, if_neg absent]
      rw [readDataPaged_present present header, bind_pure_log, all]
      refine ⟨start, fun v done => whole ?_⟩
      rw [bind_value, Option.bind_eq_some_iff] at done
      obtain ⟨u, loop, -⟩ := done
      exact loop
    · rw [readDataPaged_fault present header]
      exact ⟨List.nil_prefix, fun v stuck => by simp at stuck⟩

theorem readDataPaged_mapped (mapped : ∀ a, Mapped place.pages a) (nd off len : Word) :
    (img.readDataPaged place nd off len).value = some (img.readData nd off len).1 := by
  have words (a : Word) : WordMapped place a := fun _ _ => mapped _
  by_cases absent : img.nnod ≤ nd
  · rw [readDataPaged, fetchWord_eq_some.mpr ⟨words 4, rfl⟩, silent_some_bind,
      img.readData_absent nd off len absent]
    exact congrArg Logged.value (if_pos absent)
  · exact (readDataPaged_value (by bv_omega) _).mpr
      ⟨⟨⟨words _, words _, words _⟩, fun j _ => ⟨mapped _, mapped _, fun _ => words _⟩⟩, rfl⟩

/-- Where the read of a file has no result, it faults. -/
theorem readDataPaged_long {table : Word} (aligned : table.toNat % 4096 = 0) (s : PageTables)
    (history : List Word) {pid : Word} (hpid : pid < 6)
    (pages : place.pages = afterSwitches table s history pid)
    (long : FileCalls.longestRun < (img.readData nd off len).2.length) :
    (img.readDataPaged place nd off len).value = none := by
  have present : nd < img.nnod := by
    by_contra absent
    rw [img.readData_absent nd off len (by bv_omega)] at long
    exact absurd long (by decide)
  rw [img.length_readData nd off len present] at long
  rw [Option.eq_none_iff_forall_ne_some]
  intro v found
  obtain ⟨⟨-, rounds⟩, -⟩ := (readDataPaged_value present v).mp found
  refine absurd (mapped_run_le aligned s history hpid (v := place.buf) fun i hi => ?_)
    (Nat.not_le.mpr long)
  have stored := (rounds i hi).2.1
  rwa [pages, zero_add] at stored

end Calls

section Blocks

variable {img : Image} {place : Place} {nd off len : Word}

end Blocks

end LumettaOS.Image
