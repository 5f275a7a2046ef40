import LumettaOS.Lib.Logged
import LumettaOS.FileSystem

/-! `read_data` with its accesses to the `data` array of the inode. The number of the
next block is fetched as soon as the running offset reaches it, whether or not a byte
of that block is wanted. -/

namespace LumettaOS.Image
open Lib Lib.Logged

variable (img : Image)

def fetchBlk (nd k : Word) : Logged Word Word := touch k (some (img.blk nd k))

/-- The refresh of the block pointer at the end of each round. -/
def refreshBlk (nd off blk : Word) : Logged Word Word :=
  if off % 4096 = 0 then img.fetchBlk nd (off / 4096) else pure blk

def readLoopLogged (nd : Word) : (n : Nat) → (off blk : Word) → Logged Word (List Byte)
  | 0, _, _ => pure []
  | n + 1, off, blk => do
    let byte := img.byte (blk + off % 4096)
    let off' := off + 1
    let blk' ← img.refreshBlk nd off' blk
    let rest ← readLoopLogged nd n off' blk'
    return byte :: rest

def readDataLogged (nd off len : Word) : Logged Word (Word × List Byte) :=
  if img.nnod ≤ nd then pure (-1, [])
  else do
    let len := clampLen (img.len nd) off len
    let blk ← img.fetchBlk nd (off / 4096)
    let bytes ← img.readLoopLogged nd len.toNat off blk
    return (len, bytes)

theorem refreshBlk_value (nd off blk : Word) : (img.refreshBlk nd off blk).value =
    some (if off % 4096 = 0 then img.blk nd (off / 4096) else blk) := by
  unfold refreshBlk
  split
  · rfl
  · rfl

theorem refreshBlk_log (nd off blk : Word) : (img.refreshBlk nd off blk).log =
    if off % 4096 = 0 then [off / 4096] else [] := by
  unfold refreshBlk
  split
  · rfl
  · rfl

theorem readLoopLogged_value (nd : Word) (n : Nat) (off blk : Word) :
    (img.readLoopLogged nd n off blk).value = some (img.readLoop nd n off blk) := by
  induction n generalizing off blk with
  | zero => rfl
  | succ n ih =>
    simp only [readLoopLogged, readLoop, bind_value, refreshBlk_value, Option.bind_some, ih,
      pure_value]

theorem readDataLogged_value (nd off len : Word) :
    (img.readDataLogged nd off len).value = some (img.readData nd off len) := by
  unfold readDataLogged readData
  split
  · rfl
  · simp only [bind_value, fetchBlk, touch_value, Option.bind_some, readLoopLogged_value,
      pure_value]

theorem readLoopLogged_log (nd : Word) (n : Nat) (off blk : Word) :
    (img.readLoopLogged nd (n + 1) off blk).log =
      (if (off + 1) % 4096 = 0 then [(off + 1) / 4096] else []) ++
        (img.readLoopLogged nd n (off + 1)
          (if (off + 1) % 4096 = 0 then img.blk nd ((off + 1) / 4096) else blk)).log := by
  rw [readLoopLogged, bind_log (img.refreshBlk_value nd (off + 1) blk), bind_pure_log,
    refreshBlk_log]

theorem readDataLogged_log {nd : Word} (present : nd < img.nnod) (off len : Word) :
    (img.readDataLogged nd off len).log = off / 4096 :: (img.readLoopLogged nd
      (clampLen (img.len nd) off len).toNat off (img.blk nd (off / 4096))).log := by
  have there : ¬ img.nnod ≤ nd := by bv_omega
  rw [readDataLogged, if_neg there]
  simp only [fetchBlk, touch_bind_log, bind_pure_log]

section Crossings

theorem toNat_div_block (pos : Word) : (pos / 4096).toNat = pos.toNat / 4096 := by
  simp

theorem mod_block_iff (pos : Word) : pos % 4096 = 0 ↔ pos.toNat % 4096 = 0 := by
  rw [← BitVec.toNat_inj]
  simp

theorem mem_readLoopLogged_log (nd : Word) (n : Nat) (off blk a : Word)
    (small : off.toNat + n < 2 ^ 32) :
    a ∈ (img.readLoopLogged nd n off blk).log ↔
      ∃ pos, off.toNat < pos ∧ pos ≤ off.toNat + n ∧ pos % 4096 = 0 ∧ a.toNat = pos / 4096 := by
  induction n generalizing off blk with
  | zero =>
    refine ⟨fun h => by simp [readLoopLogged] at h, fun ⟨pos, above, below, _⟩ => ?_⟩
    omega
  | succ n ih =>
    have next : (off + 1).toNat = off.toNat + 1 := by
      rw [BitVec.toNat_add]
      exact Nat.mod_eq_of_lt (by simpa using by omega)
    have first : (a ∈ if (off + 1) % 4096 = 0 then [(off + 1) / 4096] else []) ↔
        (off.toNat + 1) % 4096 = 0 ∧ a.toNat = (off.toNat + 1) / 4096 := by
      rw [← next, ← mod_block_iff, ← toNat_div_block, BitVec.toNat_inj]
      split
      · rename_i multiple
        rw [List.mem_singleton, and_iff_right multiple]
      · rename_i inner
        exact iff_of_false (List.not_mem_nil) fun e => inner e.1
    rw [readLoopLogged_log, List.mem_append, ih (off + 1) _ (by omega), first, next]
    refine ⟨fun h => ?_, fun ⟨pos, above, below, multiple, value⟩ => ?_⟩
    · rcases h with ⟨multiple, value⟩ | ⟨pos, above, below, rest⟩
      · exact ⟨_, by omega, by omega, multiple, value⟩
      · exact ⟨pos, by omega, by omega, rest⟩
    · by_cases here : pos = off.toNat + 1
      · exact Or.inl ⟨here ▸ multiple, here ▸ value⟩
      · exact Or.inr ⟨pos, by omega, by omega, multiple, value⟩

end Crossings

section Bounds

variable {img} {nd off len : Word}

theorem fetches_below_iff (present : nd < img.nnod) (inside : off ≤ img.len nd)
    (sum : off.toNat + len.toNat < 2 ^ 32) :
    (∀ k ∈ (img.readDataLogged nd off len).log, k.toNat < 1023) ↔
      (off.toNat + min len.toNat ((img.len nd).toNat - off.toNat)) / 4096 < 1023 := by
  have count := clampLen_toNat (img.len nd) off len inside sum
  have fetched := fun k => img.mem_readLoopLogged_log nd
    (min len.toNat ((img.len nd).toNat - off.toNat)) off (img.blk nd (off / 4096)) k (by omega)
  rw [readDataLogged_log img present, count]
  simp only [List.mem_cons, fetched]
  refine ⟨fun below => ?_, fun last k hk => ?_⟩
  · by_contra beyond
    by_cases start : off.toNat / 4096 < 1023
    -- the read goes through the boundary of block 1023
    · have far := below 1023 (Or.inr ⟨1023 * 4096, by omega, by omega, by omega, rfl⟩)
      exact absurd far (by decide)
    · have first := below (off / 4096) (Or.inl rfl)
      rw [toNat_div_block] at first
      omega
  · rcases hk with e | ⟨pos, above, below, multiple, value⟩
    · rw [e, toNat_div_block]
      omega
    · omega

/-- Every block number is fetched from the array exactly if the read does not reach the
end of a file that fills all 1023 blocks. -/
theorem block_index_iff (present : nd < img.nnod) (format : (img.len nd).toNat ≤ 1023 * 4096)
    (inside : off ≤ img.len nd) (sum : off.toNat + len.toNat < 2 ^ 32) :
    (∀ k ∈ (img.readDataLogged nd off len).log, k.toNat < 1023) ↔
      ((img.len nd).toNat < 1023 * 4096 ∨ off.toNat + len.toNat < 1023 * 4096) := by
  have start : off.toNat ≤ (img.len nd).toNat := inside
  rw [fetches_below_iff present inside sum]
  omega

theorem block_index_iff_sample :
    ((sample 0).readDataLogged 0 4 10).log = [0] ∧
      ∀ k ∈ ((sample 0).readDataLogged 0 4 10).log, k.toNat < 1023 :=
  ⟨by decide, (block_index_iff (by decide) (by decide) (by decide) (by decide)).mpr (by decide)⟩

def fullFile : Image :=
  ⟨Function.update (Function.update (Function.update (sample 0).byte
    4096 0x00) 4097 0xF0) 4098 0x3F⟩

/-- Its last byte is read, and entry 1023 of the array is looked at. -/
theorem last_byte_fetches_behind :
    (fullFile.len 0).toNat = 1023 * 4096 ∧ (0 : Word) < fullFile.nnod ∧
      (fullFile.readData 0 0x3FEFFF 1).1 = 1 ∧
      (fullFile.readDataLogged 0 0x3FEFFF 1).log = [1022, 1023] ∧
      ¬ ∀ k ∈ (fullFile.readDataLogged 0 0x3FEFFF 1).log, k.toNat < 1023 := by
  have log : (fullFile.readDataLogged 0 0x3FEFFF 1).log = [1022, 1023] := by decide
  refine ⟨by decide, by decide, by decide, log, fun below => ?_⟩
  rw [log] at below
  exact absurd (below 1023 (by simp)) (by decide)

end Bounds

end LumettaOS.Image
