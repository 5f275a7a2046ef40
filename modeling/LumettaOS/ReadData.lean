import LumettaOS.FileSystem

/-! `read_data` as a random-access read of a file. The end of the file is found with
a sum modulo 2^32, and the block numbers are used as they stand in the inode. -/

namespace LumettaOS

def overwrite (buf : Memory) (bytes : List Byte) : Memory := fun i => bytes[i]?.getD (buf i)

theorem overwrite_outside (buf : Memory) {bytes : List Byte} {i : Nat} (h : bytes.length ≤ i) :
    overwrite buf bytes i = buf i := by
  rw [overwrite, List.getElem?_eq_none h, Option.getD_none]

namespace Image

variable (img : Image)

def blockAddr (b : Word) (k : Nat) : Word := 4096 * (img.nnod + 1 + b) + BitVec.ofNat 32 k

def blockOf (nd : Word) (pos : Nat) : Word := img.data nd (BitVec.ofNat 32 (pos / 4096))

/-- An inode as the format has it: the length fits the list of blocks, and the blocks
that hold the file are ones the boot block counts. -/
structure SoundInode (nd : Word) : Prop where
  present : nd < img.nnod
  len_le : (img.len nd).toNat ≤ 1023 * 4096
  data_lt : ∀ k : Word, k.toNat * 4096 < (img.len nd).toNat → img.data nd k < img.nblck

def taken (nd off len : Word) : List Word :=
  if img.nnod ≤ nd then []
  else img.readAddrs nd (clampLen (img.len nd) off len).toNat off (img.blk nd (off / 4096))

theorem readData_taken (nd off len : Word) :
    (img.readData nd off len).2 = (img.taken nd off len).map img.byte := by
  rw [readData, taken]
  split
  · rfl
  · exact readLoop_addrs img nd _ _ _

theorem ofNat_div_block {pos : Nat} (h : pos < 2 ^ 32) :
    BitVec.ofNat 32 pos / 4096 = BitVec.ofNat 32 (pos / 4096) := by
  apply BitVec.eq_of_toNat_eq
  simp only [BitVec.toNat_udiv, BitVec.toNat_ofNat, BitVec.ofNat_eq_ofNat, Nat.reducePow,
    Nat.reduceMod]
  omega

theorem fileAddr_eq (nd : Word) {pos : Nat} (h : pos < 2 ^ 32) :
    img.fileAddr nd (BitVec.ofNat 32 pos) = img.blockAddr (img.blockOf nd pos) (pos % 4096) := by
  have rest : BitVec.ofNat 32 pos % 4096 = BitVec.ofNat 32 (pos % 4096) := by
    apply BitVec.eq_of_toNat_eq
    simp only [BitVec.toNat_umod, BitVec.toNat_ofNat, BitVec.ofNat_eq_ofNat, Nat.reducePow,
      Nat.reduceMod]
    omega
  rw [fileAddr, ofNat_div_block h, rest]
  rfl

section Present

variable {img} {nd off len : Word}

theorem readData_count (present : nd < img.nnod) (inside : off ≤ img.len nd)
    (sum : off.toNat + len.toNat < 2 ^ 32) :
    (img.readData nd off len).1.toNat = min len.toNat ((img.len nd).toNat - off.toNat) := by
  rw [readData_present img nd off len present]
  exact clampLen_toNat _ _ _ inside sum

theorem getElem?_taken (present : nd < img.nnod) (sum : off.toNat + len.toNat < 2 ^ 32)
    {i : Nat} (hi : i < (img.readData nd off len).1.toNat) (low : i < len.toNat) :
    (img.taken nd off len)[i]? =
      some (img.blockAddr (img.blockOf nd (off.toNat + i)) ((off.toNat + i) % 4096)) := by
  have there : ¬ img.nnod ≤ nd := by bv_omega
  rw [readData_present img nd off len present] at hi
  have shift : off + BitVec.ofNat 32 i = BitVec.ofNat 32 (off.toNat + i) := by
    rw [BitVec.ofNat_add, BitVec.ofNat_toNat, BitVec.setWidth_eq]
  rw [taken, if_neg there, readAddrs_eq, List.getElem?_map, List.getElem?_range hi,
    Option.map_some, shift, fileAddr_eq img nd (by omega)]

end Present

/-- Inside the file and without wrap-around the buffer gets the bytes asked for, as far
as the file has them, each from its place in the block listed for it; the rest of the
buffer stays. An inode that does not exist is refused. -/
theorem read_data_random_access (nd off len : Word) (buf : Memory) :
    (img.SoundInode nd → off ≤ img.len nd → off.toNat + len.toNat < 2 ^ 32 →
      (img.readData nd off len).1.toNat = min len.toNat ((img.len nd).toNat - off.toNat) ∧
      (∀ i, i < min len.toNat ((img.len nd).toNat - off.toNat) →
        (off.toNat + i) / 4096 < 1023 ∧ img.blockOf nd (off.toNat + i) < img.nblck ∧
        overwrite buf (img.readData nd off len).2 i =
          img.byte (img.blockAddr (img.blockOf nd (off.toNat + i)) ((off.toNat + i) % 4096))) ∧
      ∀ i, min len.toNat ((img.len nd).toNat - off.toNat) ≤ i →
        overwrite buf (img.readData nd off len).2 i = buf i) ∧
    (img.nnod ≤ nd → (img.readData nd off len).1 = -1 ∧
      ∀ i, overwrite buf (img.readData nd off len).2 i = buf i) := by
  refine ⟨fun sound inside sum => ?_, fun absent => ?_⟩
  · have count := readData_count sound.present inside sum
    have format := sound.len_le
    refine ⟨count, fun i hi => ⟨by omega, ?_, ?_⟩, fun i hi => ?_⟩
    · refine sound.data_lt _ ?_
      rw [BitVec.toNat_ofNat]
      omega
    · rw [overwrite, readData_taken, List.getElem?_map,
        getElem?_taken sound.present sum (by omega) (by omega)]
      rfl
    · refine overwrite_outside buf ?_
      rw [length_readData img nd off len sound.present, count]
      exact hi
  · rw [readData_absent img nd off len absent]
    exact ⟨rfl, fun i => overwrite_outside buf (Nat.zero_le i)⟩

theorem sample_soundInode : (sample 0).SoundInode 0 where
  present := by decide
  len_le := sample_wellFormed.len_le 0 (by decide)
  data_lt := sample_wellFormed.data_lt 0 (by decide)

theorem read_data_random_access_sample :
    ((sample 0).readData 0 4 10).1.toNat = 2 ∧
      overwrite (fun _ => 0x77) ((sample 0).readData 0 4 10).2 1 =
        (sample 0).byte ((sample 0).blockAddr ((sample 0).blockOf 0 5) 5) ∧
      overwrite (fun _ => 0x77) ((sample 0).readData 0 4 10).2 2 = 0x77 := by
  have read := (read_data_random_access (sample 0) 0 4 10 fun _ => 0x77).1 sample_soundInode
    (by decide) (by decide)
  exact ⟨read.1, (read.2.1 1 (by decide)).2.2, read.2.2 2 (by decide)⟩

section Clamp

variable {img} {nd off len : Word}

/-- The bytes stored are as many as returned, no more than asked for, and no more than
the file has behind `off`. -/
def WithinFile (img : Image) (nd off len : Word) : Prop :=
  (img.readData nd off len).2.length = (img.readData nd off len).1.toNat ∧
  (img.readData nd off len).1.toNat ≤ len.toNat ∧
  (off ≤ img.len nd →
    (img.readData nd off len).1.toNat ≤ (img.len nd).toNat - off.toNat) ∧
  (img.len nd < off → (img.readData nd off len).1.toNat = 0)

/-- Where the sum wraps it is below `off`, so the test for the end of the file passes;
behind the end the difference wraps instead. -/
theorem clampLen_bounded_iff (nodLen off len : Word) :
    ((clampLen nodLen off len).toNat ≤ len.toNat ∧
      (off ≤ nodLen → (clampLen nodLen off len).toNat ≤ nodLen.toNat - off.toNat) ∧
      (nodLen < off → (clampLen nodLen off len).toNat = 0)) ↔
    off ≤ nodLen ∧ off.toNat + len.toNat < 2 ^ 32 := by
  rw [BitVec.le_def, BitVec.lt_def, toNat_clampLen]
  have bl := nodLen.isLt
  have bo := off.isLt
  have bn := len.isLt
  split <;> omega

/-- A read delivers no more than the file holds exactly when it starts inside the file
and its end does not wrap around. -/
theorem within_file_iff (present : nd < img.nnod) :
    img.WithinFile nd off len ↔ off ≤ img.len nd ∧ off.toNat + len.toNat < 2 ^ 32 := by
  rw [← clampLen_bounded_iff, WithinFile, length_readData img nd off len present,
    readData_present img nd off len present]
  simp only [true_and]

theorem within_file_iff_sample : (sample 0).WithinFile 0 4 10 :=
  (within_file_iff (by decide)).mpr (by decide)

/-- A count of -1 behind the first of six bytes: as many are copied, until that faults. -/
theorem negative_count_unclamped :
    (sample 0).SoundInode 0 ∧ ¬ (sample 0).WithinFile 0 1 (-1) := by
  refine ⟨sample_soundInode, fun within => ?_⟩
  have bounded := within.2.2.1 (by decide)
  revert bounded
  decide

end Clamp

end Image

end LumettaOS
