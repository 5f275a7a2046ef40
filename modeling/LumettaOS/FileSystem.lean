import LumettaOS.CString

/-! The read-only file system of filesystem.c. An image is the memory from the
boot block on; every address of the C code is an offset from there modulo 2^32,
so an access outside the structures reads whatever lies at that offset. Which of
these accesses fault is the subject of `PagedRead`.
Block 0 is the boot block, inode `nd` is block `nd + 1`, data block `b` is block
`nnod + 1 + b`, all of 4096 bytes. -/

namespace LumettaOS

structure Image where
  byte : Word → Byte

/-- The 64 bytes of a `struct dentry`; `bytes k` is meant for `k < 64`. -/
structure Dentry where
  bytes : Memory

namespace Dentry

def name (d : Dentry) : Memory := d.bytes

def ft (d : Dentry) : Word := d.bytes 35 ++ d.bytes 34 ++ d.bytes 33 ++ d.bytes 32

def ind (d : Dentry) : Word := d.bytes 39 ++ d.bytes 38 ++ d.bytes 37 ++ d.bytes 36

end Dentry

namespace Image
open CString

variable (img : Image)

def word (a : Word) : Word := img.byte (a + 3) ++ img.byte (a + 2) ++ img.byte (a + 1) ++ img.byte a

def nent : Word := img.word 0
def nnod : Word := img.word 4
def nblck : Word := img.word 8

def dirs (i : Word) : Dentry := ⟨fun k => img.byte (64 + 64 * i + BitVec.ofNat 32 k)⟩

def len (nd : Word) : Word := img.word (4096 * (nd + 1))

def data (nd k : Word) : Word := img.word (4096 * (nd + 1) + 4 + 4 * k)

def blk (nd k : Word) : Word := 4096 * (img.nnod + 1 + img.data nd k)

def readDentryFrom (fname : Memory) : (n i : Nat) → Option Dentry
  | 0, _ => none
  | n + 1, i =>
    let d := img.dirs (BitVec.ofNat 32 i)
    if strncmp fname d.name 32 = 0 then some d else readDentryFrom fname n (i + 1)

/-- `none` is the return value -1, with `*dent` untouched. -/
def readDentryByName (fname : Memory) : Option Dentry :=
  img.readDentryFrom fname img.nent.toNat 0

def readDentryByIndex (i : Word) : Option Dentry :=
  if img.nent < i then none else some (img.dirs i)

def clampLen (nodLen off len : Word) : Word := if nodLen < len + off then nodLen - off else len

/-- The copying loop of `read_data` with `n` bytes left. The block pointer is
refreshed only where the running offset reaches a multiple of the block size. -/
def readLoop (nd : Word) : (n : Nat) → (off blk : Word) → List Byte
  | 0, _, _ => []
  | n + 1, off, blk =>
    let off' := off + 1
    let blk' := if off' % 4096 = 0 then img.blk nd (off' / 4096) else blk
    img.byte (blk + off % 4096) :: readLoop nd n off' blk'

/-- The return value and the bytes stored at `buf[0]`, `buf[1]` and so on. -/
def readData (nd off len : Word) : Word × List Byte :=
  if img.nnod ≤ nd then (-1, [])
  else
    let len := clampLen (img.len nd) off len
    (len, img.readLoop nd len.toNat off (img.blk nd (off / 4096)))

def fileByte (nd off : Word) : Byte := img.byte (img.blk nd (off / 4096) + off % 4096)

def content (nd : Word) : List Byte :=
  (List.range (img.len nd).toNat).map fun i => img.fileByte nd (BitVec.ofNat 32 i)

theorem blk_refresh (off : Word) (h : ¬ (off + 1) % 4096 = 0) :
    (off + 1) / 4096 = off / 4096 := by
  have h' : ((off + 1) % 4096).toNat ≠ 0 := fun e => h (BitVec.eq_of_toNat_eq (by simpa using e))
  apply BitVec.eq_of_toNat_eq
  simp only [BitVec.toNat_udiv, BitVec.toNat_umod, BitVec.toNat_add, BitVec.toNat_ofNat,
    BitVec.ofNat_eq_ofNat, Nat.reduceMod, Nat.reducePow] at h' ⊢
  omega

def fileAddr (nd off : Word) : Word := img.blk nd (off / 4096) + off % 4096

def readAddrs (nd : Word) : (n : Nat) → (off blk : Word) → List Word
  | 0, _, _ => []
  | n + 1, off, blk =>
    let off' := off + 1
    let blk' := if off' % 4096 = 0 then img.blk nd (off' / 4096) else blk
    (blk + off % 4096) :: readAddrs nd n off' blk'

theorem readLoop_addrs (nd : Word) (n : Nat) (off blk : Word) :
    img.readLoop nd n off blk = (img.readAddrs nd n off blk).map img.byte := by
  induction n generalizing off blk with
  | zero => rfl
  | succ n ih => rw [readLoop, readAddrs, List.map_cons, ih]

theorem readAddrs_eq (nd : Word) (n : Nat) (off : Word) :
    img.readAddrs nd n off (img.blk nd (off / 4096)) =
      (List.range n).map fun i => img.fileAddr nd (off + BitVec.ofNat 32 i) := by
  induction n generalizing off with
  | zero => rfl
  | succ n ih =>
    have cached : (if (off + 1) % 4096 = 0 then img.blk nd ((off + 1) / 4096)
        else img.blk nd (off / 4096)) = img.blk nd ((off + 1) / 4096) := by
      split
      · rfl
      · rename_i h
        rw [blk_refresh off h]
    rw [readAddrs, List.range_succ_eq_map, List.map_cons, List.map_map]
    simp only [cached, ih]
    congr 1
    · simp [fileAddr]
    · apply List.map_congr_left
      intro i _
      have shift : off + 1 + BitVec.ofNat 32 i = off + BitVec.ofNat 32 (i + 1) := by
        rw [BitVec.ofNat_add, BitVec.add_assoc, BitVec.add_comm (1 : Word)]
        rfl
      exact congrArg (img.fileAddr nd) shift

theorem readLoop_eq (nd : Word) (n : Nat) (off : Word) :
    img.readLoop nd n off (img.blk nd (off / 4096)) =
      (List.range n).map fun i => img.fileByte nd (off + BitVec.ofNat 32 i) := by
  rw [readLoop_addrs, readAddrs_eq, List.map_map]
  rfl

theorem readData_absent (nd off len : Word) (h : img.nnod ≤ nd) :
    img.readData nd off len = (-1, []) := by rw [readData, if_pos h]

theorem readData_present (nd off len : Word) (h : nd < img.nnod) :
    img.readData nd off len = (clampLen (img.len nd) off len,
      (List.range (clampLen (img.len nd) off len).toNat).map
        fun i => img.fileByte nd (off + BitVec.ofNat 32 i)) := by
  have present : ¬ img.nnod ≤ nd := by bv_omega
  simp only [readData, if_neg present, readLoop_eq]

theorem length_readData (nd off len : Word) (h : nd < img.nnod) :
    (img.readData nd off len).2.length = (img.readData nd off len).1.toNat := by
  rw [readData_present img nd off len h]
  simp

@[simp] theorem length_content (nd : Word) : (img.content nd).length = (img.len nd).toNat := by
  simp [content]

theorem toNat_clampLen (nodLen off len : Word) :
    (clampLen nodLen off len).toNat =
      if nodLen.toNat < (len.toNat + off.toNat) % 4294967296
      then (4294967296 - off.toNat + nodLen.toNat) % 4294967296 else len.toNat := by
  simp only [clampLen, BitVec.lt_def, BitVec.toNat_add]
  split <;> simp [BitVec.toNat_sub]

theorem clampLen_toNat (nodLen off len : Word) (ho : off ≤ nodLen)
    (h : off.toNat + len.toNat < 2 ^ 32) :
    (clampLen nodLen off len).toNat = min len.toNat (nodLen.toNat - off.toNat) := by
  have inside : off.toNat ≤ nodLen.toNat := ho
  have bound := nodLen.isLt
  rw [toNat_clampLen]
  split <;> omega

theorem readData_slice (nd off len : Word) (hn : nd < img.nnod) (ho : off ≤ img.len nd)
    (h : off.toNat + len.toNat < 2 ^ 32) :
    img.readData nd off len =
      (BitVec.ofNat 32 (min len.toNat ((img.len nd).toNat - off.toNat)),
        ((img.content nd).drop off.toNat).take len.toNat) := by
  have clamp := clampLen_toNat (img.len nd) off len ho h
  rw [readData_present img nd off len hn]
  refine Prod.ext (BitVec.eq_of_toNat_eq ?_) ?_
  · rw [clamp, BitVec.toNat_ofNat, Nat.mod_eq_of_lt (by omega)]
  · apply List.ext_getElem
    · simp [clamp]
    · intro i hi _
      have shift : BitVec.ofNat 32 (off.toNat + i) = off + BitVec.ofNat 32 i := by
        rw [BitVec.ofNat_add, BitVec.ofNat_toNat, BitVec.setWidth_eq]
      simp [content, shift]

theorem readData_from_start (nd len : Word) (hn : nd < img.nnod) :
    (img.readData nd 0 len).2 = (img.content nd).take len.toNat := by
  have start : (0 : Word) ≤ img.len nd := by
    rw [BitVec.le_def]
    simp
  have sum : (0 : Word).toNat + len.toNat < 2 ^ 32 := by
    have bound := len.isLt
    simpa using bound
  rw [readData_slice img nd 0 len hn start sum]
  simp

/-- The image format: file sizes, block numbers, entry types and inode numbers
are in range. -/
structure WellFormed : Prop where
  len_le : ∀ nd < img.nnod, (img.len nd).toNat ≤ 1023 * 4096
  data_lt : ∀ nd < img.nnod, ∀ k : Word, k.toNat * 4096 < (img.len nd).toNat →
    img.data nd k < img.nblck
  ft_le : ∀ i < img.nent, (img.dirs i).ft ≤ 2
  ind_lt : ∀ i < img.nent, (img.dirs i).ft = 2 → (img.dirs i).ind < img.nnod

theorem readDentryFrom_some {fname : Memory} {n i : Nat} {d : Dentry}
    (h : img.readDentryFrom fname n i = some d) :
    ∃ j, i ≤ j ∧ j < i + n ∧ d = img.dirs (BitVec.ofNat 32 j) ∧
      strncmp fname d.name 32 = 0 := by
  induction n generalizing i with
  | zero => simp [readDentryFrom] at h
  | succ n ih =>
    simp only [readDentryFrom] at h
    split at h
    · rename_i same
      rw [Option.some_inj] at h
      exact ⟨i, le_rfl, by omega, h.symm, h ▸ same⟩
    · obtain ⟨j, hj, hn, hd⟩ := ih h
      exact ⟨j, by omega, by omega, hd⟩

theorem readDentryByName_some {fname : Memory} {d : Dentry}
    (h : img.readDentryByName fname = some d) :
    ∃ i < img.nent, d = img.dirs i ∧ strncmp fname d.name 32 = 0 := by
  obtain ⟨j, -, hn, hd⟩ := readDentryFrom_some img h
  refine ⟨BitVec.ofNat 32 j, ?_, hd⟩
  have small : j % 2 ^ 32 = j := Nat.mod_eq_of_lt (by omega)
  rw [BitVec.lt_def, BitVec.toNat_ofNat, small]
  omega

theorem readDentryByName_congr {f g : Memory} (h : SameString f g) :
    img.readDentryByName f = img.readDentryByName g := by
  have from_ : ∀ n i, img.readDentryFrom f n i = img.readDentryFrom g n i := by
    intro n
    induction n with
    | zero => exact fun _ => rfl
    | succ n ih =>
      intro i
      simp only [readDentryFrom, h.strncmp_iff, ih]
  exact from_ _ _

def ofCells (cells : List (Nat × Byte)) : Image := ⟨fun a => (cells.lookup a.toNat).getD 0⟩

/-- Three entries: the directory, the RTC, and a six-byte executable `shell`
whose entry names inode `ind`; inode 0 is the only one there is. -/
def sample (ind : Byte) : Image := ofCells
  [(0, 3), (4, 1), (8, 1), (64, 0x2E), (96, 1), (128, 0x72), (129, 0x74), (130, 0x63),
   (192, 0x73), (193, 0x68), (194, 0x65), (195, 0x6C), (196, 0x6C), (224, 2), (228, ind),
   (4096, 6), (8192, 0x7F), (8193, 0x45), (8194, 0x4C), (8195, 0x46), (8196, 0x41), (8197, 0x42)]

theorem sample_wellFormed : (sample 0).WellFormed where
  len_le nd h := by
    have one : (sample 0).nnod = 1 := by decide
    have h0 : nd = 0 := by rw [one] at h; bv_omega
    rw [h0]
    decide
  data_lt nd h k hk := by
    have one : (sample 0).nnod = 1 := by decide
    have h0 : nd = 0 := by rw [one] at h; bv_omega
    have six : ((sample 0).len 0).toNat = 6 := by decide
    rw [h0, six] at hk
    have k0 : k = 0 := by bv_omega
    rw [h0, k0]
    decide
  ft_le i h := by
    have three : (sample 0).nent = 3 := by decide
    have cases3 : i = 0 ∨ i = 1 ∨ i = 2 := by rw [three] at h; bv_omega
    rcases cases3 with rfl | rfl | rfl <;> decide
  ind_lt i h _ := by
    have three : (sample 0).nent = 3 := by decide
    have cases3 : i = 0 ∨ i = 1 ∨ i = 2 := by rw [three] at h; bv_omega
    rcases cases3 with rfl | rfl | rfl <;> decide

end Image

def shellName : List Byte := [0x73, 0x68, 0x65, 0x6C, 0x6C]

def shellText : Memory := CString.literal shellName fun _ => 0

end LumettaOS
