import LumettaOS.Lib.BitField
import LumettaOS.Word

/-! Paging (paging.c and paging.h). `union dirEntry` and `union tblEntry` are one
word; the members of the three packed structures are its bit-fields. The processor
finds a page table by its frame number, so the state holds every physical frame
as it would be read as a table; `table` is the address of the one static table. -/

namespace LumettaOS
open Lib.BitField

/-- `pageDir`, and each 4KB frame read as a page table. -/
structure PageTables where
  pageDir : BitVec 10 → Word
  frames : BitVec 20 → BitVec 10 → Word

namespace Paging

section

variable (e : Word)

def p : BitVec 1 := getField e 0 1
def rw : BitVec 1 := getField e 1 1
def us : BitVec 1 := getField e 2 1
def ps : BitVec 1 := getField e 7 1
/-- `whole.add_32_39`, physical address bits beyond the 32 of an address. -/
def add3239 : BitVec 8 := getField e 13 8
def add2231 : BitVec 10 := getField e 22 10
def add : BitVec 20 := getField e 12 20

end

def frameOf (table : Word) : BitVec 20 := getField table 12 20

def spawnDir (s : PageTables) : PageTables := { s with pageDir := fun _ => 0 }

def spawnTbl (tab : BitVec 20) (s : PageTables) : PageTables :=
  { s with frames := Function.update s.frames tab fun _ => 0 }

def setTbl (tab : BitVec 20) (i : BitVec 10) (e : Word) (s : PageTables) : PageTables :=
  { s with frames := Function.update s.frames tab (Function.update (s.frames tab) i e) }

def chgDir (idx : BitVec 10) (e : Word) (s : PageTables) : PageTables :=
  { s with pageDir := Function.update s.pageDir idx e }

@[simp] theorem chgDir_same (idx : BitVec 10) (e : Word) (s : PageTables) :
    (chgDir idx e s).pageDir idx = e := by simp [chgDir]

theorem chgDir_other {idx d : BitVec 10} (h : d ≠ idx) (e : Word) (s : PageTables) :
    (chgDir idx e s).pageDir d = s.pageDir d := by simp [chgDir, h]

def vidPg (i : Nat) : Word := setField (7 : Word) 12 (BitVec.ofNat 20 i)

def vidTable (table : Word) : Word := table ||| 3

def kernelEntry : Word :=
  let kernel : Word := 0
  let kernel := setField kernel 0 (1 : BitVec 1)
  let kernel := setField kernel 1 (1 : BitVec 1)
  let kernel := setField kernel 7 (1 : BitVec 1)
  let kernel := setField kernel 8 (1 : BitVec 1)
  setField kernel 22 (0x1 : BitVec 10)

def pageInit (table : Word) (s : PageTables) : PageTables :=
  let s := spawnTbl (frameOf table) s
  let s := (List.range' 0xB8 (0xC0 - 0xB8)).foldl
    (fun s i => setTbl (frameOf table) (BitVec.ofNat 10 i) (vidPg i) s) s
  let s := spawnDir s
  let s := chgDir 0 (vidTable table) s
  let s := chgDir 1 kernelEntry s
  chgDir 33 (setField (vidTable table) 2 (1 : BitVec 1)) s

def progEntry (pid : Word) : Word :=
  let d : Word := 7
  let d := setField d 7 (1 : BitVec 1)
  setField d 22 (((Word.mb8 + Word.mb4 * pid) >>> 22).setWidth 10)

def mapProg (s : PageTables) (pid : Word) : PageTables := chgDir 32 (progEntry pid) s

structure Mapping where
  phys : Nat
  user : Bool
  write : Bool
  deriving DecidableEq

/-- The two-level translation with page size extensions; `none` is not present. -/
def translate (s : PageTables) (v : Word) : Option Mapping :=
  let pde := s.pageDir (getField v 22 10)
  if p pde = 0 then none
  else if ps pde = 1 then
    some ⟨(add3239 pde).toNat * 2 ^ 32 + (add2231 pde).toNat * 2 ^ 22 + v.toNat % 2 ^ 22,
      us pde = 1, rw pde = 1⟩
  else
    let pte := s.frames (add pde) (getField v 12 10)
    if p pte = 0 then none
    else some ⟨(add pte).toNat * 2 ^ 12 + v.toNat % 2 ^ 12,
      us pde = 1 ∧ us pte = 1, rw pde = 1 ∧ rw pte = 1⟩

def addressMap (pid : Nat) (v : Word) : Option Mapping :=
  if 0x400000 ≤ v.toNat ∧ v.toNat < 0x800000 then some ⟨v.toNat, false, true⟩
  else if 0xB8000 ≤ v.toNat ∧ v.toNat < 0xC0000 then some ⟨v.toNat, false, true⟩
  else if 0x8000000 ≤ v.toNat ∧ v.toNat < 0x8400000 then
    some ⟨0x800000 + 0x400000 * pid + (v.toNat - 0x8000000), true, true⟩
  else if 0x8400000 + 0xB8000 ≤ v.toNat ∧ v.toNat < 0x8400000 + 0xC0000 then
    some ⟨v.toNat - 0x8400000, true, true⟩
  else none

/-- The kernel can access the address; elsewhere it faults. -/
def Mapped (s : PageTables) (v : Word) : Prop := translate s v ≠ none

instance instDecidableMapped (s : PageTables) (v : Word) : Decidable (Mapped s v) :=
  inferInstanceAs (Decidable (_ ≠ _))

def UserReaches (s : PageTables) (a : Nat) : Prop :=
  ∃ v m, translate s v = some m ∧ m.user = true ∧ m.phys = a

end Paging

end LumettaOS
