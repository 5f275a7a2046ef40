import LumettaOS.FileSystem

/-! Names in the directory. A stored name has up to 32 bytes, and no terminator when it
has all of them; `read_dentry_by_name` compares 32 bytes. -/

namespace LumettaOS
open Lib.Scan CString

namespace Dentry

/-- How long the name is: it ends at the first zero byte, or fills its 32 bytes. -/
def nameLen (d : Dentry) : Nat := scan (fun i => d.bytes i == 0) 32 0

def nameText (d : Dentry) : List Byte := (List.range d.nameLen).map d.bytes

variable (d : Dentry)

theorem nameLen_le : d.nameLen ≤ 32 := scan_le _ 32 0

@[simp] theorem length_nameText : d.nameText.length = d.nameLen := by simp [nameText]

theorem before_nameLen {i : Nat} (h : i < d.nameLen) : d.bytes i ≠ 0 := by
  have miss := scan_miss (p := fun i => d.bytes i == 0) 32 0 i (Nat.zero_le i) h
  simpa using miss

theorem at_nameLen (h : d.nameLen < 32) : d.bytes d.nameLen = 0 := by
  have hit := scan_hit (p := fun i => d.bytes i == 0) 32 0 (by simpa [nameLen] using h)
  simpa [nameLen] using hit

theorem nameLen_eq {n : Nat} (hn : n ≤ 32) (live : ∀ i, i < n → d.bytes i ≠ 0)
    (stop : n < 32 → d.bytes n = 0) : d.nameLen = n :=
  scan_eq 32 0 n (Nat.zero_le n) (by omega) (fun i _ hi => by simpa using live i hi)
    fun h => by simpa using stop (by omega)

theorem nameText_eq_iff {text : List Byte} (short : text.length ≤ 32)
    (live : ∀ b ∈ text, b ≠ 0) :
    d.nameText = text ↔ Holds d.bytes text ∧ (text.length < 32 → d.bytes text.length = 0) := by
  refine ⟨fun name => ?_, fun ⟨held, stop⟩ => ?_⟩
  · subst name
    refine ⟨fun i b hb => ?_, fun room => ?_⟩
    · obtain ⟨inside, value⟩ := List.getElem?_eq_some_iff.mp hb
      simpa [nameText] using value
    · rw [length_nameText] at room ⊢
      exact d.at_nameLen room
  · rw [nameText, nameLen_eq d short (fun i hi => live _ (held.at hi)) stop]
    exact held.map_range

theorem strncmp_name_iff {fname : Memory} {text : List Byte} (h : IsString fname text) :
    strncmp fname d.name 32 = 0 ↔ d.nameText = text.take 32 := by
  rw [strncmp_eq_zero_iff, h.samePrefix_iff, nameText_eq_iff d (by simp)
    fun b hb => h.live b (List.mem_of_mem_take hb)]
  refine and_congr_right fun _ => ?_
  rcases Nat.lt_or_ge text.length 32 with inside | long
  · rw [List.take_of_length_le inside.le]
    rfl
  · simp [Nat.not_lt.mpr long]

end Dentry

namespace Image

variable (img : Image)

def FirstNamed (text : List Byte) (d : Dentry) : Prop :=
  ∃ i < img.nent, d = img.dirs i ∧ d.nameText = text ∧ ∀ j < i, (img.dirs j).nameText ≠ text

def matchesAt (fname : Memory) (j : Nat) : Bool :=
  decide (strncmp fname (img.dirs (BitVec.ofNat 32 j)).name 32 = 0)

theorem readDentryFrom_eq (fname : Memory) (n i : Nat) :
    img.readDentryFrom fname n i =
      if scan (img.matchesAt fname) n i < i + n
      then some (img.dirs (BitVec.ofNat 32 (scan (img.matchesAt fname) n i))) else none := by
  induction n generalizing i with
  | zero => simp [readDentryFrom]
  | succ n ih =>
    rw [readDentryFrom, scan_succ]
    by_cases same : strncmp fname (img.dirs (BitVec.ofNat 32 i)).name 32 = 0
    · simp [matchesAt, same]
    · have bound : i + (n + 1) = i + 1 + n := by omega
      have other : img.matchesAt fname i = false := decide_eq_false same
      simp only [same, other, ih, if_false, Bool.false_eq_true, bound]

section

variable {img} {fname : Memory} {text : List Byte}

theorem matchesAt_iff (h : IsString fname text) (i : Word) :
    img.matchesAt fname i.toNat = true ↔ (img.dirs i).nameText = text.take 32 := by
  rw [matchesAt, BitVec.ofNat_toNat, BitVec.setWidth_eq, decide_eq_true_iff,
    Dentry.strncmp_name_iff _ h]

theorem readDentryByName_some_iff (h : IsString fname text) (d : Dentry) :
    img.readDentryByName fname = some d ↔ img.FirstNamed (text.take 32) d := by
  rw [readDentryByName, readDentryFrom_eq, Nat.zero_add, Option.ite_none_right_eq_some,
    Option.some_inj]
  refine ⟨fun ⟨inside, value⟩ => ?_, fun ⟨i, hi, value, same, first⟩ => ?_⟩
  · have hit := scan_hit (p := img.matchesAt fname) img.nent.toNat 0 (by omega)
    have miss := scan_miss (p := img.matchesAt fname) img.nent.toNat 0
    generalize scan (img.matchesAt fname) img.nent.toNat 0 = j at *
    have small : (BitVec.ofNat 32 j).toNat = j := by
      rw [BitVec.toNat_ofNat, Nat.mod_eq_of_lt (by omega)]
    refine ⟨BitVec.ofNat 32 j, ?_, value.symm, ?_, fun k hk => ?_⟩
    · rw [BitVec.lt_def, small]
      exact inside
    · rw [← value, ← matchesAt_iff h, small]
      exact hit
    · rw [BitVec.lt_def, small] at hk
      rw [Ne, ← matchesAt_iff h, miss k.toNat (Nat.zero_le _) hk]
      simp
  · have found : scan (img.matchesAt fname) img.nent.toNat 0 = i.toNat := by
      refine scan_eq img.nent.toNat 0 i.toNat (Nat.zero_le _) ?_ (fun j _ hj => ?_) fun _ => ?_
      · have below : i.toNat < img.nent.toNat := hi
        omega
      · have small : (BitVec.ofNat 32 j).toNat = j := by
          rw [BitVec.toNat_ofNat, Nat.mod_eq_of_lt (by omega)]
        have other := first (BitVec.ofNat 32 j) (by rw [BitVec.lt_def, small]; exact hj)
        rw [Ne, ← matchesAt_iff h, small] at other
        simpa using other
      · rw [matchesAt_iff h, ← value]
        exact same
    rw [found, BitVec.ofNat_toNat, BitVec.setWidth_eq]
    exact ⟨hi, value.symm⟩

theorem readDentryByName_none_iff (h : IsString fname text) :
    img.readDentryByName fname = none ↔ ∀ i < img.nent, (img.dirs i).nameText ≠ text.take 32 := by
  refine ⟨fun absent i hi same => ?_, fun other => ?_⟩
  · rw [readDentryByName, readDentryFrom_eq, Nat.zero_add] at absent
    have stop : scan (img.matchesAt fname) img.nent.toNat 0 ≤ i.toNat := by
      by_contra behind
      have miss := scan_miss img.nent.toNat 0 i.toNat (Nat.zero_le _) (Nat.lt_of_not_le behind)
      rw [(matchesAt_iff h i).mpr same] at miss
      simp at miss
    have below : i.toNat < img.nent.toNat := hi
    rw [if_pos (by omega)] at absent
    simp at absent
  · cases found : img.readDentryByName fname with
    | none => rfl
    | some d =>
      obtain ⟨i, hi, value, same, -⟩ := (readDentryByName_some_iff h d).mp found
      exact absurd (value ▸ same) (other i hi)

end

/-- The return value of `read_dentry_by_name`, and what is at `dent` behind it. -/
def readDentryInto (fname : Memory) (dent : Dentry) : Word × Dentry :=
  match img.readDentryByName fname with
  | none => (-1, dent)
  | some d => (0, d)

/-- The lookup goes by the whole string: it succeeds iff that is the name of an entry,
with the first such entry, and else leaves `dent` alone. -/
def ExactLookup (fname : Memory) (text : List Byte) : Prop :=
  ∀ dent, ((img.readDentryInto fname dent).1 = 0 ↔ ∃ i < img.nent, (img.dirs i).nameText = text) ∧
    ((img.readDentryInto fname dent).1 = 0 →
      img.FirstNamed text (img.readDentryInto fname dent).2) ∧
    ((img.readDentryInto fname dent).1 ≠ 0 → img.readDentryInto fname dent = (-1, dent))

section

variable {img} {fname : Memory} {text : List Byte}

theorem nameText_ne_of_long (d : Dentry) (long : 32 < text.length) : d.nameText ≠ text := by
  intro same
  have bound := d.nameLen_le
  rw [← d.length_nameText, same] at bound
  omega

/-- A lookup is exact, unless the string is longer than 32 bytes and begins with the
name of an entry that has all 32. -/
theorem lookup_exact_iff (h : IsString fname text) :
    img.ExactLookup fname text ↔
      (text.length ≤ 32 ∨ ∀ i < img.nent, (img.dirs i).nameText ≠ text.take 32) := by
  refine ⟨fun whole => ?_, fun usual dent => ?_⟩
  · by_contra unusual
    simp only [not_or, Nat.not_le] at unusual
    obtain ⟨long, full⟩ := unusual
    rw [← readDentryByName_none_iff h] at full
    obtain ⟨d, found⟩ := Option.ne_none_iff_exists'.mp full
    have zero : (img.readDentryInto fname d).1 = 0 := by simp [readDentryInto, found]
    obtain ⟨i, -, same⟩ := ((whole d).1).mp zero
    exact nameText_ne_of_long _ long same
  · cases found : img.readDentryByName fname with
    | none =>
      have other := (readDentryByName_none_iff h).mp found
      have absent : ¬ ∃ i < img.nent, (img.dirs i).nameText = text := by
        rintro ⟨i, hi, same⟩
        by_cases short : text.length ≤ 32
        · exact other i hi (by rw [same, List.take_of_length_le short])
        · exact nameText_ne_of_long _ (Nat.lt_of_not_le short) same
      simp [readDentryInto, found, absent]
    | some d =>
      have first := (readDentryByName_some_iff h d).mp found
      have short : text.length ≤ 32 := by
        refine usual.resolve_right fun other => ?_
        obtain ⟨i, hi, value, same, -⟩ := first
        exact other i hi (value ▸ same)
      rw [List.take_of_length_le short] at first
      obtain ⟨i, hi, value, same, -⟩ := id first
      have present : ∃ i < img.nent, (img.dirs i).nameText = text := ⟨i, hi, value ▸ same⟩
      simp [readDentryInto, found, first, present]

end

def longName : List Byte :=
  [0x76, 0x65, 0x72, 0x79, 0x6C, 0x61, 0x72, 0x67, 0x65, 0x74, 0x65, 0x78, 0x74, 0x77, 0x69, 0x74,
   0x68, 0x76, 0x65, 0x72, 0x79, 0x6C, 0x6F, 0x6E, 0x67, 0x6E, 0x61, 0x6D, 0x65, 0x2E, 0x74, 0x78]

def longNamed : Image :=
  ofCells ([(0, 2), (4, 1), (96, 2), (128, 0x2E), (160, 1)] ++
    (List.range 32).map fun k => (64 + k, longName.getD k 0))

theorem lookup_exact_iff_sample :
    longNamed.ExactLookup (literal longName fun _ => 0) longName :=
  (lookup_exact_iff (literal_isString (by decide) _)).mpr (Or.inl (by decide))

/-- The name with one more letter finds the same entry. -/
theorem extended_name_found :
    (longNamed.dirs 0).nameText = longName ∧
      IsString (literal (longName ++ [0x74]) fun _ => 0) (longName ++ [0x74]) ∧
      ¬ longNamed.ExactLookup (literal (longName ++ [0x74]) fun _ => 0) (longName ++ [0x74]) := by
  refine ⟨by decide, literal_isString (by decide) _, fun whole => ?_⟩
  have found : (longNamed.readDentryInto (literal (longName ++ [0x74]) fun _ => 0)
      (longNamed.dirs 0)).1 = 0 := by decide
  obtain ⟨i, -, same⟩ := ((whole _).1).mp found
  exact nameText_ne_of_long _ (by decide) same

end Image

end LumettaOS
