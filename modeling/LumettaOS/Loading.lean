import LumettaOS.Lib.ByteLoop
import LumettaOS.Launch

/-! Loading a program: which commands `sys_execute` refuses, what it leaves behind when
it does not, and where the bytes of the file go. -/

namespace LumettaOS.Execute
open Lib.Scan Lib.ByteLoop CString

def elfMagic : List Byte := [0x7F, 0x45, 0x4C, 0x46]

section Header

variable {img : Image} {nd : Word}

theorem exe_absent (h : img.nnod ≤ nd) (k : Nat) : exe img nd k = 0 := by
  rw [exe, img.readData_absent nd 0 40 h]
  rfl

theorem exe_present (h : nd < img.nnod) {k : Nat} (hk : k < 40) :
    exe img nd k = (img.content nd)[k]?.getD 0 := by
  have size : (40 : Word).toNat = 40 := rfl
  rw [exe, img.readData_from_start nd 40 h, size, List.getD_eq_getElem?_getD,
    List.getElem?_take, if_pos hk]

theorem exe_magic_iff :
    strncmp (exe img nd) checkExe 4 = 0 ↔
      nd < img.nnod ∧ (img.content nd).take 4 = elfMagic := by
  have live : ∀ j, j < 4 → checkExe j ≠ 0 := by decide
  have letters : ∀ j, j < 4 → elfMagic[j]? = some (checkExe j) := by decide
  rw [strncmp_eq_zero_iff]
  refine ⟨fun same => ?_, fun ⟨present, magic⟩ j hj _ => ?_⟩
  · have equal := same.eq_of_live live
    have present : nd < img.nnod := by
      by_contra absent
      refine live 0 (by omega) ?_
      rw [← equal 0 (by omega), exe_absent (by bv_omega)]
    refine ⟨present, List.ext_getElem? fun j => ?_⟩
    rcases Nat.lt_or_ge j 4 with low | high
    · have byte := equal j low
      rw [exe_present present (by omega)] at byte
      rw [List.getElem?_take, if_pos low, letters j low]
      cases found : (img.content nd)[j]? with
      | none => exact absurd (by rw [← byte, found]; rfl) (live j low)
      | some b => rw [← byte, found]; rfl
    · rw [List.getElem?_take, if_neg (by omega), List.getElem?_eq_none high]
  · have byte := letters j hj
    rw [← magic, List.getElem?_take, if_pos hj] at byte
    rw [exe_present present (by omega), byte]
    rfl

theorem entryPoint_toNat (e : Memory) :
    (entryPoint e).toNat = (e 24).toNat + 2 ^ 8 * (e 25).toNat + 2 ^ 16 * (e 26).toNat +
      2 ^ 24 * (e 27).toNat := by
  have h24 := (e 24).isLt
  have h25 := (e 25).isLt
  have h26 := (e 26).isLt
  have h27 := (e 27).isLt
  simp only [entryPoint, BitVec.toNat_add, BitVec.toNat_shiftLeft, BitVec.toNat_setWidth,
    Nat.shiftLeft_eq]
  omega

end Header

section Lookup

variable {img : Image} {name : Memory} {text : List Byte}

def IsExecutable (img : Image) (d : Dentry) : Prop :=
  d.ft = 2 ∧ d.ind < img.nnod ∧ (img.content d.ind).take 4 = elfMagic

theorem findExecutable_some_iff (h : IsString name text) (inode : Word) :
    findExecutable img name = some inode ↔
      ∃ d, img.FirstNamed (text.take 32) d ∧ IsExecutable img d ∧ inode = d.ind := by
  simp only [← Image.readDentryByName_some_iff h, IsExecutable, ← exe_magic_iff]
  rw [findExecutable]
  cases img.readDentryByName name with
  | none => simp
  | some d =>
    simp only [Option.some_inj, Option.ite_none_left_eq_some, not_not, exists_eq_left']
    constructor
    · rintro ⟨ft, magic, e⟩
      exact ⟨⟨ft, magic⟩, e.symm⟩
    · rintro ⟨⟨ft, magic⟩, e⟩
      exact ⟨ft, magic, e.symm⟩

theorem findExecutable_none_iff (h : IsString name text) :
    findExecutable img name = none ↔
      (∀ i < img.nent, (img.dirs i).nameText ≠ text.take 32) ∨
      ∃ d, img.FirstNamed (text.take 32) d ∧ ¬ IsExecutable img d := by
  simp only [← Image.readDentryByName_none_iff h, ← Image.readDentryByName_some_iff h,
    IsExecutable, ← exe_magic_iff]
  rw [findExecutable]
  cases img.readDentryByName name with
  | none => simp
  | some d =>
    simp only [reduceCtorEq, false_or, Option.some_inj, exists_eq_left', not_and_or]
    split_ifs <;> simp_all

theorem findExecutable_command_iff {c : Memory} {w : List Byte} (first : FirstWord c w)
    (inode : Word) :
    findExecutable img (commandName c) = some inode ↔
      ∃ d, img.FirstNamed (w.take 32) d ∧ IsExecutable img d ∧ inode = d.ind := by
  rw [findExecutable_some_iff first.commandName_isString, List.take_take, min_self]

end Lookup

def Outcome.reached : Outcome → List Word
  | .starts _ _ stores => stores.map Prod.fst
  | .faults stores address => stores.map Prod.fst ++ [address]
  | _ => []

/-- The addresses that `sys_execute` stores to while it loads a program; what stands on
its stack and what `sys_halt` does are no part of that. -/
def loadStores (img : Image) (command : Memory) (m : Machine) : List Word :=
  ((executeWith (fun _ => none) img command ⟨0, 0⟩ m).map fun r => r.1.reached).getD []

def InProgramPage (a : Word) : Prop := Word.mb128 + Word.procOffset ≤ a ∧ a < Word.mb132

instance instDecidableInProgramPage (a : Word) : Decidable (InProgramPage a) :=
  inferInstanceAs (Decidable (_ ∧ _))

/-- The command gets as far as loading this file. -/
structure Loads (img : Image) (command : Memory) (m : Machine) (inode : Word) : Prop where
  program : parse command = .program (commandName command) (args command)
  found : findExecutable img (commandName command) = some inode
  free : freePcb m.pcbs ≠ 6

section Stores

variable {img : Image} {command : Memory} {m : Machine} {inode : Word}

theorem findExecutable_present {name : Memory} (h : findExecutable img name = some inode) :
    inode < img.nnod := by
  rw [findExecutable] at h
  cases found : img.readDentryByName name with
  | none => simp [found] at h
  | some d =>
    simp only [found, Option.ite_none_left_eq_some, not_not, exe_magic_iff, Option.some_inj] at h
    rw [← h.2.2]
    exact h.2.1.1

theorem loaded_take (present : inode < img.nnod) :
    (img.readData inode 0 Word.kernelStackBottom).2 = (img.content inode).take (1023 * 4096) :=
  img.readData_from_start inode Word.kernelStackBottom present

/-- The length asked for is that of the longest file, so a file is loaded whole. -/
theorem loaded_eq (present : inode < img.nnod) (format : (img.len inode).toNat ≤ 1023 * 4096) :
    (img.readData inode 0 Word.kernelStackBottom).2 = img.content inode := by
  rw [loaded_take present]
  refine List.take_of_length_le ?_
  rw [Image.length_content]
  exact format

theorem loaded_fits_iff (present : inode < img.nnod) :
    (img.readData inode 0 Word.kernelStackBottom).2.length ≤ loadRoom ↔
      (img.len inode).toNat ≤ 0x400000 - 0x48000 := by
  have room : loadRoom = 0x400000 - 0x48000 := rfl
  rw [loaded_take present, room, List.length_take, Image.length_content]
  omega

theorem programStores_addrs (img : Image) (inode : Word) :
    (programStores img inode).map Prod.fst =
      (List.range (img.readData inode 0 Word.kernelStackBottom).2.length).map loadAddr := by
  refine List.ext_getElem (by simp) fun i hi _ => ?_
  simp [programStores]

theorem startProgram_outcome (img : Image) (name args : Memory) (f g : Frame) (m : Machine) :
    (startProgram img name args f m).map Prod.fst =
      (startProgram img name args g m).map Prod.fst := by
  cases found : findExecutable img name with
  | none => simp only [startProgram, found]
  | some inode =>
    simp only [startProgram, found, launch]
    split
    · rfl
    · split
      · rfl
      · rfl

theorem sysExecute_reached {behind : Memory} {esp : Word} {f f' : Frame} {o : Outcome}
    {m' : Machine} (other : parse command ≠ .quit)
    (call : sysExecute img behind esp f f' command m = some (o, m')) :
    loadStores img command m = o.reached := by
  cases program : parse command with
  | empty =>
    simp only [sysExecute, executeWith, program, Option.some_inj, Prod.mk.injEq] at call
    simp only [loadStores, executeWith, program, ← call.1]
    rfl
  | quit => exact absurd program other
  | program name args =>
    have same := startProgram_outcome img name args ⟨0, 0⟩ f m
    rw [sysExecute_program program] at call
    rw [call] at same
    obtain ⟨r, there, first⟩ := Option.map_eq_some_iff.mp same
    simp only [loadStores, executeWith, program, there, Option.map_some, Option.getD_some, first]

theorem loadStores_eq (loads : Loads img command m inode) :
    loadStores img command m = (List.range (min (loadRoom + 1)
      (img.readData inode 0 Word.kernelStackBottom).2.length)).map loadAddr := by
  simp only [loadStores, executeWith, loads.program]
  rcases Nat.lt_or_ge loadRoom (img.readData inode 0 Word.kernelStackBottom).2.length with
    long | fits
  · have made : ((programStores img inode).take loadRoom).map Prod.fst =
        (List.range loadRoom).map loadAddr := by
      rw [List.map_take, programStores_addrs, ← List.map_take, List.take_range,
        min_eq_left long.le]
    rw [startProgram_faults loads.found loads.free long, min_eq_left (by omega),
      List.range_succ, List.map_append, List.map_singleton, ← made]
    rfl
  · rw [startProgram_starts loads.found loads.free fits, min_eq_right (by omega)]
    exact programStores_addrs img inode

theorem loaded_le (img : Image) (inode : Word) :
    (img.readData inode 0 Word.kernelStackBottom).2.length ≤ 1023 * 4096 := by
  by_cases present : inode < img.nnod
  · rw [loaded_take present]
    exact List.length_take_le _ _
  · rw [img.readData_absent inode 0 _ (by bv_omega)]
    exact Nat.zero_le _

theorem length_loaded (present : inode < img.nnod)
    (format : (img.len inode).toNat ≤ 1023 * 4096) :
    (img.readData inode 0 Word.kernelStackBottom).2.length = (img.len inode).toNat := by
  rw [loaded_eq present format, Image.length_content]

theorem loadAddr_toNat {i : Nat} (h : i < 1023 * 4096) :
    (loadAddr i).toNat = 0x8048000 + i := by
  simp only [loadAddr, Word.mb128, Word.procOffset, BitVec.toNat_add, BitVec.toNat_ofNat,
    BitVec.ofNat_eq_ofNat]
  omega

theorem inProgramPage_iff (a : Word) :
    InProgramPage a ↔ 0x8048000 ≤ a.toNat ∧ a.toNat < 0x8400000 := Iff.rfl

/-- Loading keeps to the program page exactly for the files that fit behind the offset. -/
theorem loading_inside_page_iff (loads : Loads img command m inode)
    (format : (img.len inode).toNat ≤ 1023 * 4096) :
    (∀ a ∈ loadStores img command m, InProgramPage a) ↔
      (img.len inode).toNat ≤ 0x400000 - 0x48000 := by
  have room : loadRoom = 0x400000 - 0x48000 := rfl
  rw [loadStores_eq loads, length_loaded (findExecutable_present loads.found) format]
  simp only [List.forall_mem_map, List.mem_range, inProgramPage_iff]
  refine ⟨fun inside => ?_, fun fits i hi => ?_⟩
  · by_contra long
    have last := (inside (0x400000 - 0x48000) (by omega)).2
    rw [loadAddr_toNat (by omega)] at last
    omega
  · rw [loadAddr_toNat (by omega)]
    omega

theorem sample_loads :
    Loads (Image.sample 0) shellText System.coldStart 0 :=
  ⟨parse_shellText, by decide, by decide⟩

theorem loading_inside_page_iff_sample :
    (loadStores (Image.sample 0) shellText System.coldStart).length = 6 ∧
      ∀ a ∈ loadStores (Image.sample 0) shellText System.coldStart, InProgramPage a :=
  ⟨by decide, (loading_inside_page_iff sample_loads (by decide)).mpr (by decide)⟩

def longProgram : Image :=
  ⟨Function.update (Function.update (Function.update (Image.sample 0).byte
    4096 0x01) 4097 0x80) 4098 0x3B⟩

/-- The last byte goes to 132MB, and the call does not come back. -/
theorem long_program_leaves_page :
    (longProgram.len 0).toNat = 0x400000 - 0x48000 + 1 ∧
      Loads longProgram shellText System.coldStart 0 ∧
      Word.mb132 ∈ loadStores longProgram shellText System.coldStart ∧
      ¬ InProgramPage Word.mb132 ∧
      ∀ behind esp f f', ∃ stores m',
        sysExecute longProgram behind esp f f' shellText System.coldStart =
          some (.faults stores Word.mb132, m') := by
  have len : (longProgram.len 0).toNat = 0x400000 - 0x48000 + 1 := by decide
  have loads : Loads longProgram shellText System.coldStart 0 :=
    ⟨parse_shellText, by decide, by decide⟩
  have present := findExecutable_present loads.found
  refine ⟨len, loads, ?_, by decide, fun behind esp f f' => ?_⟩
  · rw [loadStores_eq loads, length_loaded present (by omega), len]
    exact List.mem_map.mpr ⟨0x400000 - 0x48000, List.mem_range.mpr (by decide), by decide⟩
  · have long : loadRoom < (longProgram.readData 0 0 Word.kernelStackBottom).2.length := by
      rw [length_loaded present (by omega), len]
      decide
    have behind_page : loadAddr loadRoom = Word.mb132 := by decide
    rw [sysExecute_program loads.program, startProgram_faults loads.found loads.free long,
      behind_page]
    exact ⟨_, _, rfl⟩

end Stores

section AllOrNothing

def Refuses (img : Image) (m : Machine) (w : List Byte) : Prop :=
  (∀ i < img.nent, (img.dirs i).nameText ≠ w) ∨
  (∃ d, img.FirstNamed w d ∧
    (d.ft ≠ 2 ∨ img.nnod ≤ d.ind ∨ (img.content d.ind).take 4 ≠ elfMagic)) ∨
  ∀ k, (m.pcbs k).active ≠ 0

def FilesFit (img : Image) : Prop :=
  ∀ i < img.nent, (img.dirs i).ft = 2 → (img.dirs i).ind < img.nnod →
    (img.len (img.dirs i).ind).toNat ≤ 0x400000 - 0x48000

/-- A program that was started: its block is the least free one and no other block has
changed, its page is that block's memory and holds the file from 0x48000 on, and the
entry point is that of the header. -/
structure StartsFile (img : Image) (d : Dentry) (args : Memory) (m : Machine) (k : Fin 6)
    (e : Word) (stores : List (Word × Byte)) (m' : Machine) : Prop where
  free : (m.pcbs k).active = 0
  least : ∀ j < k, (m.pcbs j).active ≠ 0
  active : (m'.pcbs k).active = 1
  pid : (m'.pcbs k).pid = BitVec.ofNat 32 k.val
  parentPid : (m'.pcbs k).parentPid = BitVec.ofNat 32 k.val - 1
  args : (m'.pcbs k).args = strcpy (m.pcbs k).args args
  table : (m'.pcbs k).fileDescTb = newTable (m.pcbs k).fileDescTb
  others : ∀ j, j ≠ k → m'.pcbs j = m.pcbs j
  ss0 : m'.tss.ss0 = kernelDs
  esp0 : m'.tss.esp0.toNat = 0x800000 - k.val * 0x2000 - 4
  mapped : ∀ v : Word, 0x8000000 ≤ v.toNat → v.toNat < 0x8400000 →
    Paging.translate m'.paging v =
      some ⟨0x800000 + 0x400000 * k.val + (v.toNat - 0x8000000), true, true⟩
  pageDir : ∀ i, i ≠ 32 → m'.paging.pageDir i = m.paging.pageDir i
  file : ∀ (old : Word → Byte) (v : Word), 0x8048000 ≤ v.toNat →
    v.toNat < 0x8048000 + (img.len d.ind).toNat →
    (img.content d.ind)[v.toNat - 0x8048000]? = some (storeAll stores old v)
  rest : ∀ (old : Word → Byte) (v : Word),
    v.toNat < 0x8048000 ∨ 0x8048000 + (img.len d.ind).toNat ≤ v.toNat →
    storeAll stores old v = old v
  entry : e.toNat = ((img.content d.ind)[24]?.getD 0).toNat +
    2 ^ 8 * ((img.content d.ind)[25]?.getD 0).toNat +
    2 ^ 16 * ((img.content d.ind)[26]?.getD 0).toNat +
    2 ^ 24 * ((img.content d.ind)[27]?.getD 0).toNat

section Page

variable {img : Image} {nd : Word}

theorem programStores_nodup (img : Image) (nd : Word) :
    ((programStores img nd).map Prod.fst).Nodup := by
  rw [programStores_addrs]
  refine List.Nodup.map_on (fun i hi j hj e => ?_) List.nodup_range
  have bound := loaded_le img nd
  have same := congrArg BitVec.toNat e
  rw [List.mem_range] at hi hj
  rw [loadAddr_toNat (by omega), loadAddr_toNat (by omega)] at same
  omega

theorem storeAll_file (present : nd < img.nnod) (fits : (img.len nd).toNat ≤ 0x400000 - 0x48000)
    (old : Word → Byte) {v : Word} (low : 0x8048000 ≤ v.toNat)
    (high : v.toNat < 0x8048000 + (img.len nd).toNat) :
    (img.content nd)[v.toNat - 0x8048000]? = some (storeAll (programStores img nd) old v) := by
  have inside : v.toNat - 0x8048000 < (img.content nd).length := by
    rw [Image.length_content]
    omega
  have place : loadAddr (v.toNat - 0x8048000) = v := by
    apply BitVec.eq_of_toNat_eq
    rw [loadAddr_toNat (by omega)]
    omega
  rw [List.getElem?_eq_getElem inside, Option.some_inj]
  refine (storeAll_of_mem old (programStores_nodup img nd) ?_).symm
  rw [programStores, loaded_eq present (by omega), List.mem_mapIdx]
  exact ⟨_, inside, by rw [place]⟩

theorem storeAll_rest (present : nd < img.nnod) (fits : (img.len nd).toNat ≤ 0x400000 - 0x48000)
    (old : Word → Byte) {v : Word}
    (outside : v.toNat < 0x8048000 ∨ 0x8048000 + (img.len nd).toNat ≤ v.toNat) :
    storeAll (programStores img nd) old v = old v := by
  refine storeAll_other old fun s hs e => ?_
  have there := List.mem_map_of_mem (f := Prod.fst) hs
  rw [programStores_addrs, length_loaded present (by omega), List.mem_map] at there
  obtain ⟨i, hi, he⟩ := there
  rw [List.mem_range] at hi
  rw [e, ← he, loadAddr_toNat (by omega)] at outside
  omega

end Page

variable {img : Image} {m : Machine} {c : Memory} {w : List Byte}

theorem refuses_iff (first : FirstWord c w) (short : w.length ≤ 32) :
    Refuses img m w ↔ findExecutable img (commandName c) = none ∨ freePcb m.pcbs = 6 := by
  rw [findExecutable_none_iff first.commandName_isString, List.take_take, min_self,
    List.take_of_length_le short, freePcb_full_iff, or_assoc, Refuses]
  simp only [IsExecutable, not_and_or, BitVec.not_lt]

/-- A command starts the file that its first word names, in full and in the least free
block, or it returns -1 and nothing has changed. -/
theorem execute_all_or_nothing (fit : FilesFit img) (first : FirstWord c w) (nonempty : w ≠ [])
    (short : w.length ≤ 32) (other : ¬ quitWord <+: w) (behind : Memory) (esp : Word)
    (f f' : Frame) (m : Machine) :
    ∃ o m', sysExecute img behind esp f f' c m = some (o, m') ∧
      (o = .returns (-1) ↔ Refuses img m w) ∧
      (Refuses img m w → m'.pcbs = m.pcbs ∧
        m'.paging.pageDir 32 = m.paging.pageDir 32 ∧ m'.tss = m.tss) ∧
      (¬ Refuses img m w → ∃ d k e stores, img.FirstNamed w d ∧ o = .starts k e stores ∧
        StartsFile img d (args c) m k e stores m') := by
  have program : parse c = .program (commandName c) (args c) := by
    rw [first.parse_eq, if_neg nonempty, if_neg other]
  rw [sysExecute_program program]
  by_cases refuses : Refuses img m w
  · have nothing := startProgram_refused ((refuses_iff first short).mp refuses) (args c) f
    exact ⟨_, _, nothing, by simp [refuses], fun _ => ⟨rfl, rfl, rfl⟩,
      fun starts => absurd refuses starts⟩
  · obtain ⟨some_, free⟩ := not_or.mp (mt (refuses_iff first short).mpr refuses)
    obtain ⟨inode, found⟩ := Option.ne_none_iff_exists'.mp some_
    obtain ⟨d, named, executable, rfl⟩ := (findExecutable_command_iff first inode).mp found
    rw [List.take_of_length_le short] at named
    have fits : (img.len d.ind).toNat ≤ 0x400000 - 0x48000 := by
      obtain ⟨i, hi, rfl, -, -⟩ := named
      exact fit i hi executable.1 executable.2.1
    have starts := startProgram_starts found free ((loaded_fits_iff executable.2.1).mpr fits)
      (args c) f
    refine ⟨_, _, starts, by simp [refuses], fun r => absurd r refuses, fun _ => ?_⟩
    refine ⟨d, _, _, _, named, rfl, ?_⟩
    exact {
      free := (freePcb_least free).1
      least := (freePcb_least free).2
      active := by rw [install_pcb]; rfl
      pid := by rw [install_pcb]; rfl
      parentPid := by rw [install_pcb]; rfl
      args := by rw [install_pcb]; rfl
      table := by rw [install_pcb]; rfl
      others := fun j hj => install_pcb_other _ _ _ _ hj
      ss0 := rfl
      esp0 := esp0Of_toNat _
      mapped := fun v low high => Paging.translate_slot (install_pageDir _ _ _ _) low high
      pageDir := fun i hi => Paging.chgDir_other hi _ _
      file := fun old v low high => storeAll_file executable.2.1 fits old low high
      rest := fun old v outside => storeAll_rest executable.2.1 fits old outside
      entry := by
        rw [entryPoint_toNat, exe_present executable.2.1 (by decide),
          exe_present executable.2.1 (by decide), exe_present executable.2.1 (by decide),
          exe_present executable.2.1 (by decide)] }

theorem sample_filesFit : FilesFit (Image.sample 0) := by
  intro i hi _ ind
  have one : (Image.sample 0).nnod = 1 := by decide
  have zero : ((Image.sample 0).dirs i).ind = 0 := by rw [one] at ind; bv_omega
  rw [zero]
  decide

theorem shellText_firstWord : FirstWord shellText shellName where
  holds := holds_literal _ _
  plain := by decide
  stop := Or.inl (by decide)

theorem execute_all_or_nothing_sample :
    ∃ o m', sysExecute (Image.sample 0) (fun _ => 0) 0x7FFE00 ⟨0x7FFE80, 0⟩ ⟨0x7FFD00, 0⟩
        shellText System.coldStart = some (o, m') ∧
      ¬ Refuses (Image.sample 0) System.coldStart shellName ∧ o ≠ .returns (-1) := by
  have free : ¬ Refuses (Image.sample 0) System.coldStart shellName := by
    rw [refuses_iff shellText_firstWord (by decide)]
    decide
  obtain ⟨o, m', call, refused, -⟩ := execute_all_or_nothing sample_filesFit shellText_firstWord
    (by decide) (by decide) (by decide) (fun _ => 0) 0x7FFE00 ⟨0x7FFE80, 0⟩ ⟨0x7FFD00, 0⟩
    System.coldStart
  exact ⟨o, m', call, free, fun e => free (refused.mp e)⟩

end AllOrNothing

end LumettaOS.Execute
