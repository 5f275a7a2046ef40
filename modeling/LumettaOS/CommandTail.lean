import LumettaOS.Launch

/-! Whether `sys_execute` depends on more than its command. The word loop runs over
the end of the string, and where it finds a space behind it the rest becomes the
argument of the program. -/

namespace LumettaOS.Execute
open Lib.Scan CString

def ReadsStringOnly (img : Image) (behind : Memory) (esp : Word) (f f' : Frame) (m : Machine)
    (command : Memory) : Prop :=
  ∀ command', SameString command command' →
    sysExecute img behind esp f f' command' m = sysExecute img behind esp f f' command m

/-- The command ends inside its first word, within the 32 bytes of the name. -/
def EndsInWord (command : Memory) : Prop :=
  ∃ z, 0 < z ∧ z < 32 ∧ command z = 0 ∧
    ∀ i, i < z → command i ≠ 0 ∧ command i ≠ 0x0A ∧ command i ≠ 0x20

def CanStart (img : Image) (m : Machine) (command : Memory) : Prop :=
  (∃ inode, findExecutable img command = some inode) ∧ freePcb m.pcbs ≠ 6

section

variable {img : Image} {behind : Memory} {esp : Word} {f f' : Frame} {m : Machine} {c : Memory}

theorem commandName_sameString_self {z : Nat} (hz : z < wordEnd c) (zero : c z = 0) :
    SameString (commandName c) c := by
  intro j live
  rcases Nat.lt_or_ge j (wordEnd c) with inside | outside
  · exact commandName_inside inside
  · exact absurd ((commandName_inside hz).trans zero) (live z (by omega))

theorem endsInWord_of_zero (start : c 0 ≠ 0) (h : ∃ i, i < wordEnd c ∧ c i = 0) :
    EndsInWord c := by
  have bound := wordEnd_le c
  obtain ⟨inside, zero⟩ := Nat.find_spec h
  have first : ∀ i, i < Nat.find h → c i ≠ 0 := fun i hi e =>
    Nat.find_min h hi ⟨by omega, e⟩
  have pos : 0 < Nat.find h := by
    by_contra e
    have e0 : Nat.find h = 0 := by omega
    rw [e0] at zero
    exact start zero
  exact ⟨Nat.find h, pos, by omega, zero, fun i hi => ⟨first i hi, before_wordEnd (by omega)⟩⟩

theorem EndsInWord.lt_wordEnd (h : EndsInWord c) : ∃ z, z < wordEnd c ∧ c z = 0 := by
  obtain ⟨z, -, h32, zero, word⟩ := h
  refine ⟨z, Execute.lt_wordEnd h32 fun i hi => ?_, zero⟩
  by_cases e : i = z
  · rw [e, zero]
    decide
  · exact (word i (by omega)).2

theorem startProgram_args {name : Memory} {inode : Word}
    (found : findExecutable img name = some inode) (free : freePcb m.pcbs ≠ 6) (args : Memory) :
    (startProgram img name args f m).map
        (fun r => (r.2.pcbs (Fin.ofNat 6 (freePcb m.pcbs))).args 0) = some (args 0) := by
  rcases Nat.lt_or_ge loadRoom (img.readData inode 0 Word.kernelStackBottom).2.length with
    long | fits
  · rw [startProgram_faults found free long, Option.map_some, reserve_pcb]
    exact congrArg some (strcpy_first _ _)
  · rw [startProgram_starts found free fits, Option.map_some, install_pcb]
    exact congrArg some (strcpy_first _ _)

theorem readsStringOnly_of (h : ¬ (EndsInWord c ∧ strncmp c quitName 4 ≠ 0 ∧ CanStart img m c)) :
    ReadsStringOnly img behind esp f f' m c := by
  intro c' same
  rcases parse_cases same with ⟨hc, hc'⟩ | ⟨hc, hc'⟩ | ⟨hc, hc'⟩
  · simp only [sysExecute, executeWith, hc, hc']
  · simp only [sysExecute, executeWith, hc, hc']
  · rw [sysExecute_program hc, sysExecute_program hc',
      ← startProgram_congr img (commandName_sameString same)]
    cases found : findExecutable img (commandName c) with
    | none => simp only [startProgram, found]
    | some inode =>
      simp only [startProgram, found]
      by_cases live : ∀ i, i < wordEnd c → c i ≠ 0
      · simp only [args_congr same live]
      · have full : freePcb m.pcbs = 6 := by
          by_contra free
          push Not at live
          obtain ⟨z, hz, zero⟩ := live
          have own := commandName_sameString_self hz zero
          obtain ⟨start, other⟩ := parse_program_iff.mp hc
          refine h ⟨endsInWord_of_zero ?_ ⟨z, hz, zero⟩, ?_, ⟨inode, ?_⟩, free⟩
          · rw [← own 0 (by simp)]
            exact start
          · exact fun e => other ((own.strncmp_iff quitName 4).mpr e)
          · rw [← findExecutable_congr img own]
            exact found
        simp only [launch, if_pos full]

def withTail (c : Memory) (z : Nat) (tail : Memory) : Memory := fun i =>
  if i ≤ z then c i else tail (i - z - 1)

theorem withTail_sameString {z : Nat} (zero : c z = 0) (tail : Memory) :
    SameString c (withTail c z tail) := by
  intro j live
  rcases Nat.lt_or_ge z j with behind | inside
  · exact absurd zero (live z behind)
  · exact (if_pos inside).symm

def staleTail : Memory := literal [0x20, 0x78] fun _ => 0

theorem withTail_word {z i : Nat} (zero : c z = 0)
    (word : ∀ i, i < z → c i ≠ 0 ∧ c i ≠ 0x0A ∧ c i ≠ 0x20) (tail : Memory) (hi : i ≤ z) :
    (withTail c z tail i == 0x0A || withTail c z tail i == 0x20) = false := by
  have inside : withTail c z tail i = c i := if_pos hi
  rw [inside]
  by_cases e : i = z
  · rw [e, zero]
    decide
  · simpa using (word i (by omega)).2

theorem withTail_clear {z : Nat} (h32 : z < 32) (zero : c z = 0)
    (word : ∀ i, i < z → c i ≠ 0 ∧ c i ≠ 0x0A ∧ c i ≠ 0x20) :
    args (withTail c z fun _ => 0) 0 = 0 := by
  have stop : wordEnd (withTail c z fun _ => 0) = 32 := by
    refine scan_eq 32 0 32 (by omega) le_rfl (fun i _ _ => ?_) fun h => absurd h (lt_irrefl _)
    rcases Nat.lt_or_ge z i with after | inside
    · simp [withTail, Nat.not_le.mpr after]
    · exact withTail_word zero word _ inside
  have behind : ¬ withTail c z (fun _ => 0) 32 = 0x20 := by
    simp [withTail, Nat.not_le.mpr h32]
  simp only [args, stop, if_neg behind]

theorem withTail_stale {z : Nat} (h32 : z < 32) (zero : c z = 0)
    (word : ∀ i, i < z → c i ≠ 0 ∧ c i ≠ 0x0A ∧ c i ≠ 0x20) :
    args (withTail c z staleTail) 0 = 0x78 := by
  have space : withTail c z staleTail (z + 1) = 0x20 := by simp [withTail, staleTail, literal]
  have letter : withTail c z staleTail (z + 2) = 0x78 := by simp [withTail, staleTail, literal]
  have stop : wordEnd (withTail c z staleTail) = z + 1 := by
    refine scan_eq 32 0 (z + 1) (by omega) (by omega) (fun i _ hi => ?_) fun _ => by simp [space]
    exact withTail_word zero word _ (by omega)
  have start : argStart (withTail c z staleTail) = z + 2 := by
    rw [argStart, stop]
    refine scan_eq _ _ (z + 2) (by omega) (by omega) (fun i hl hi => ?_) fun _ => by simp [letter]
    have first : i = z + 1 := by omega
    simp [first, space]
  have copied : 0 < argLen (withTail c z staleTail) := by
    refine lt_scan _ 0 (by decide) ?_
    have room : ¬ 128 ≤ z + 2 := by omega
    simp [start, letter, room]
  simp only [args, stop, start, if_pos space, if_pos copied, Nat.add_zero, letter]

theorem not_readsStringOnly (ends : EndsInWord c) (other : strncmp c quitName 4 ≠ 0)
    (can : CanStart img m c) : ¬ ReadsStringOnly img behind esp f f' m c := by
  intro only
  obtain ⟨⟨inode, found⟩, free⟩ := can
  obtain ⟨z₀, hz₀, zero₀⟩ := ends.lt_wordEnd
  have own := commandName_sameString_self hz₀ zero₀
  obtain ⟨z, pos, h32, zero, word⟩ := ends
  have program : parse c = .program (commandName c) (args c) := by
    refine parse_program_iff.mpr ⟨?_, fun e => other ((own.strncmp_iff quitName 4).mp e)⟩
    rw [own 0 (by simp)]
    exact (word 0 pos).1
  have stored : ∀ tail, (sysExecute img behind esp f f' (withTail c z tail) m).map
      (fun r => (r.2.pcbs (Fin.ofNat 6 (freePcb m.pcbs))).args 0) =
        some (args (withTail c z tail) 0) := by
    intro tail
    have same := withTail_sameString zero tail
    rcases parse_cases same with ⟨h, -⟩ | ⟨h, -⟩ | ⟨-, h⟩
    · exact absurd (h.symm.trans program) (by simp)
    · exact absurd (h.symm.trans program) (by simp)
    · rw [sysExecute_program h, ← startProgram_congr img (commandName_sameString same),
        startProgram_congr img own]
      exact startProgram_args found free _
  have equal := (only _ (withTail_sameString zero fun _ => 0)).trans
    (only _ (withTail_sameString zero staleTail)).symm
  have first := (stored fun _ => 0).symm.trans ((congrArg _ equal).trans (stored staleTail))
  rw [withTail_clear h32 zero word, withTail_stale h32 zero word] at first
  simp at first

/-- `sys_execute` depends on its command alone, except where the command is a single
word that names a program and a block is free: then what lies behind it reaches the
arguments in that block, also where the load of the program faults. -/
theorem readsStringOnly_iff :
    ReadsStringOnly img behind esp f f' m c ↔
      ¬ (EndsInWord c ∧ strncmp c quitName 4 ≠ 0 ∧ CanStart img m c) :=
  ⟨fun only ⟨ends, other, can⟩ => not_readsStringOnly ends other can only, readsStringOnly_of⟩

end

/-- The tail of an earlier command becomes the argument of `shell`. -/
theorem stale_bytes_reach_args :
    ¬ ReadsStringOnly (Image.sample 0) (fun _ => 0) 0x7FFE00 ⟨0x7FFE80, 0⟩ ⟨0x7FFD00, 0⟩
      System.coldStart shellText := by
  intro only
  have equal := only _ (literal_sameString shellName (fun _ => 0) staleTail)
  have first := congrArg (Option.map fun r => (r.2.pcbs 0).args 0) equal
  revert first
  decide +kernel

end LumettaOS.Execute
