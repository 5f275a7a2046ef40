import LumettaOS.FileStream
import LumettaOS.Lookup

/-! Listing a directory through a descriptor, 32 bytes a call. The entries come in
order; the test for the end of the list lets one slot too many through. -/

namespace LumettaOS

namespace Dentry

def delivered (d : Dentry) : Word × List Byte :=
  (BitVec.ofNat 32 d.nameLen, d.nameText ++ if d.nameLen < 32 then [0] else [])

theorem delivered_ne_nil (d : Dentry) : d.delivered.2 ≠ [] := by
  by_cases short : d.nameLen < 32
  · simp [delivered, short]
  · have filled : d.nameLen ≠ 0 := by omega
    simp [delivered, short, nameText, filled]

end Dentry

namespace FileCalls
open Lib.Scan Lib.Runs

theorem dirLoop_eq (name : Memory) (left i : Nat) :
    (dirLoop name left i).1 = scan (fun j => name j == 0) left i ∧
    (dirLoop name left i).2 =
      (List.range' i (scan (fun j => name j == 0) left i - i)).map name ++
        if scan (fun j => name j == 0) left i < i + left then [0] else [] := by
  induction left generalizing i with
  | zero => simp [dirLoop]
  | succ left ih =>
    obtain ⟨stop, stored⟩ := ih (i + 1)
    have after := le_scan (fun j => name j == 0) left (i + 1)
    rw [dirLoop, scan_succ]
    by_cases zero : name i = 0
    · simp [zero]
    · have more : ¬ (name i == 0) = true := by simpa using zero
      have count : scan (fun j => name j == 0) left (i + 1) - i =
          scan (fun j => name j == 0) left (i + 1) - (i + 1) + 1 := by omega
      have bound : i + (left + 1) = i + 1 + left := by omega
      rw [if_neg zero, if_neg more, stop, stored, count, List.range'_succ, List.map_cons, bound]
      exact ⟨rfl, rfl⟩

theorem dirLoop_name (d : Dentry) (stack : Memory) {n : Nat} (h : n ≤ 32 ∨ d.nameLen < 32) :
    dirLoop (nameByte d stack) n 0 =
      (min n d.nameLen, d.nameText.take n ++ if d.nameLen < n then [0] else []) := by
  have bound := d.nameLen_le
  have inside : ∀ i, i < 32 → nameByte d stack i = d.bytes i := fun i hi =>
    if_pos (show i < 64 by omega)
  have stops : scan (fun j => nameByte d stack j == 0) n 0 = min n d.nameLen := by
    refine scan_eq n 0 _ (Nat.zero_le _) (by omega) (fun i _ hi => ?_) fun hit => ?_
    · have live := d.before_nameLen (i := i) (by omega)
      rw [inside i (by omega)]
      simpa using live
    · have len : min n d.nameLen = d.nameLen := by omega
      have zero := d.at_nameLen (by omega)
      rw [len, inside _ (by omega)]
      simpa using zero
  have bytes : (List.range (min n d.nameLen)).map (nameByte d stack) = d.nameText.take n := by
    rw [Dentry.nameText, ← List.map_take, List.take_range]
    refine List.map_congr_left fun i hi => inside i ?_
    rw [List.mem_range] at hi
    omega
  obtain ⟨stop, stored⟩ := dirLoop_eq (nameByte d stack) n 0
  rw [stops, Nat.sub_zero, ← List.range_eq_range', bytes] at stored
  refine Prod.ext (stop.trans stops) (stored.trans ?_)
  congr 1
  exact if_congr (by omega) rfl rfl

theorem dirLoop_delivered (d : Dentry) (stack : Memory) :
    (BitVec.ofNat 32 (dirLoop (nameByte d stack) 32 0).1, (dirLoop (nameByte d stack) 32 0).2) =
      d.delivered := by
  have bound := d.nameLen_le
  rw [dirLoop_name d stack (Or.inl le_rfl), min_eq_right bound,
    List.take_of_length_le (by simpa using bound)]
  rfl

abbrev Listing := List (Word × List Byte)

def noteRead (fd : Word) (r : CallResult) (log : Listing) : FileCall → Listing
  | .read fd' _ _ => if fd' = fd then log ++ [(r.ret, r.stored)] else log
  | _ => log

def listStep (img : Image) (fd : Word) (e : Env × FileCall) (s : Task × Listing) :
    Option (Task × Listing) :=
  (perform img e.1 e.2 s.1).map fun r => (r.task, noteRead fd r s.2 e.2)

def Lists (fd : Word) : FileCall → Prop
  | .read fd' _ n => fd' = fd → n = 32
  | .close fd' => fd' ≠ fd
  | _ => True

def Enumerates (img : Image) (log : Listing) : Prop :=
  ∀ j r, log[j]? = some r →
    if j < img.nent.toNat then r = (img.dirs (BitVec.ofNat 32 j)).delivered
    else (r.1 = 0 ∨ r.1 = -1) ∧ r.2 = []

/-- What the code delivers: it goes on to the slot behind the last entry. -/
def slotRead (img : Image) (j : Nat) : Word × List Byte :=
  if j ≤ img.nent.toNat then (img.dirs (BitVec.ofNat 32 j)).delivered else (-1, [])

/-- The entry of an open directory stands at the number of reads made, as long as
these found a slot. -/
structure AtEntry (img : Image) (fd : Word) (s : Task × Listing) : Prop where
  ops : (s.1.desc (index fd)).fOp = some .dir
  position : (s.1.desc (index fd)).filePosition =
    BitVec.ofNat 32 (min s.2.length (img.nent.toNat + 1))
  flag : (s.1.desc (index fd)).flag = 1
  log : s.2 = (List.range s.2.length).map (slotRead img)

section

variable {img : Image} {fd : Word} {s s' : Task × Listing}

theorem AtEntry.read (small : img.nent ≤ 63) (h : AtEntry img fd s) (h2 : 2 ≤ fd.toNat)
    (h8 : fd.toNat < 8) (env : Env) (buf : Buffer) :
    ∃ r, sysRead img env fd buf 32 s.1 = some r ∧ (r.ret, r.stored) = slotRead img s.2.length ∧
      AtEntry img fd (r.task, s.2 ++ [(r.ret, r.stored)]) := by
  have few : img.nent.toNat ≤ 63 := small
  have grown : ∀ v, v = slotRead img s.2.length →
      s.2 ++ [v] = (List.range (s.2 ++ [v]).length).map (slotRead img) := by
    intro v hv
    rw [List.length_append, List.length_singleton, List.range_succ, List.map_append, ← h.log, hv]
    rfl
  rw [sysRead_accepted (accepted_of_flag h2 h8 (by rw [h.flag]; decide)), h.ops]
  refine ⟨_, rfl, ?_⟩
  rcases Nat.lt_or_ge img.nent.toNat s.2.length with past | inside
  · have position : (s.1.desc (index fd)).filePosition = BitVec.ofNat 32 (img.nent.toNat + 1) := by
      rw [h.position, min_eq_right (by omega)]
    have refused : img.readDentryByIndex (s.1.desc (index fd)).filePosition = none := by
      rw [position, Image.readDentryByIndex, if_pos]
      rw [BitVec.lt_def, BitVec.toNat_ofNat, Nat.mod_eq_of_lt (by omega)]
      omega
    have value : ((-1 : Word), ([] : List Byte)) = slotRead img s.2.length := by
      rw [slotRead, if_neg (by omega)]
    simp only [dirRead, refused]
    refine ⟨value, h.ops, ?_, h.flag, grown _ value⟩
    rw [List.length_append, List.length_singleton, min_eq_right (by omega)]
    exact position
  · have position : (s.1.desc (index fd)).filePosition = BitVec.ofNat 32 s.2.length := by
      rw [h.position, min_eq_left (by omega)]
    have found : img.readDentryByIndex (s.1.desc (index fd)).filePosition =
        some (img.dirs (BitVec.ofNat 32 s.2.length)) := by
      rw [position, Image.readDentryByIndex, if_neg]
      rw [BitVec.lt_def, BitVec.toNat_ofNat, Nat.mod_eq_of_lt (by omega)]
      omega
    have value := dirLoop_delivered (img.dirs (BitVec.ofNat 32 s.2.length)) env.stack
    rw [show (img.dirs (BitVec.ofNat 32 s.2.length)).delivered = slotRead img s.2.length by
      rw [slotRead, if_pos inside]] at value
    have count : (32 : Word).toInt.toNat = 32 := by decide
    simp only [dirRead, found, count]
    refine ⟨value, ?_, ?_, ?_, grown _ value⟩
    · rw [Task.desc_setDesc_same]
      exact h.ops
    · rw [Task.desc_setDesc_same, List.length_append, List.length_singleton,
        min_eq_left (by omega), position, BitVec.ofNat_add]
      rfl
    · rw [Task.desc_setDesc_same]
      exact h.flag

theorem listStep_atEntry (small : img.nent ≤ 63) (h2 : 2 ≤ fd.toNat) (h8 : fd.toNat < 8)
    (e : Env × FileCall) (s s' : Task × Listing) (h : AtEntry img fd s) (hk : Lists fd e.2)
    (hs : listStep img fd e s = some s') : AtEntry img fd s' := by
  obtain ⟨env, c⟩ := e
  simp only [listStep, Option.map_eq_some_iff] at hs
  obtain ⟨r, hr, rfl⟩ := hs
  by_cases hc : ∃ buf n, c = .read fd buf n
  · obtain ⟨buf, n, rfl⟩ := hc
    have count : n = 32 := hk rfl
    obtain ⟨r', hr', -, next⟩ := h.read small h2 h8 env buf
    rw [perform, count, hr', Option.some_inj] at hr
    rw [← hr]
    simpa only [noteRead, if_true] using next
  · have hna : ¬ Addresses fd c := fun ha => by
      rcases ha.cases with rfl | read
      · exact hk rfl
      · exact hc read
    have hnote : noteRead fd r s.2 c = s.2 := by
      cases c with
      | read fd' buf n => exact if_neg hna
      | _ => rfl
    have hopen : (s.1.desc (index fd)).flag ≠ 0 := by
      rw [h.flag]
      exact (by decide : (1 : Word) ≠ 0)
    have same := perform_desc_other hr h8 hopen hna
    simp only [hnote]
    exact ⟨by rw [same]; exact h.ops, by rw [same]; exact h.position,
      by rw [same]; exact h.flag, h.log⟩

theorem sysOpen_atEntry {name : Memory} {d : Dentry} {t : Task}
    (hd : img.readDentryByName name = some d) (hft : d.ft = 1)
    (hopen : (sysOpen img name t).1 ≠ -1) :
    2 ≤ (sysOpen img name t).1.toNat ∧ (sysOpen img name t).1.toNat < 8 ∧
      AtEntry img (sysOpen img name t).1 ((sysOpen img name t).2, []) := by
  have hk : (opsOf d.ft).isSome := by rw [hft]; rfl
  obtain ⟨h2, h8, entry⟩ := sysOpen_entry hd hk hopen
  refine ⟨h2, h8, ?_, ?_, ?_, rfl⟩
  · rw [entry, opened, hft]
    rfl
  · rw [entry, opened]
    simp
  · rw [entry, opened]

theorem AtEntry.enumerates_iff (h : AtEntry img fd s) :
    Enumerates img s.2 ↔ s.2.length ≤ img.nent.toNat := by
  have entry : ∀ j, j < s.2.length → s.2[j]? = some (slotRead img j) := by
    intro j hj
    rw [h.log]
    simp [hj]
  refine ⟨fun enumerates => ?_, fun few j r hr => ?_⟩
  · by_contra many
    have extra := enumerates img.nent.toNat _ (entry _ (by omega))
    rw [if_neg (lt_irrefl _), slotRead, if_pos le_rfl] at extra
    exact Dentry.delivered_ne_nil _ extra.2
  · obtain ⟨inside, -⟩ := List.getElem?_eq_some_iff.mp hr
    rw [entry j inside, Option.some_inj] at hr
    rw [if_pos (by omega), ← hr, slotRead, if_pos (by omega)]

/-- A directory that was opened and is read with a count of 32, through any other
calls in between: the reads list the entries and nothing else exactly as long as
there are no more of them than entries. -/
theorem directory_listing_iff (small : img.nent ≤ 63) {name : Memory} {d : Dentry} {t : Task}
    (hd : img.readDentryByName name = some d) (hft : d.ft = 1)
    (hopen : (sysOpen img name t).1 ≠ -1) {calls : List (Env × FileCall)}
    (hcalls : ∀ e ∈ calls, Lists (sysOpen img name t).1 e.2) {t' : Task} {log : Listing}
    (hrun : run (listStep img (sysOpen img name t).1) calls ((sysOpen img name t).2, []) =
      some (t', log)) :
    Enumerates img log ↔ log.length ≤ img.nent.toNat := by
  obtain ⟨h2, h8, start⟩ := sysOpen_atEntry hd hft hopen
  have allowed : Along (listStep img (sysOpen img name t).1)
      (fun e _ => Lists (sysOpen img name t).1 e.2) calls ((sysOpen img name t).2, []) :=
    along_of_forall hcalls _
  have h := invariant_along (listStep_atEntry small h2 h8) allowed hrun start
  exact h.enumerates_iff

end

def dotName : Memory := CString.literal [0x2E] fun _ => 0

def listTwo : List (Env × FileCall) :=
  [(Env.quiet, .read 2 Buffer.zero 32), (Env.quiet, .open shellText),
    (Env.quiet, .read 2 Buffer.zero 32)]

theorem listTwo_lists :
    ∀ e ∈ listTwo, Lists (sysOpen (Image.sample 0) dotName Task.fresh).1 e.2 := by
  intro e he
  simp only [listTwo, List.mem_cons, List.not_mem_nil, or_false] at he
  rcases he with rfl | rfl | rfl
  · exact fun _ => rfl
  · exact trivial
  · exact fun _ => rfl

theorem directory_listing_iff_sample :
    ∃ t log, run (listStep (Image.sample 0) (sysOpen (Image.sample 0) dotName Task.fresh).1)
        listTwo ((sysOpen (Image.sample 0) dotName Task.fresh).2, []) = some (t, log) ∧
      log.length = 2 ∧ Enumerates (Image.sample 0) log := by
  have found : (Image.sample 0).readDentryByName dotName = some ((Image.sample 0).dirs 0) := rfl
  refine ⟨_, _, rfl, rfl, ?_⟩
  exact (directory_listing_iff (t := Task.fresh) (by decide) found (by decide) (by decide)
    listTwo_lists rfl).mpr (by decide)

section EntryName

/-- `dir_read` delivers the name and nothing else: the return value and the first bytes
are those of the name, and nothing depends on what lies behind the 32 bytes of it. -/
def NameOnly (img : Image) (stack : Memory) (i : Fin 8) (n : Word) (t : Task) : Prop :=
  let d := img.dirs (t.desc i).filePosition
  let r := dirRead img stack i n t
  r.ret.toNat = min n.toNat d.nameLen ∧
  r.stored.take (min n.toNat d.nameLen) = d.nameText.take n.toNat ∧
  ∀ img' stack', img'.nent = img.nent →
    (∀ k < 32, (img'.dirs (t.desc i).filePosition).bytes k = d.bytes k) →
    (dirRead img' stack' i n t).ret = r.ret ∧ (dirRead img' stack' i n t).stored = r.stored

theorem getElem?_dirLoop {name : Memory} {left i k : Nat} (hk : k < left)
    (live : ∀ j, j < k → name (i + j) ≠ 0) : (dirLoop name left i).2[k]? = some (name (i + k)) := by
  induction left generalizing i k with
  | zero => omega
  | succ left ih =>
    rw [dirLoop]
    cases k with
    | zero =>
      split
      · rename_i zero
        simp [zero]
      · simp
    | succ k =>
      have first : name i ≠ 0 := live 0 (by omega)
      have rest := ih (i := i + 1) (k := k) (by omega) fun j hj => by
        rw [Nat.add_assoc, Nat.add_comm 1 j]
        exact live (j + 1) (by omega)
      rw [if_neg first, List.getElem?_cons_succ, rest, Nat.add_assoc, Nat.add_comm 1 k]

def otherType (img : Image) (pos : Word) : Image :=
  ⟨Function.update img.byte (64 + 64 * pos + 32) (img.byte (64 + 64 * pos + 32) + 1)⟩

theorem otherType_nent (img : Image) (pos : Word) : (otherType img pos).nent = img.nent := by
  have apart : ∀ k : Word, k.toNat < 4 → k ≠ 64 + 64 * pos + 32 := fun k hk => by bv_omega
  simp only [Image.nent, Image.word, otherType]
  rw [Function.update_of_ne (apart _ (by decide)), Function.update_of_ne (apart _ (by decide)),
    Function.update_of_ne (apart _ (by decide)), Function.update_of_ne (apart _ (by decide))]

theorem otherType_bytes (img : Image) (pos : Word) {k : Nat} (hk : k < 32) :
    ((otherType img pos).dirs pos).bytes k = (img.dirs pos).bytes k := by
  have apart : 64 + 64 * pos + BitVec.ofNat 32 k ≠ 64 + 64 * pos + 32 := by bv_omega
  simp only [Image.dirs, otherType]
  exact Function.update_of_ne apart _ _

theorem otherType_differs (img : Image) (pos : Word) :
    ((otherType img pos).dirs pos).bytes 32 ≠ (img.dirs pos).bytes 32 := by
  have same : Function.update img.byte (64 + 64 * pos + 32) (img.byte (64 + 64 * pos + 32) + 1)
      (64 + 64 * pos + 32) = img.byte (64 + 64 * pos + 32) + 1 := Function.update_self ..
  intro e
  have value : img.byte (64 + 64 * pos + 32) + 1 = img.byte (64 + 64 * pos + 32) :=
    same.symm.trans e
  simp at value

variable {img : Image} {stack : Memory} {i : Fin 8} {n : Word} {t : Task}

theorem dirRead_entry (inside : (t.desc i).filePosition < img.nent) (count : 0 ≤ n.toInt) :
    dirRead img stack i n t =
      ⟨BitVec.ofNat 32 (dirLoop (nameByte (img.dirs (t.desc i).filePosition) stack) n.toNat 0).1,
        (dirLoop (nameByte (img.dirs (t.desc i).filePosition) stack) n.toNat 0).2,
        t.setDesc i { t.desc i with filePosition := (t.desc i).filePosition + 1 }⟩ := by
  have found : img.readDentryByIndex (t.desc i).filePosition =
      some (img.dirs (t.desc i).filePosition) := by
    rw [Image.readDentryByIndex, if_neg (by bv_omega)]
  have size : n.toInt.toNat = n.toNat := by rw [Word.toInt_of_nonneg count, Int.toNat_natCast]
  simp only [dirRead, found, size]

theorem nameLen_congr {d d' : Dentry} (same : ∀ k < 32, d'.bytes k = d.bytes k) :
    d'.nameLen = d.nameLen := by
  refine scan_congr 32 0 fun j _ _ hj => ?_
  rw [same j (by omega)]

theorem nameText_congr {d d' : Dentry} (same : ∀ k < 32, d'.bytes k = d.bytes k) :
    d'.nameText = d.nameText := by
  have bound := d.nameLen_le
  rw [Dentry.nameText, nameLen_congr same]
  refine List.map_congr_left fun k hk => same k ?_
  rw [List.mem_range] at hk
  omega

theorem nameOnly_of (inside : (t.desc i).filePosition < img.nent) (count : 0 ≤ n.toInt)
    (h : n.toNat ≤ 32 ∨ (img.dirs (t.desc i).filePosition).nameLen < 32) :
    NameOnly img stack i n t := by
  have bound := (img.dirs (t.desc i).filePosition).nameLen_le
  simp only [NameOnly, dirRead_entry inside count, dirLoop_name _ stack h]
  refine ⟨?_, ?_, fun img' stack' entries same => ?_⟩
  · rw [BitVec.toNat_ofNat, Nat.mod_eq_of_lt (by omega)]
  · have full : ((img.dirs (t.desc i).filePosition).nameText.take n.toNat).length =
        min n.toNat (img.dirs (t.desc i).filePosition).nameLen := by simp
    rw [← full, List.take_left]
  · have inside' : (t.desc i).filePosition < img'.nent := entries ▸ inside
    have len := nameLen_congr same
    rw [dirRead_entry inside' count, dirLoop_name _ stack' (len ▸ h), len, nameText_congr same]
    exact ⟨rfl, rfl⟩

theorem stored_behind_name {d : Dentry} (full : 32 ≤ d.nameLen) (stack : Memory) {n : Nat}
    (long : 32 < n) : (dirLoop (nameByte d stack) n 0).2[32]? = some (d.bytes 32) := by
  have name : ∀ j, j ≤ 32 → nameByte d stack (0 + j) = d.bytes j := fun j hj => by
    rw [Nat.zero_add]
    exact if_pos (show j < 64 by omega)
  rw [getElem?_dirLoop long fun j hj => ?_, name 32 le_rfl]
  rw [name j hj.le]
  exact d.before_nameLen (by omega)

/-- Exactly where the count exceeds 32 and the name fills its field does `dir_read` go
on into the other fields of the entry. -/
theorem dir_read_name_only_iff (inside : (t.desc i).filePosition < img.nent)
    (count : 0 ≤ n.toInt) :
    NameOnly img stack i n t ↔
      (n.toNat ≤ 32 ∨ (img.dirs (t.desc i).filePosition).nameLen < 32) := by
  refine ⟨fun only => ?_, nameOnly_of inside count⟩
  by_contra beyond
  simp only [not_or, Nat.not_le, Nat.not_lt] at beyond
  obtain ⟨long, full⟩ := beyond
  have entries := otherType_nent img (t.desc i).filePosition
  have inside' : (t.desc i).filePosition < (otherType img (t.desc i).filePosition).nent := by
    rw [entries]
    exact inside
  have same : ∀ k < 32, ((otherType img (t.desc i).filePosition).dirs
      (t.desc i).filePosition).bytes k = (img.dirs (t.desc i).filePosition).bytes k :=
    fun k hk => otherType_bytes img _ hk
  have full' : 32 ≤ ((otherType img (t.desc i).filePosition).dirs
      (t.desc i).filePosition).nameLen := by
    rw [nameLen_congr same]
    exact full
  have stored := (only.2.2 _ stack entries same).2
  simp only [dirRead_entry inside count, dirRead_entry inside' count] at stored
  have extra := stored_behind_name full' stack long
  rw [stored, stored_behind_name full stack long, Option.some_inj] at extra
  exact otherType_differs img _ extra.symm

def openLongNamed : Task := (sysOpen Image.longNamed dotName Task.fresh).2

theorem dir_read_name_only_iff_sample :
    ((openLongNamed.desc 2).fOp = some .dir) ∧
      NameOnly Image.longNamed (fun _ => 0) 2 32 openLongNamed :=
  ⟨by decide, (dir_read_name_only_iff (by decide) (by decide)).mpr (Or.inl (by decide))⟩

/-- With room for 33 bytes the first byte of the file type comes behind the name. -/
theorem full_name_overrun :
    ((openLongNamed.desc 2).fOp = some .dir) ∧
      (dirRead Image.longNamed (fun _ => 0) 2 33 openLongNamed).ret = 33 ∧
      ¬ NameOnly Image.longNamed (fun _ => 0) 2 33 openLongNamed := by
  refine ⟨by decide, by decide, fun only => ?_⟩
  have length := only.1
  revert length
  decide

end EntryName

def staleSlot : Image := Image.ofCells [(0, 1), (4, 1), (8, 1), (64, 0x2E), (96, 1), (128, 0x78)]

/-- The second read of a directory with one entry delivers the left-over name. -/
theorem stale_slot_listed :
    ∃ t log, (sysOpen staleSlot dotName Task.fresh).1 = 2 ∧
      run (listStep staleSlot 2) (List.replicate 2 (Env.quiet, .read 2 Buffer.zero 32))
        ((sysOpen staleSlot dotName Task.fresh).2, []) = some (t, log) ∧
      log = [(1, [0x2E, 0]), (1, [0x78, 0])] ∧ ¬ Enumerates staleSlot log := by
  refine ⟨_, _, by decide, rfl, by decide, fun enumerates => ?_⟩
  have extra := enumerates 1 (1, [0x78, 0]) (by decide)
  rw [if_neg (by decide)] at extra
  exact absurd extra.2 (by decide)

end FileCalls

end LumettaOS
