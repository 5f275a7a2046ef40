import LumettaOS.Directory
import LumettaOS.UserLibrary

/-! The programs `cat` and `ls` (ece391cat.c, ece391ls.c) on the kernel's file calls. A loop
has an iteration count that is left once the loop has ended; `stack` is what the local
buffer held. -/

namespace LumettaOS.User
open Execute FileCalls CString

section Programs

variable (img : Image) (o : Outside)

def catLoop (fd : Word) : (fuel : Nat) → Memory → Program Word
  | 0, _ => fun _ => none
  | fuel + 1, buf => do
    let r ← read img o fd buf 1024
    if r.1 = 0 then return 0
    else if r.1 = -1 then
      say img o "file read failed\n"
      return 3
    else
      let written ← write img o 1 r.2 r.1
      if written = -1 then return 3
      else catLoop fd fuel r.2

def cat (fuel : Nat) (stack : Memory) : Program Word := do
  let r ← getargs o 1024
  if r.1 ≠ 0 then
    say img o "could not read arguments\n"
    return 3
  else
    let buf := overlay r.2 stack
    let fd ← «open» img o buf
    if fd = -1 then
      say img o "file not found\n"
      return 2
    else catLoop img o fd fuel buf

def lsLoop (fd : Word) : (fuel : Nat) → Memory → Program Word
  | 0, _ => fun _ => none
  | fuel + 1, buf => do
    let r ← read img o fd buf 32
    if r.1 = 0 then return 0
    else if r.1 = -1 then
      say img o "directory entry read failed\n"
      return 3
    else
      let line := Function.update r.2 r.1.toNat 0x0A
      let written ← write img o 1 line (r.1 + 1)
      if written = -1 then return 3
      else lsLoop fd fuel line

def ls (fuel : Nat) (stack : Memory) : Program Word := do
  let fd ← «open» img o (literal (ascii ".") fun _ => 0)
  if fd = -1 then
    say img o "directory open failed\n"
    return 2
  else lsLoop img o fd fuel stack

end Programs

section Cat

variable {img : Image} {fd nd : Word} {w : World}

theorem sysOpen_console (img : Image) (name : Memory) (t : Task) :
    (sysOpen img name t).2.dev.console = t.dev.console := by
  have claimed (ops : FileOps) (inode : Option Word) :
      (claim ops inode t).2.dev = t.dev := by
    rw [claim]
    split <;> rfl
  unfold sysOpen
  split
  · rfl
  · rename_i d hd
    split_ifs
    · rw [openRtc]
      split
      · rw [claimed]
      · change (claim .rtc none t).2.dev.console = _
        rw [claimed]
    · rw [claimed]
    · rw [claimed]
    · rfl

/-- Descriptor `fd` is open on the file of inode `nd`, `asked` bytes on. -/
def OnFile (img : Image) (fd nd : Word) (asked : Nat) (t : Task) : Prop :=
  AtPosition img fd nd (t, ⟨asked, (img.content nd).take asked⟩)

theorem index_ne_one (h2 : 2 ≤ fd.toNat) (h8 : fd.toNat < 8) : (1 : Fin 8) ≠ index fd := by
  intro e
  have value := congrArg Fin.val e
  rw [index_val h8] at value
  change 1 = fd.toNat at value
  omega

theorem read_file (h2 : 2 ≤ fd.toNat) (h8 : fd.toNat < 8) (hn : nd < img.nnod)
    (hl : (img.len nd).toNat ≤ 1023 * 4096) {asked : Nat} (h : OnFile img fd nd asked w.task)
    (o : Outside) (buf : Memory) {n : Word} (hn0 : 0 ≤ n.toInt) :
    ∃ w', read img o fd buf n w =
        some ((BitVec.ofNat 32 (min n.toNat ((img.len nd).toNat - asked)),
          overlay (((img.content nd).drop asked).take n.toNat) buf), w') ∧
      OnFile img fd nd (asked + n.toNat) w'.task ∧
      (∀ i, i ≠ index fd → w'.task.desc i = w.task.desc i) ∧ Prints o w [] w' := by
  have here : OnFile img fd nd asked (o.meets w) := h
  have result := here.read h2 h8 hn hl (o.env w.calls) ⟨false, buf⟩ hn0
  refine ⟨_, read_apply result, ⟨by simp, rfl⟩, fun i other => ?_, (List.append_nil _).symm,
    fun quiet => quiet w.calls w.task.dev⟩
  rw [Task.desc_setDesc, if_neg other]
  rfl

theorem small_toNat {k : Nat} (h : k ≤ 1024) : (BitVec.ofNat 32 k).toNat = k := by
  rw [BitVec.toNat_ofNat, Nat.mod_eq_of_lt (by omega)]

theorem small_count {k : Nat} (h0 : 0 < k) (h : k ≤ 1024) :
    0 < (BitVec.ofNat 32 k).toInt ∧ BitVec.ofNat 32 k ≠ 0 ∧ BitVec.ofNat 32 k ≠ -1 := by
  have count := small_toNat h
  have positive : 0 < (BitVec.ofNat 32 k).toInt := by
    rw [Word.toInt_of_toNat_lt (k := 2048) (by omega) (by decide), count]
    omega
  refine ⟨positive, fun e => ?_, fun e => ?_⟩
  · rw [e] at positive
    exact absurd positive (by decide)
  · rw [e] at positive
    exact absurd positive (by decide)

section Loop

variable (h2 : 2 ≤ fd.toNat) (h8 : fd.toNat < 8) (hn : nd < img.nnod)
  (hl : (img.len nd).toNat ≤ 1023 * 4096) (o : Outside)
include h2 h8 hn hl

theorem catLoop_end {asked : Nat} (h : OnFile img fd nd asked w.task)
    (done : (img.len nd).toNat ≤ asked) (fuel : Nat) (buf : Memory) :
    ∃ w', catLoop img o fd (fuel + 1) buf w = some (0, w') ∧
      Prints o w ((img.content nd).drop asked) w' := by
  obtain ⟨w', hr, -, -, prints⟩ := read_file h2 h8 hn hl h o buf (n := 1024) (by decide)
  rw [List.drop_eq_nil_of_le (by rw [img.length_content]; omega)]
  refine ⟨w', ?_, prints⟩
  rw [catLoop, bind_apply, hr, Option.bind_some, Nat.sub_eq_zero_of_le done]
  rfl

theorem catLoop_round {asked : Nat} (std : Stdout w) (h : OnFile img fd nd asked w.task)
    (more : asked < (img.len nd).toNat) (fuel : Nat) (buf : Memory) :
    ∃ w' buf', catLoop img o fd (fuel + 1) buf w = catLoop img o fd fuel buf' w' ∧
      Stdout w' ∧ OnFile img fd nd (asked + 1024) w'.task ∧
      Prints o w (((img.content nd).drop asked).take 1024) w' := by
  obtain ⟨w₁, hr, next, others, quiet⟩ := read_file h2 h8 hn hl h o buf (n := 1024) (by decide)
  have length : (((img.content nd).drop asked).take 1024).length =
      min 1024 ((img.len nd).toNat - asked) := by simp
  have hr : read img o fd buf 1024 w = some ((BitVec.ofNat 32
      (((img.content nd).drop asked).take 1024).length,
        overlay (((img.content nd).drop asked).take 1024) buf), w₁) := by
    rw [length]
    exact hr
  have shown := (overlay_holds (((img.content nd).drop asked).take 1024) buf).map_range
  generalize ((img.content nd).drop asked).take 1024 = piece at *
  obtain ⟨positive, filled, valid⟩ := small_count (k := piece.length) (by omega) (by omega)
  have std₁ := std.of_desc (others 1 (index_ne_one h2 h8))
  obtain ⟨w₂, hw, pcb, prints⟩ := write_stdout img o std₁ (overlay piece buf) positive
  rw [small_toNat (by omega), shown] at prints
  refine ⟨w₂, overlay piece buf, ?_, std₁.of_pcb pcb, ⟨?_, rfl⟩, quiet.silent_trans prints⟩
  · rw [catLoop, bind_apply, hr, Option.bind_some, if_neg filled, if_neg valid, bind_apply, hw,
      Option.bind_some, if_neg valid]
  · rw [desc_of_pcb pcb]
    exact next.1

theorem catLoop_shows (fuel : Nat) {asked : Nat} (buf : Memory) (std : Stdout w)
    (h : OnFile img fd nd asked w.task) (enough : (img.len nd).toNat - asked ≤ 1024 * fuel) :
    ∃ w', catLoop img o fd (fuel + 1) buf w = some (0, w') ∧
      Prints o w ((img.content nd).drop asked) w' := by
  induction fuel generalizing asked buf w with
  | zero => exact catLoop_end h2 h8 hn hl o h (by omega) 0 buf
  | succ fuel ih =>
    by_cases done : (img.len nd).toNat ≤ asked
    · exact catLoop_end h2 h8 hn hl o h done (fuel + 1) buf
    · obtain ⟨w₁, buf₁, round, std₁, next, prints⟩ :=
        catLoop_round h2 h8 hn hl o std h (by omega) (fuel + 1) buf
      obtain ⟨w', run, rest⟩ := ih buf₁ std₁ next (by omega)
      refine ⟨w', round.trans run, ?_⟩
      have all := prints.trans rest
      rwa [← List.drop_drop, List.take_append_drop] at all

end Loop

theorem getargs_text (o : Outside) (stack : Memory) {name : List Byte}
    (h : IsString w.task.pcb.args name) (nonempty : name ≠ []) (short : name.length < 128) :
    ∃ stored w', getargs o 1024 w = some ((0, stored), w') ∧ w'.task = w.task ∧
      Prints o w [] w' ∧ IsString (overlay stored stack) name := by
  obtain ⟨stored, copied, -, front⟩ := (sysGetargs_text h.holds nonempty h.live short
    (o.env w.calls).stack 1024).1 (by rw [show (1024 : Word).toInt = 1024 from rfl]; omega)
  refine ⟨stored, { w with calls := w.calls + 1 }, by rw [getargs, copied]; rfl, rfl,
    ⟨(List.append_nil _).symm, fun _ => rfl⟩, ?_, h.live⟩
  intro i b hb
  obtain ⟨rest, rfl⟩ := front
  refine overlay_holds _ stack i b ?_
  rw [List.getElem?_append_left (List.getElem?_eq_some_iff.mp hb).1]
  exact hb

theorem open_apply (img : Image) (o : Outside) (w : World) (name : Memory) :
    ∃ w', «open» img o name w = some ((sysOpen img name (o.meets w)).1, w') ∧
      w'.task = (sysOpen img name (o.meets w)).2 ∧ w'.task.desc 1 = w.task.desc 1 ∧
      Prints o w [] w' := by
  have called : «open» img o name w = some ((sysOpen img name (o.meets w)).1,
      ⟨(sysOpen img name (o.meets w)).2, w.calls + 1, w.out⟩) := by
    rw [«open», bind_apply, call_apply (c := .open name) rfl, shown_open, List.append_nil]
    rfl
  refine ⟨_, called, rfl, ?_, (List.append_nil _).symm, fun quiet => ?_⟩
  · change (sysOpen img name (o.meets w)).2.pcb.fileDescTb 1 = (o.meets w).pcb.fileDescTb 1
    rcases sysOpen_cases img name (o.meets w) with ⟨he, -⟩ | he | ⟨d, -, -, hlt, -, he⟩
    · rw [he]
    · rw [he]
    · have low := two_le_freeSlot (o.meets w)
      have ne : (1 : Fin 8) ≠ slot (o.meets w) := fun e => by
        have value := congrArg Fin.val e
        rw [slot_val hlt] at value
        change 1 = _ at value
        omega
      rw [he, Pcb.setDesc_other _ _ _ _ ne]
  · exact (sysOpen_console img name (o.meets w)).trans (quiet w.calls w.task.dev)

theorem open_file (wf : img.WellFormed) {name : List Byte} {s : Memory} (h : IsString s name)
    {d : Dentry} (found : img.FirstNamed (name.take 32) d) (file : d.ft = 2) {t : Task}
    (free : freeSlot t < 8) :
    2 ≤ (sysOpen img s t).1.toNat ∧ (sysOpen img s t).1.toNat < 8 ∧ (sysOpen img s t).1 ≠ -1 ∧
      d.ind < img.nnod ∧ (img.len d.ind).toNat ≤ 1023 * 4096 ∧
      OnFile img (sysOpen img s t).1 d.ind 0 (sysOpen img s t).2 := by
  have hd := (Image.readDentryByName_some_iff h d).mpr found
  have known : (opsOf d.ft).isSome := by rw [file]; rfl
  have opened : (sysOpen img s t).1 ≠ -1 := by
    rw [(sysOpen_success hd known free).1]
    exact freeSlot_word_ne free
  obtain ⟨i, hi, rfl, -⟩ := found
  obtain ⟨h2, h8, start⟩ := sysOpen_atPosition hd file opened
  have inode := wf.ind_lt i hi file
  exact ⟨h2, h8, opened, inode, wf.len_le _ inode, start⟩

/-- `cat` of a regular file shows its content, byte for byte, and returns 0: for every file
and every order of interrupts between and during its calls. -/
theorem cat_shows_file (wf : img.WellFormed) (std : Stdout w) {name : List Byte}
    (arg : IsString w.task.pcb.args name) (nonempty : name ≠ []) (short : name.length < 128)
    {d : Dentry} (found : img.FirstNamed (name.take 32) d) (file : d.ft = 2)
    (free : freeSlot w.task < 8) (fuel : Nat) (enough : (img.content d.ind).length ≤ 1024 * fuel)
    (o : Outside) (stack : Memory) :
    ∃ w', cat img o (fuel + 1) stack w = some (0, w') ∧ Prints o w (img.content d.ind) w' := by
  obtain ⟨stored, w₁, copied, same, quiet₁, text⟩ := getargs_text o stack arg nonempty short
  have free₁ : freeSlot (o.meets w₁) < 8 := by
    change freeSlot w₁.task < 8
    rw [same]
    exact free
  obtain ⟨h2, h8, opened, hn, hl, start⟩ := open_file wf text found file free₁
  obtain ⟨w₂, hopen, task, one, quiet₂⟩ := open_apply img o w₁ (overlay stored stack)
  rw [img.length_content] at enough
  obtain ⟨w', run, prints⟩ := catLoop_shows h2 h8 hn hl o fuel (overlay stored stack)
    ((std.of_pcb (by rw [same])).of_desc one) (task ▸ start) (by omega)
  refine ⟨w', ?_, quiet₁.silent_trans (quiet₂.silent_trans prints)⟩
  rw [cat, bind_apply, copied, Option.bind_some, if_neg (by simp), bind_apply, hopen,
    Option.bind_some, if_neg opened]
  exact run

theorem sample_shell : (Image.sample 0).FirstNamed (shellName.take 32) ((Image.sample 0).dirs 2) :=
  (Image.readDentryByName_some_iff (literal_isString (by decide) fun _ => 0) _).mp
    (by rfl : (Image.sample 0).readDentryByName (literal shellName fun _ => 0) = _)

theorem cat_shows_file_sample :
    ∃ w', cat (Image.sample 0) .quiet 2 (fun _ => 0) (World.started shellName) = some (0, w') ∧
      Prints .quiet (World.started shellName) ((Image.sample 0).content 0) w' :=
  cat_shows_file Image.sample_wellFormed (started_stdout _) (started_args (by decide))
    (by decide) (by decide) sample_shell (by decide) (by decide) 1 (by decide) .quiet fun _ => 0

/-- `cat` without an argument, and `cat` of a name that cannot be opened. -/
theorem cat_reports (img : Image) (std : Stdout w) (o : Outside) (fuel : Nat) (stack : Memory) :
    (w.task.pcb.args 0 = 0 → ∃ w', cat img o fuel stack w = some (3, w') ∧
      Prints o w (ascii "could not read arguments\n") w') ∧
    ∀ name, IsString w.task.pcb.args name → name ≠ [] → name.length < 128 →
      ((∀ i < img.nent, (img.dirs i).nameText ≠ name.take 32) ∨
        freeSlot w.task = 8 ∧ ∃ d, img.FirstNamed (name.take 32) d ∧ d.ft ≤ 2) →
      ∃ w', cat img o fuel stack w = some (2, w') ∧ Prints o w (ascii "file not found\n") w' := by
  refine ⟨fun empty => ?_, fun name arg nonempty short missing => ?_⟩
  · have refused := sysGetargs_empty empty (o.env w.calls).stack false 1024
    have args : getargs o 1024 w = some ((-1, []), { w with calls := w.calls + 1 }) := by
      rw [getargs, refused]
      rfl
    have std₁ : Stdout { w with calls := w.calls + 1 } := std
    obtain ⟨w', said, -, prints⟩ := say_stdout img o std₁ "could not read arguments\n" rfl
    refine ⟨w', ?_, ⟨prints.out, prints.console⟩⟩
    rw [cat, bind_apply, args, Option.bind_some, if_pos (show (-1 : Word) ≠ 0 by decide),
      bind_apply, said]
    rfl
  · obtain ⟨stored, w₁, copied, same, quiet₁, text⟩ := getargs_text o stack arg nonempty short
    obtain ⟨w₂, hopen, -, one, quiet₂⟩ := open_apply img o w₁ (overlay stored stack)
    have failed : (sysOpen img (overlay stored stack) (o.meets w₁)).1 = -1 := by
      rw [sysOpen_fail]
      rcases missing with none | ⟨full, d, found, known⟩
      · exact Or.inl ((Image.readDentryByName_none_iff text).mpr none)
      · refine Or.inr ⟨⟨d, (Image.readDentryByName_some_iff text d).mpr found,
          opsOf_isSome_iff.mpr known⟩, ?_⟩
        change freeSlot w₁.task = 8
        rw [same]
        exact full
    have std₁ : Stdout w₁ := std.of_pcb (by rw [same])
    obtain ⟨w', said, -, prints⟩ := say_stdout img o (std₁.of_desc one) "file not found\n" rfl
    refine ⟨w', ?_, quiet₁.silent_trans (quiet₂.silent_trans prints)⟩
    rw [cat, bind_apply, copied, Option.bind_some, if_neg (by simp), bind_apply, hopen,
      Option.bind_some, if_pos failed, bind_apply, said]
    rfl

theorem cat_reports_sample :
    (∃ w', cat (Image.sample 0) .quiet 1 (fun _ => 0) (World.started []) = some (3, w') ∧
      w'.out = ascii "could not read arguments\n") ∧
    ∃ w', cat (Image.sample 0) .quiet 1 (fun _ => 0) (World.started [0x78]) = some (2, w') ∧
      w'.out = ascii "file not found\n" := by
  constructor
  · obtain ⟨w', run, prints⟩ := (cat_reports (Image.sample 0) (started_stdout [])
      .quiet 1 fun _ => 0).1 rfl
    exact ⟨w', run, prints.out⟩
  · have none : ∀ i < (Image.sample 0).nent, ((Image.sample 0).dirs i).nameText ≠ [0x78] := by
      have three : (Image.sample 0).nent = 3 := by decide
      intro i hi
      rw [three] at hi
      have few : i = 0 ∨ i = 1 ∨ i = 2 := by bv_omega
      rcases few with rfl | rfl | rfl <;> decide
    obtain ⟨w', run, prints⟩ := (cat_reports (Image.sample 0) (started_stdout [0x78])
      .quiet 1 fun _ => 0).2 [0x78] (started_args (by decide)) (by decide) (by decide)
        (Or.inl none)
    exact ⟨w', run, prints.out⟩

end Cat

section Ls

variable {img : Image} {fd : Word} {w : World}

def OnDir (img : Image) (fd : Word) (j : Nat) (t : Task) : Prop :=
  AtEntry img fd (t, (List.range j).map (slotRead img))

theorem OnDir.of_desc {j : Nat} {t t' : Task} (h : OnDir img fd j t) (same : t'.desc = t.desc) :
    OnDir img fd j t' := by
  refine ⟨?_, ?_, ?_, h.log⟩
  · rw [same]
    exact h.ops
  · rw [same]
    exact h.position
  · rw [same]
    exact h.flag

theorem dirRead_dev (img : Image) (stack : Memory) (i : Fin 8) (n : Word) (t : Task) :
    (dirRead img stack i n t).task.dev = t.dev := by
  rw [dirRead]
  cases img.readDentryByIndex (t.desc i).filePosition <;> rfl

theorem read_dir (small : img.nent ≤ 63) (h2 : 2 ≤ fd.toNat) (h8 : fd.toNat < 8) (std : Stdout w)
    {j : Nat} (h : OnDir img fd j w.task) (o : Outside) (buf : Memory) :
    ∃ w', read img o fd buf 32 w =
        some (((slotRead img j).1, overlay (slotRead img j).2 buf), w') ∧
      OnDir img fd (j + 1) w'.task ∧ Stdout w' ∧ Prints o w [] w' := by
  have here : OnDir img fd j (o.meets w) := h.of_desc rfl
  obtain ⟨r, hr, value, next⟩ := here.read small h2 h8 (o.env w.calls) ⟨false, buf⟩
  rw [List.length_map, List.length_range] at value
  have other : ¬ Addresses 1 (.read fd ⟨false, buf⟩ 32) := fun e => by
    have e : fd = 1 := e
    rw [e] at h2
    exact absurd h2 (by decide)
  have performed : perform img (o.env w.calls) (.read fd ⟨false, buf⟩ 32) (o.meets w) = some r := hr
  have open1 : ((o.meets w).desc (index 1)).flag ≠ 0 := std.2
  have one : r.task.desc 1 = w.task.desc 1 := perform_desc_other performed (by decide) open1 other
  have dev : r.task.dev = (o.meets w).dev := by
    rw [sysRead_accepted (accepted_of_flag h2 h8 (by rw [here.flag]; decide)), here.ops] at hr
    rw [← Option.some.inj hr]
    exact dirRead_dev _ _ _ _ _
  refine ⟨⟨r.task, w.calls + 1, w.out⟩, ?_, ?_, std.of_desc one, (List.append_nil _).symm,
    fun quiet => ?_⟩
  · rw [read_apply performed, ← value]
  · rw [value] at next
    rw [OnDir, List.range_succ, List.map_append]
    exact next
  · exact (congrArg Devices.console dev).trans (quiet w.calls w.task.dev)

def slotName (img : Image) (j : Nat) : List Byte := (img.dirs (BitVec.ofNat 32 j)).nameText

def slotLine (img : Image) (j : Nat) : List Byte := slotName img j ++ [0x0A]

theorem slotRead_named {j : Nat} (inside : j ≤ img.nent.toNat) :
    ∃ rest, slotRead img j = (BitVec.ofNat 32 (slotName img j).length, slotName img j ++ rest) ∧
      (slotName img j).length ≤ 32 := by
  have bound := (img.dirs (BitVec.ofNat 32 j)).nameLen_le
  rw [slotRead, if_pos inside, Dentry.delivered]
  refine ⟨if (img.dirs (BitVec.ofNat 32 j)).nameLen < 32 then [0] else [], ?_, ?_⟩
  · rw [slotName, Dentry.length_nameText]
  · rw [slotName, Dentry.length_nameText]
    exact bound

section Loop

variable (small : img.nent ≤ 63) (h2 : 2 ≤ fd.toNat) (h8 : fd.toNat < 8) (o : Outside)
include small h2 h8

theorem lsLoop_round (std : Stdout w) {j : Nat} (h : OnDir img fd j w.task)
    (inside : j ≤ img.nent.toNat) (named : slotName img j ≠ []) (fuel : Nat) (buf : Memory) :
    ∃ w' buf', lsLoop img o fd (fuel + 1) buf w = lsLoop img o fd fuel buf' w' ∧
      Stdout w' ∧ OnDir img fd (j + 1) w'.task ∧ Prints o w (slotLine img j) w' := by
  obtain ⟨w₁, hr, next, std₁, quiet⟩ := read_dir small h2 h8 std h o buf
  obtain ⟨rest, value, bound⟩ := slotRead_named inside
  rw [value] at hr
  rw [slotLine]
  generalize slotName img j = name at *
  have some_ : 0 < name.length := List.length_pos_iff.mpr named
  obtain ⟨-, filled, valid⟩ := small_count some_ (by omega : name.length ≤ 1024)
  obtain ⟨positive, -, written⟩ :=
    small_count (k := name.length + 1) (by omega) (by omega)
  have count := small_toNat (k := name.length) (by omega)
  have next_count : BitVec.ofNat 32 name.length + 1 = BitVec.ofNat 32 (name.length + 1) := by
    rw [BitVec.ofNat_add]
    rfl
  have held : Holds (Function.update (overlay (name ++ rest) buf) name.length 0x0A)
      (name ++ [0x0A]) := ((holds_append.mp (overlay_holds (name ++ rest) buf)).1).push 0x0A
  obtain ⟨w₂, hw, pcb, prints⟩ := write_stdout img o std₁
    (Function.update (overlay (name ++ rest) buf) name.length 0x0A) positive
  have shown := held.map_range
  rw [List.length_append, List.length_singleton] at shown
  rw [small_toNat (by omega), shown] at prints
  refine ⟨w₂, Function.update (overlay (name ++ rest) buf) name.length 0x0A, ?_,
    std₁.of_pcb pcb, next.of_desc (desc_of_pcb pcb), quiet.silent_trans prints⟩
  rw [lsLoop, bind_apply, hr, Option.bind_some, if_neg filled, if_neg valid, bind_apply, count,
    next_count, hw, Option.bind_some, if_neg written]

theorem lsLoop_end (std : Stdout w) {j : Nat} (h : OnDir img fd j w.task) (fuel : Nat)
    (buf : Memory) :
    (j ≤ img.nent.toNat → slotName img j = [] →
      ∃ w', lsLoop img o fd (fuel + 1) buf w = some (0, w') ∧ Prints o w [] w') ∧
    (img.nent.toNat < j → ∃ w', lsLoop img o fd (fuel + 1) buf w = some (3, w') ∧
      Prints o w (ascii "directory entry read failed\n") w') := by
  obtain ⟨w₁, hr, -, std₁, quiet⟩ := read_dir small h2 h8 std h o buf
  refine ⟨fun inside empty => ⟨w₁, ?_, quiet⟩, fun past => ?_⟩
  · obtain ⟨rest, value, -⟩ := slotRead_named inside
    rw [value, empty] at hr
    rw [lsLoop, bind_apply, hr]
    rfl
  · rw [slotRead, if_neg (by omega)] at hr
    obtain ⟨w', said, -, prints⟩ := say_stdout img o std₁ "directory entry read failed\n" rfl
    refine ⟨w', ?_, quiet.silent_trans prints⟩
    rw [lsLoop, bind_apply, hr, Option.bind_some, if_neg (show (-1 : Word) ≠ 0 by decide),
      if_pos rfl, bind_apply, said]
    rfl

theorem lsLoop_lines (std : Stdout w) {j n : Nat} (h : OnDir img fd j w.task)
    (inside : j + n ≤ img.nent.toNat + 1) (named : ∀ k, j ≤ k → k < j + n → slotName img k ≠ [])
    (fuel : Nat) (buf : Memory) :
    ∃ w' buf', lsLoop img o fd (n + fuel) buf w = lsLoop img o fd fuel buf' w' ∧
      Stdout w' ∧ OnDir img fd (j + n) w'.task ∧
      Prints o w ((List.range' j n).flatMap (slotLine img)) w' := by
  induction n generalizing j w buf with
  | zero => exact ⟨w, buf, by rw [Nat.zero_add], std, h, .refl o w⟩
  | succ n ih =>
    obtain ⟨w₁, buf₁, round, std₁, next, prints⟩ := lsLoop_round small h2 h8 o std h (by omega)
      (named j le_rfl (by omega)) (n + fuel) buf
    obtain ⟨w', buf', run, std', last, rest⟩ := ih std₁ next (by omega)
      (fun k hk hn => named k (by omega) (by omega)) buf₁
    refine ⟨w', buf', ?_, std', ?_, ?_⟩
    · rw [Nat.add_right_comm, round, run]
    · rwa [Nat.add_right_comm] at last
    · rw [List.range'_succ, List.flatMap_cons]
      exact prints.trans rest

end Loop

/-- `ls` shows the names of the slots, one to a line. A slot without a name ends the list
and `ls` returns 0; if the slot behind the last entry has a name as well, the names of all
slots are shown, one too many, then the error message, and `ls` returns 3. -/
theorem ls_shows (small : img.nent ≤ 63) (std : Stdout w) {d : Dentry}
    (dot : img.FirstNamed (ascii ".") d) (dir : d.ft = 1) (free : freeSlot w.task < 8)
    (o : Outside) (stack : Memory) {k : Nat} (inside : k ≤ img.nent.toNat + 1)
    (named : ∀ j < k, slotName img j ≠ []) {fuel : Nat} (enough : k < fuel) :
    (k ≤ img.nent.toNat → slotName img k = [] → ∃ w', ls img o fuel stack w = some (0, w') ∧
      Prints o w ((List.range k).flatMap (slotLine img)) w') ∧
    (k = img.nent.toNat + 1 → ∃ w', ls img o fuel stack w = some (3, w') ∧
      Prints o w ((List.range k).flatMap (slotLine img) ++
        ascii "directory entry read failed\n") w') := by
  have text : IsString (literal (ascii ".") fun _ => 0) (ascii ".") :=
    literal_isString (by decide) _
  have hd : img.readDentryByName (literal (ascii ".") fun _ => 0) = some d :=
    (Image.readDentryByName_some_iff text d).mpr dot
  have known : (opsOf d.ft).isSome := by rw [dir]; rfl
  have opened : (sysOpen img (literal (ascii ".") fun _ => 0) (o.meets w)).1 ≠ -1 := by
    rw [(sysOpen_success (t := o.meets w) hd known free).1]
    exact freeSlot_word_ne free
  obtain ⟨h2, h8, start⟩ := sysOpen_atEntry hd dir opened
  obtain ⟨w₁, hopen, task, one, quiet⟩ := open_apply img o w (literal (ascii ".") fun _ => 0)
  have start₁ : OnDir img (sysOpen img (literal (ascii ".") fun _ => 0) (o.meets w)).1 0
      w₁.task := by
    rw [task]
    exact start
  obtain ⟨fuel, rfl⟩ : ∃ f, fuel = k + (f + 1) := ⟨fuel - k - 1, by omega⟩
  obtain ⟨w₂, buf, run, std₂, last, prints⟩ := lsLoop_lines small h2 h8 o (std.of_desc one) start₁
    (n := k) (by omega) (fun j _ hj => named j (by omega)) (fuel + 1) stack
  rw [Nat.zero_add] at last
  rw [← List.range_eq_range'] at prints
  have begin : ls img o (k + (fuel + 1)) stack w = lsLoop img o
      (sysOpen img (literal (ascii ".") fun _ => 0) (o.meets w)).1 (fuel + 1) buf w₂ := by
    rw [ls, bind_apply, hopen, Option.bind_some, if_neg opened]
    exact run
  obtain ⟨ends, fails⟩ := lsLoop_end small h2 h8 o std₂ last fuel buf
  rw [begin]
  refine ⟨fun inside empty => ?_, fun all => ?_⟩
  · obtain ⟨w', done, silent⟩ := ends inside empty
    refine ⟨w', done, ?_⟩
    have shown := quiet.silent_trans (prints.trans silent)
    rwa [List.append_nil] at shown
  · obtain ⟨w', done, message⟩ := fails (by omega)
    exact ⟨w', done, quiet.silent_trans (prints.trans message)⟩

theorem ls_shows_sample :
    ∃ w', ls (Image.sample 0) .quiet 4 (fun _ => 0) (World.started []) = some (0, w') ∧
      Prints .quiet (World.started []) ((List.range 3).flatMap (slotLine (Image.sample 0))) w' := by
  have dot : (Image.sample 0).FirstNamed (ascii ".") ((Image.sample 0).dirs 0) :=
    (Image.readDentryByName_some_iff (literal_isString (by decide) fun _ => 0) _).mp
      (by rfl : (Image.sample 0).readDentryByName (literal (ascii ".") fun _ => 0) = _)
  exact (ls_shows (k := 3) (by decide) (started_stdout []) dot (by decide) (by decide) .quiet
    (fun _ => 0) (by decide) (by decide) (by decide)).1 (by decide) (by decide)

end Ls

end LumettaOS.User
