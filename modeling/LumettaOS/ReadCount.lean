import LumettaOS.PagedRead
import LumettaOS.Positions
import LumettaOS.TypeAhead

/-! When a read keeps to the count it was given. The terminal is read one access at a
time, with keys handled between them, since `terminal_read` looks for the newline after
its wait and with interrupts enabled. Directories and files are read through the page
tables: what a count of less than 0 leads to may fault before anything is stored. -/

namespace LumettaOS

/-- What a read does for its caller: the bytes it stores from the buffer on, and its value,
`none` where it faults on the way. -/
structure ReadEffect where
  stored : List Byte
  ret : Option Word

namespace Reader
open Lib.Runs

/-- One read and the accesses and keys up to its end; `none` if it does not end there. -/
def readAlong (acts : List Act) (k : Keyboard) : Option (Word × List Byte) :=
  match run act (.read :: acts) (start k) with
  | some ⟨_, .idle, [line]⟩ => some line
  | _ => none

def Phase.settled : Phase → Option Nat
  | .copying m _ => some m
  | .padding m _ => some m
  | .clearing m _ _ => some m
  | .leaving m _ => some m
  | _ => none

inductive Moves (k : Keyboard) : Phase → Phase → Prop
  | waits : Moves k .waiting .waiting
  | wakes : Moves k .waiting (.scanning 0)
  | scans (i : Nat) (low : i < 128) (other : k.buffer i ≠ 0x0A) :
      Moves k (.scanning i) (.scanning (i + 1))
  | stops (i : Nat) (here : i < 128 → k.buffer i = 0x0A) :
      Moves k (.scanning i) (.copying (i + 1) [])
  | copies (m : Nat) (done : List Byte) (b : Byte) (room : done.length < m) :
      Moves k (.copying m done) (.copying m (done ++ [b]))
  | copied (m : Nat) (done : List Byte) : Moves k (.copying m done) (.padding m done)
  | pads (m : Nat) (done : List Byte) (room : done.length < m) :
      Moves k (.padding m done) (.padding m (done ++ [0]))
  | padded (m : Nat) (done : List Byte) (full : m ≤ done.length) :
      Moves k (.padding m done) (.clearing m done 0)
  | clears (m : Nat) (done : List Byte) (j : Nat) :
      Moves k (.clearing m done j) (.clearing m done (j + 1))
  | cleared (m : Nat) (done : List Byte) (j : Nat) :
      Moves k (.clearing m done j) (.leaving m done)

section Steps

variable {s s' : Session} {n : Int}

end Steps

end Reader

namespace FileCalls
open Lib.Runs Reader Image

/-- What `read_dentry_by_index` reads. -/
def EntryMapped (img : Image) (place : Place) (pos : Word) : Prop :=
  WordMapped place 0 ∧ (pos ≤ img.nent → ∀ k < 64,
    Paging.Mapped place.pages (place.boot + (64 + 64 * pos + BitVec.ofNat 32 k)))

instance instDecidableEntryMapped (img : Image) (place : Place) (pos : Word) :
    Decidable (EntryMapped img place pos) :=
  inferInstanceAs (Decidable ((∀ i < 4, _) ∧ (_ → ∀ k < 64, _)))

/-- The call through `f_op->read`, with the accesses to the line buffer and the keys in the
order of `acts`, and with the page tables and the places of the image and the buffer. -/
def opReadEffect (img : Image) (place : Place) (env : Env) (acts : List Act) (i : Fin 8)
    (buf : Buffer) (n : Word) (t : Task) : Option FileOps → Option ReadEffect
  | none => none
  | some .terminal =>
    if buf.null then some ⟨[], some (-1)⟩
    else (readAlong acts t.dev.keyboard).map fun line => ⟨line.2, some line.1⟩
  | some .rtc => (rtcRead env buf t).map fun r => ⟨r.stored, some r.ret⟩
  | some .dir =>
    if EntryMapped img place (t.desc i).filePosition then
      some ⟨(dirRead img env.stack i n t).stored, some (dirRead img env.stack i n t).ret⟩
    else some ⟨[], none⟩
  | some .file =>
    let r := img.readDataPaged place (t.desc i).inode (t.desc i).filePosition n
    some ⟨r.log, r.value⟩

def sysReadEffect (img : Image) (place : Place) (env : Env) (acts : List Act) (fd : Word)
    (buf : Buffer) (n : Word) (t : Task) : Option ReadEffect :=
  readGuard (some ⟨[], some (-1)⟩) (fun i ops => opReadEffect img place env acts i buf n t ops) fd t

/-- Every read of the model is one of these, with the keys handled during the wait, where
nothing faults. -/
theorem sysRead_effect {img : Image} {place : Place} (mapped : ∀ a, Paging.Mapped place.pages a)
    {env : Env} {fd : Word} {buf : Buffer} {n : Word} {t : Task} {r : CallResult}
    (h : sysRead img env fd buf n t = some r) :
    ∃ acts, sysReadEffect img place env acts fd buf n t = some ⟨r.stored, some r.ret⟩ := by
  by_cases accepted : Accepted fd t
  · simp only [sysReadEffect, readGuard_accepted accepted]
    rw [sysRead_accepted accepted] at h
    cases ops : (t.desc (index fd)).fOp with
    | none => simp [ops, opRead] at h
    | some op =>
      rw [ops] at h
      cases op with
      | terminal =>
        rw [opRead, terminalRead, Option.map_eq_some_iff] at h
        obtain ⟨res, call, rfl⟩ := h
        cases null : buf.null with
        | true =>
          rw [null, Terminal.terminalRead, if_pos rfl, Option.some_inj] at call
          subst call
          exact ⟨[], by simp only [opReadEffect, null, if_true]⟩
        | false =>
          rw [null] at call
          obtain ⟨acts, hr⟩ := run_terminalRead call
          refine ⟨acts, ?_⟩
          simp [opReadEffect, null, readAlong, hr]
      | rtc =>
        refine ⟨[], ?_⟩
        simp only [opReadEffect]
        rw [opRead] at h
        rw [h, Option.map_some]
      | dir =>
        simp only [opRead, Option.some_inj] at h
        subst h
        exact ⟨[], if_pos ⟨fun _ _ => mapped _, fun _ _ _ => mapped _⟩⟩
      | file =>
        refine ⟨[], ?_⟩
        simp only [opRead, fileRead, Option.ite_none_left_eq_some, Option.some_inj] at h
        obtain ⟨-, rfl⟩ := h
        have value := @readDataPaged_mapped img place mapped (t.desc (index fd)).inode
          (t.desc (index fd)).filePosition n
        rw [opReadEffect, value, (readDataPaged_log place _ _ n).2 _ value]
  · rw [sysRead_refused accepted, Option.some_inj] at h
    subst h
    exact ⟨[], readGuard_refused accepted _ _⟩

section Runs

variable {img : Image} {behind : Memory} {f : Execute.Frame} {m : Machine} {s₀ s : System}

end Runs

end FileCalls

end LumettaOS
