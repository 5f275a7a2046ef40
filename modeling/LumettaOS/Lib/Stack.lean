import Mathlib

/-! A stack of words that grows downwards in a memory with 32-bit addresses. A word takes
four addresses; the words in use are a list, the top of the stack first. -/

namespace LumettaOS.Lib.Stack

variable {α : Type} {mem mem' mem'' : BitVec 32 → α} {sp sp' e : BitVec 32} {ws : List α}

def slot (sp : BitVec 32) (i : Nat) : BitVec 32 := sp + 4 * BitVec.ofNat 32 i

/-- These words are on the top of the stack. -/
def Top (mem : BitVec 32 → α) (sp : BitVec 32) (ws : List α) : Prop :=
  ∀ i w, ws[i]? = some w → mem (slot sp i) = w

/-- The memories agree from `sp` on, up to the end of the stack. -/
def Above (sp e : BitVec 32) (mem mem' : BitVec 32 → α) : Prop :=
  ∀ a, sp ≤ a → a < e → mem' a = mem a

@[simp] theorem slot_zero (sp : BitVec 32) : slot sp 0 = sp := by simp [slot]

theorem slot_slot (sp : BitVec 32) (i j : Nat) : slot (slot sp i) j = slot sp (i + j) := by
  simp only [slot, BitVec.ofNat_add, BitVec.mul_add, BitVec.add_assoc]

theorem slot_toNat (sp : BitVec 32) {i : Nat} (fits : sp.toNat + 4 * i < 2 ^ 32) :
    (slot sp i).toNat = sp.toNat + 4 * i := by
  simp only [slot]
  bv_omega

theorem slot_pushed (sp : BitVec 32) (i : Nat) : slot (sp - 4) (i + 1) = slot sp i := by
  rw [Nat.add_comm, ← slot_slot]
  congr 1
  exact BitVec.sub_add_cancel sp 4

theorem slot_ne_pushed (sp : BitVec 32) {i : Nat} (near : i + 1 < 2 ^ 30) :
    slot sp i ≠ sp - 4 := by
  simp only [slot]
  bv_omega

theorem pushed_toNat (room : 4 ≤ sp.toNat) : (sp - 4).toNat = sp.toNat - 4 := by bv_omega

theorem update_pushed (mem : BitVec 32 → α) (w : α) (room : 4 ≤ sp.toNat) {a : BitVec 32}
    (low : sp ≤ a) : Function.update mem (sp - 4) w a = mem a := by
  refine Function.update_of_ne (fun h => ?_) _ _
  rw [h, BitVec.le_def, pushed_toNat room] at low
  omega

namespace Above

theorem refl (sp e : BitVec 32) (mem : BitVec 32 → α) : Above sp e mem mem :=
  fun _ _ _ => rfl

theorem trans (h : Above sp e mem mem') (h' : Above sp e mem' mem'') :
    Above sp e mem mem'' := fun a low high => (h' a low high).trans (h a low high)

theorem mono (h : Above sp e mem mem') (le : sp ≤ sp') : Above sp' e mem mem' :=
  fun a low high => h a (BitVec.le_trans le low) high

theorem push (mem : BitVec 32 → α) (w : α) (room : 4 ≤ sp.toNat) :
    Above sp e mem (Function.update mem (sp - 4) w) := fun _ low _ => update_pushed mem w room low

end Above

namespace Top

theorem nil : Top mem sp ([] : List α) := fun i w h => by simp at h

theorem above (h : Top mem sp ws) (same : Above sp e mem mem')
    (fits : sp.toNat + 4 * ws.length ≤ e.toNat) : Top mem' sp ws := by
  intro i w hw
  have inside := (List.getElem?_eq_some_iff.mp hw).1
  have limit := e.isLt
  have place := slot_toNat sp (i := i) (by omega)
  rw [same _ (by rw [BitVec.le_def]; omega) (by rw [BitVec.lt_def]; omega)]
  exact h i w hw

theorem push (h : Top mem sp ws) (w : α) (room : 4 ≤ sp.toNat)
    (fits : sp.toNat + 4 * ws.length ≤ e.toNat) :
    Top (Function.update mem (sp - 4) w) (sp - 4) (w :: ws) := by
  intro i v hv
  cases i with
  | zero =>
    rw [slot_zero, Function.update_self]
    simpa using hv
  | succ i =>
    rw [slot_pushed]
    exact h.above (Above.push mem w room) fits i v hv

theorem first {v : List α} (h : Top mem sp (v ++ ws)) : Top mem sp v := fun i w hw => by
  refine h i w ?_
  rw [List.getElem?_append_left (List.getElem?_eq_some_iff.mp hw).1]
  exact hw

theorem pop {v : List α} (h : Top mem sp (v ++ ws)) : Top mem (slot sp v.length) ws := by
  intro i w hw
  rw [slot_slot]
  refine h (v.length + i) w ?_
  rw [List.getElem?_append_right (by omega), Nat.add_sub_cancel_left]
  exact hw

end Top

end LumettaOS.Lib.Stack
