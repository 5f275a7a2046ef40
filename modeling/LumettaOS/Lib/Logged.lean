import Mathlib

/-! Computations that keep a log of what they touch. A value of `none` is a
computation that stopped at its last entry and never came back. -/

namespace LumettaOS.Lib

structure Logged (ι α : Type) where
  log : List ι
  value : Option α

namespace Logged

variable {ι α β : Type}

instance instMonad : Monad (Logged ι) where
  pure a := ⟨[], some a⟩
  bind x f :=
    match x.value with
    | none => ⟨x.log, none⟩
    | some a => ⟨x.log ++ (f a).log, (f a).value⟩

def touch (i : ι) (a : Option α) : Logged ι α := ⟨[i], a⟩

def silent (a : Option α) : Logged ι α := ⟨[], a⟩

@[simp] theorem pure_log (a : α) : (pure a : Logged ι α).log = [] := rfl

@[simp] theorem pure_value (a : α) : (pure a : Logged ι α).value = some a := rfl

@[simp] theorem touch_log (i : ι) (a : Option α) : (touch i a).log = [i] := rfl

@[simp] theorem touch_value (i : ι) (a : Option α) : (touch i a).value = a := rfl

@[simp] theorem silent_value (a : Option α) : (silent a : Logged ι α).value = a := rfl

@[simp] theorem silent_none_bind (f : α → Logged ι β) :
    (silent none : Logged ι α) >>= f = silent none := rfl

@[simp] theorem silent_some_bind (a : α) (f : α → Logged ι β) :
    (silent (some a) : Logged ι α) >>= f = f a := rfl

@[simp] theorem bind_value (x : Logged ι α) (f : α → Logged ι β) :
    (x >>= f).value = x.value.bind fun a => (f a).value := by
  simp only [bind]
  cases x.value with
  | none => rfl
  | some a => rfl

theorem bind_log {x : Logged ι α} {a : α} (h : x.value = some a) (f : α → Logged ι β) :
    (x >>= f).log = x.log ++ (f a).log := by
  simp only [bind, h]

theorem bind_log_stopped {x : Logged ι α} (h : x.value = none) (f : α → Logged ι β) :
    (x >>= f).log = x.log := by
  simp only [bind, h]

@[simp] theorem pure_bind_log (a : α) (f : α → Logged ι β) :
    ((pure a : Logged ι α) >>= f).log = (f a).log := rfl

@[simp] theorem touch_bind_log (i : ι) (a : α) (f : α → Logged ι β) :
    (touch i (some a) >>= f).log = i :: (f a).log := rfl

@[simp] theorem bind_pure_log (x : Logged ι α) (f : α → β) :
    (x >>= fun a => pure (f a)).log = x.log := by
  simp only [bind]
  cases x.value with
  | none => rfl
  | some a => exact List.append_nil x.log

end Logged

end LumettaOS.Lib
