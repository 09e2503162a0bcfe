import Mathlib.Init

/-!
# Mapping over a result

A result mapped succeeds exactly when it did, and is refused with what its refusal becomes.
-/

namespace Guatiao.Lib

variable {ε ε' α β : Type}

@[simp] theorem map_ok (f : α → β) (a : α) :
    Except.map f (.ok a : Except ε α) = .ok (f a) := rfl

@[simp] theorem map_error (f : α → β) (e : ε) :
    Except.map f (.error e : Except ε α) = .error e := rfl

@[simp] theorem mapError_ok (f : ε → ε') (a : α) :
    Except.mapError f (.ok a : Except ε α) = .ok a := rfl

@[simp] theorem mapError_error (f : ε → ε') (e : ε) :
    Except.mapError f (.error e : Except ε α) = .error (f e) := rfl

@[simp] theorem map_eq_ok {x : Except ε α} {f : α → β} {b : β} :
    x.map f = .ok b ↔ ∃ a, x = .ok a ∧ f a = b := by
  cases x <;> simp

@[simp] theorem map_eq_error {x : Except ε α} {f : α → β} {e : ε} :
    x.map f = .error e ↔ x = .error e := by
  cases x <;> simp

@[simp] theorem mapError_eq_ok {x : Except ε α} {f : ε → ε'} {a : α} :
    x.mapError f = .ok a ↔ x = .ok a := by
  cases x <;> simp

end Guatiao.Lib
