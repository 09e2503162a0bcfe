import Mathlib.Algebra.Order.Group.Nat

/-!
# Tallies

The sum of a weight over a list of parties. Changing one party changes the tally by the
difference of its weights, so what a step does to any number of tallies is arithmetic.
-/

namespace Guatiao.Lib

variable {X : Type*} {w v : X → ℕ} {l : List X}

/-- The weights of a list's elements, summed. -/
def tally (w : X → ℕ) : List X → ℕ
  | [] => 0
  | x :: rest => w x + tally w rest

@[simp] theorem tally_nil : tally w [] = 0 := rfl

@[simp] theorem tally_cons (x : X) : tally w (x :: l) = w x + tally w l := rfl

@[simp] theorem tally_append (l' : List X) : tally w (l ++ l') = tally w l + tally w l' := by
  induction l with
  | nil => exact (Nat.zero_add _).symm
  | cons x rest ih =>
    rw [List.cons_append, tally_cons, ih, tally_cons, Nat.add_assoc]

theorem tally_set {i : ℕ} {x : X} (h : l[i]? = some x) (y : X) :
    tally w (l.set i y) + w x = tally w l + w y := by
  induction l generalizing i with
  | nil => cases h
  | cons z rest ih =>
    cases i with
    | zero =>
      cases h
      simp only [List.set_cons_zero, tally_cons]
      omega
    | succ i =>
      have := ih (i := i) h
      simp only [List.set_cons_succ, tally_cons]
      omega

theorem tally_le (h : ∀ x ∈ l, w x ≤ v x) : tally w l ≤ tally v l := by
  induction l with
  | nil => exact le_refl _
  | cons x rest ih =>
    have hx := h x (List.mem_cons_self ..)
    have hrest := ih fun y hy => h y (List.mem_cons_of_mem _ hy)
    simp only [tally_cons]
    omega

theorem tally_add : tally (fun x => w x + v x) l = tally w l + tally v l := by
  induction l with
  | nil => rfl
  | cons x rest ih =>
    simp only [tally_cons, ih]
    omega

theorem le_tally {i : ℕ} {x : X} (h : l[i]? = some x) : w x ≤ tally w l := by
  induction l generalizing i with
  | nil => cases h
  | cons z rest ih =>
    cases i with
    | zero =>
      cases h
      simp only [tally_cons]
      omega
    | succ i =>
      have hrest := ih (i := i) h
      simp only [tally_cons]
      omega

theorem exists_of_tally_pos (h : 0 < tally w l) : ∃ (i : ℕ) (x : X), l[i]? = some x ∧ 0 < w x := by
  induction l with
  | nil => exact absurd h (lt_irrefl 0)
  | cons x rest ih =>
    by_cases hx : 0 < w x
    · exact ⟨0, x, rfl, hx⟩
    · rw [tally_cons] at h
      obtain ⟨i, y, hi, hy⟩ := ih (by omega)
      exact ⟨i + 1, y, hi, hy⟩

end Guatiao.Lib
