import Mathlib.Logic.Function.Basic

/-!
# A token that one thread at a time has

The token lies free or is with exactly one of any number of threads; `has` says of where
a thread is whether it has the token there. Taking it, giving it back and moving on with
or without it keep that so.
-/

namespace Guatiao.Lib

variable {Tid X : Type*} {has : X → Bool} {free : Bool} {pc : Tid → X} {t : Tid} {x : X}

/-- The token is free and nobody has it, or it is not and one thread does. -/
structure Token (has : X → Bool) (free : Bool) (pc : Tid → X) : Prop where
  nobody : free = true → ∀ t, has (pc t) = false
  only : ∀ {t u}, has (pc t) = true → has (pc u) = true → u = t
  somebody : free = false → ∃ t, has (pc t) = true

namespace Token

theorem not_free (h : Token has free pc) (ht : has (pc t) = true) : free = false := by
  cases free with
  | false => rfl
  | true =>
    have hnone := h.nobody rfl t
    rw [ht] at hnone
    cases hnone

variable [DecidableEq Tid]

theorem take (h : Token has true pc) (hx : has x = true) :
    Token has false (Function.update pc t x) where
  nobody := fun h => nomatch h
  only := by
    have hnone := h.nobody rfl
    intro u v hu hv
    by_cases hut : u = t
    · by_cases hvt : v = t
      · rw [hut, hvt]
      · rw [Function.update_of_ne hvt, hnone] at hv
        cases hv
    · rw [Function.update_of_ne hut, hnone] at hu
      cases hu
  somebody := fun _ => ⟨t, by rw [Function.update_self]; exact hx⟩

theorem move (h : Token has free pc) (hx : has x = has (pc t)) :
    Token has free (Function.update pc t x) := by
  have hsame : ∀ u, has (Function.update pc t x u) = has (pc u) := by
    intro u
    by_cases hut : u = t
    · rw [hut, Function.update_self, hx]
    · rw [Function.update_of_ne hut]
  exact
    { nobody := fun hfree u => by rw [hsame]; exact h.nobody hfree u
      only := fun {u v} hu hv => h.only (by rwa [hsame] at hu) (by rwa [hsame] at hv)
      somebody := fun hfree => by
        obtain ⟨u, hu⟩ := h.somebody hfree
        exact ⟨u, by rw [hsame]; exact hu⟩ }

theorem give (h : Token has free pc) (ht : has (pc t) = true) (hx : has x = false) :
    Token has true (Function.update pc t x) := by
  have hnone : ∀ u, has (Function.update pc t x u) = false := by
    intro u
    by_cases hut : u = t
    · rw [hut, Function.update_self, hx]
    · rw [Function.update_of_ne hut]
      cases hu : has (pc u) with
      | false => rfl
      | true => exact absurd (h.only ht hu) hut
  exact
    { nobody := fun _ => hnone
      only := fun {u v} hu _ => by
        rw [hnone] at hu
        cases hu
      somebody := fun h => nomatch h }

/-- Where the thread that moved is the only one that may have the token, what holds of
whoever has it is settled there. -/
theorem forall_of_move {P : X → Prop} (h : Token has free pc)
    (ht : free = true ∨ has (pc t) = true) (hx : has x = true → P x) :
    ∀ u, has (Function.update pc t x u) = true → P (Function.update pc t x u) := by
  intro u hu
  by_cases hut : u = t
  · rw [hut, Function.update_self] at hu ⊢
    exact hx hu
  · rw [Function.update_of_ne hut] at hu
    rcases ht with hfree | ht
    · rw [h.nobody hfree] at hu
      cases hu
    · exact absurd (h.only ht hu) hut

end Token

theorem forall_of_outside [DecidableEq Tid] {P : X → Prop} (hx : has x = false)
    (h : ∀ u, has (pc u) = true → P (pc u)) :
    ∀ u, has (Function.update pc t x u) = true → P (Function.update pc t x u) := by
  intro u hu
  by_cases hut : u = t
  · rw [hut, Function.update_self, hx] at hu
    cases hu
  · rw [Function.update_of_ne hut] at hu ⊢
    exact h u hu

end Guatiao.Lib
