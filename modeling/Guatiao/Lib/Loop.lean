import Mathlib.Algebra.Order.Ring.Nat

/-!
# Loops that end

A loop with an explicit state is given by its body: from a state it either stops
with a result or goes on from a new state. The measure that makes it end is a field,
so a loop that might not end cannot be written down. Two rules are all a proof about
one needs: a body that goes on does not change the result, and what the body
preserves holds of the result.
-/

namespace Guatiao.Lib

/-- A loop: its body, and a measure every turn that goes on makes smaller. -/
structure Loop (σ α : Type*) where
  /-- One turn: stop with a result, or go on from a new state. -/
  body : σ → α ⊕ σ
  /-- What is left to do. -/
  measure : σ → ℕ
  /-- A turn that goes on leaves less to do. -/
  decreases : ∀ {s s'}, body s = .inr s' → measure s' < measure s

namespace Loop

variable {σ α : Type*} (l : Loop σ α)

/-- The result of the loop started in a state. -/
def run (s : σ) : α :=
  match _h : l.body s with
  | .inl a => a
  | .inr s' => run s'
termination_by l.measure s
decreasing_by exact l.decreases _h

theorem run_of_stop {s : σ} {a : α} (h : l.body s = .inl a) : l.run s = a := by
  rw [run]
  split
  · simp_all
  · simp_all

theorem run_of_turn {s s' : σ} (h : l.body s = .inr s') : l.run s = l.run s' := by
  rw [run]
  split
  · simp_all
  · simp_all

/-- The result of a turn that may go on. -/
def finish : α ⊕ σ → α
  | .inl a => a
  | .inr s => l.run s

@[simp] theorem finish_inl (a : α) : l.finish (.inl a) = a := rfl

@[simp] theorem finish_inr (s : σ) : l.finish (.inr s) = l.run s := rfl

theorem run_eq_finish (s : σ) : l.run s = l.finish (l.body s) := by
  cases h : l.body s with
  | inl a => exact l.run_of_stop h
  | inr s' => exact l.run_of_turn h

/-- Induction along a run: a property of start states that holds where the loop stops
and passes back over a turn holds of every state. -/
theorem run_induction {motive : σ → Prop}
    (stop : ∀ s a, l.body s = .inl a → motive s)
    (turn : ∀ s s', l.body s = .inr s' → motive s' → motive s) (s : σ) : motive s := by
  induction hm : l.measure s using Nat.strong_induction_on generalizing s with
  | _ m ih =>
    cases h : l.body s with
    | inl a => exact stop s a h
    | inr s' =>
      have hless := l.decreases h
      exact turn s s' h (ih _ (by omega) s' rfl)

/-- The invariant rule: what every turn preserves, and every stop turns into the
conclusion, gives the conclusion of the whole run. -/
theorem run_invariant {I : σ → Prop} {Q : α → Prop}
    (turn : ∀ s s', I s → l.body s = .inr s' → I s')
    (stop : ∀ s a, I s → l.body s = .inl a → Q a) {s : σ} (hs : I s) : Q (l.run s) := by
  induction s using l.run_induction with
  | stop s a h => rw [l.run_of_stop h]; exact stop s a hs h
  | turn s s' h ih => rw [l.run_of_turn h]; exact ih (turn s s' hs h)

/-- The functional rule: a function of states that a turn leaves alone, and that is
the result where the loop stops, is the loop's result everywhere the invariant holds. -/
theorem run_eq {I : σ → Prop} {f : σ → α}
    (turn : ∀ s s', I s → l.body s = .inr s' → I s' ∧ f s' = f s)
    (stop : ∀ s a, I s → l.body s = .inl a → f s = a) {s : σ} (hs : I s) : l.run s = f s := by
  induction s using l.run_induction with
  | stop s a h => rw [l.run_of_stop h, stop s a hs h]
  | turn s s' h ih =>
    obtain ⟨hs', hf⟩ := turn s s' hs h
    rw [l.run_of_turn h, ih hs', hf]

end Loop

end Guatiao.Lib
