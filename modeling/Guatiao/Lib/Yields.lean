import Mathlib.Init

/-!
# What a stateful computation yields

Rules for a computation that threads a state and may refuse: a postcondition holds of
what it answers and of the state it leaves, whenever it answers. The rules are
equivalences, so a computation's postcondition is taken apart from its end to its start.
-/

namespace Guatiao.Lib

variable {σ ε α β : Type}

theorem bind_eq_ok {x : Except ε α} {f : α → Except ε β} {b : β} (h : x >>= f = .ok b) :
    ∃ a, x = .ok a ∧ f a = .ok b := by
  cases x with
  | error e => cases h
  | ok a => exact ⟨a, rfl, h⟩

/-- Whenever `x` answers from `s`, the answer and the state it leaves satisfy `Q`. -/
def Yields (x : StateT σ (Except ε) α) (s : σ) (Q : α → σ → Prop) : Prop :=
  ∀ a s', x s = .ok (a, s') → Q a s'

variable {x : StateT σ (Except ε) α} {s : σ} {Q R : α → σ → Prop}

theorem Yields.mono (h : Yields x s Q) (hQR : ∀ a s', Q a s' → R a s') : Yields x s R :=
  fun a s' hx => hQR a s' (h a s' hx)

@[simp] theorem yields_pure {a : α} : Yields (pure a : StateT σ (Except ε) α) s Q ↔ Q a s := by
  constructor
  · exact fun h => h a s rfl
  · rintro h b s' heq
    cases heq
    exact h

@[simp] theorem yields_bind {f : α → StateT σ (Except ε) β} {Q : β → σ → Prop} :
    Yields (x >>= f) s Q ↔ Yields x s fun a s' => Yields (f a) s' Q := by
  have hrun : (x >>= f) s = (x s).bind fun p => f p.1 p.2 := rfl
  constructor
  · intro h a s' hx b s'' hf
    refine h b s'' ?_
    rw [hrun, hx]
    exact hf
  · intro h b s'' hb
    rw [hrun] at hb
    cases hx : x s with
    | error e =>
      rw [hx] at hb
      cases hb
    | ok p =>
      rw [hx] at hb
      exact h p.1 p.2 hx b s'' hb

@[simp] theorem yields_modify {f : σ → σ} {Q : PUnit → σ → Prop} :
    Yields (modify f : StateT σ (Except ε) PUnit) s Q ↔ Q ⟨⟩ (f s) := by
  constructor
  · exact fun h => h ⟨⟩ (f s) rfl
  · rintro h b s' heq
    cases heq
    exact h

@[simp] theorem yields_get {Q : σ → σ → Prop} :
    Yields (get : StateT σ (Except ε) σ) s Q ↔ Q s s := by
  constructor
  · exact fun h => h s s rfl
  · rintro h b s' heq
    cases heq
    exact h

@[simp] theorem yields_set {t : σ} {Q : PUnit → σ → Prop} :
    Yields (set t : StateT σ (Except ε) PUnit) s Q ↔ Q ⟨⟩ t := by
  constructor
  · exact fun h => h ⟨⟩ t rfl
  · rintro h b s' heq
    cases heq
    exact h

@[simp] theorem yields_throw {e : ε} : Yields (throw e : StateT σ (Except ε) α) s Q :=
  fun _ _ h => nomatch h

end Guatiao.Lib
