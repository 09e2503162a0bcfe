import Mathlib.Init

/-!
# Dialogs

A party asks its environment one question after another, each answered as the environment likes, and
ends with a result or with an error. A transcript is the questions and answers of one run. What a
dialog does in every environment is what holds of every transcript it ends with.
-/

namespace Guatiao.Lib

/-- What a party does: end, fail, or ask and go on by the answer. -/
inductive Dialog (Q : Type) (A : Q → Type) (E R : Type)
  | done (r : R)
  | fail (e : E)
  | ask (q : Q) (next : A q → Dialog Q A E R)

namespace Dialog

variable {Q : Type} {A : Q → Type} {E R S : Type}

/-- One dialog and then another, by its result. -/
def andThen : Dialog Q A E R → (R → Dialog Q A E S) → Dialog Q A E S
  | done r, f => f r
  | fail e, _ => fail e
  | ask q next, f => ask q fun a => (next a).andThen f

instance : Monad (Dialog Q A E) where
  pure := done
  bind := andThen

/-- One question. -/
def query (q : Q) : Dialog Q A E (A q) := ask q done

/-- A dialog's result after a transcript. -/
inductive Ends : Dialog Q A E R → List (Σ q, A q) → R → Prop
  | done (r : R) : Ends (done r) [] r
  | ask {q : Q} {next : A q → Dialog Q A E R} {a : A q} {t : List (Σ q, A q)} {r : R}
      (h : Ends (next a) t r) : Ends (ask q next) (⟨q, a⟩ :: t) r

variable {d : Dialog Q A E R} {f : R → Dialog Q A E S} {t : List (Σ q, A q)}

theorem ends_pure {r r' : R} : Ends (pure r : Dialog Q A E R) t r' ↔ t = [] ∧ r' = r := by
  constructor
  · intro h
    cases h
    exact ⟨rfl, rfl⟩
  · rintro ⟨rfl, rfl⟩
    exact .done _

theorem not_ends_fail {e : E} {r : R} : ¬Ends (fail e : Dialog Q A E R) t r := by
  intro h
  cases h

theorem ends_query {q : Q} {a : A q} : Ends (query q : Dialog Q A E (A q)) t a ↔ t = [⟨q, a⟩] := by
  constructor
  · intro h
    cases h with
    | ask h =>
      cases h
      rfl
  · rintro rfl
    exact .ask (.done _)

theorem ends_bind {s : S} : Ends (d >>= f) t s ↔
    ∃ t₁ t₂ r, t = t₁ ++ t₂ ∧ Ends d t₁ r ∧ Ends (f r) t₂ s := by
  constructor
  · intro h
    induction d generalizing t with
    | done r => exact ⟨[], t, r, rfl, .done r, h⟩
    | fail e => cases h
    | ask q next ih =>
      cases h with
      | @ask _ _ a t _ h =>
        obtain ⟨t₁, t₂, r, rfl, hfirst, hsecond⟩ := ih a h
        exact ⟨⟨q, a⟩ :: t₁, t₂, r, rfl, .ask hfirst, hsecond⟩
  · rintro ⟨t₁, t₂, r, rfl, hfirst, hsecond⟩
    induction hfirst with
    | done r => exact hsecond
    | ask _ ih => exact .ask (ih hsecond)

theorem Ends.bind {t' : List (Σ q, A q)} {r : R} {s : S} (h : Ends d t r) (h' : Ends (f r) t' s) :
    Ends (d >>= f) (t ++ t') s :=
  ends_bind.mpr ⟨t, t', r, rfl, h, h'⟩

end Dialog

end Guatiao.Lib
