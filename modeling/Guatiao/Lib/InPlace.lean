import Mathlib.Data.List.Basic

/-!
# Changing things where they are

A change is made to a thing where it stands, and may stop; whatever it did by then, the thing is still
there. Changes made one after another stop with the first that stops, and what is left stays as it was.
-/

namespace Guatiao.Lib

variable {α β γ σ : Type}

/-- A change made in place: what stands there after it, and what to go on with unless it stopped. -/
abbrev Change (σ α : Type) := α → σ → α × Option σ

namespace Change

/-- One change after another. -/
def andThen (f g : Change σ α) : Change σ α := fun x s =>
  match f x s with
  | (x, none) => (x, none)
  | (x, some s) => g x s

/-- A change of the first of two. -/
def first (f : Change σ α) : Change σ (α × β) := fun p s =>
  match f p.1 s with
  | (x, s) => ((x, p.2), s)

/-- A change of the second of two. -/
def second (f : Change σ β) : Change σ (α × β) := fun p s =>
  match f p.2 s with
  | (y, s) => ((p.1, y), s)

/-- A change of each in turn. -/
def each (f : Change σ α) : Change σ (List α)
  | [], s => ([], some s)
  | x :: rest, s =>
    match f x s with
    | (x, none) => (x :: rest, none)
    | (x, some s) =>
      match each f rest s with
      | (rest, s) => (x :: rest, s)

/-- Whether a change that goes through leaves what a function gives. -/
def Does (f : Change σ α) (g : α → α) : Prop := ∀ ⦃x s y t⦄, f x s = (y, some t) → y = g x

/-- Whether a change leaves something as it is, even where it stops. -/
def Keeps (f : Change σ α) (c : α → γ) : Prop := ∀ x s, c (f x s).1 = c x

variable {f f' : Change σ α} {g g' : α → α} {c : α → γ}

theorem Does.andThen (h : f.Does g) (h' : f'.Does g') : (f.andThen f').Does (g' ∘ g) := by
  intro x s y t hdone
  rw [Change.andThen] at hdone
  cases hfirst : f x s with
  | mk x' s' =>
    rw [hfirst] at hdone
    cases s' with
    | none => cases hdone
    | some s' =>
      rw [h' hdone, h hfirst]
      rfl

theorem Does.first (h : f.Does g) : (f.first (β := β)).Does (Prod.map g id) := by
  intro x s y t hdone
  rw [Change.first] at hdone
  cases hfirst : f x.1 s with
  | mk x' s' =>
    rw [hfirst] at hdone
    cases hdone
    rw [h hfirst]
    rfl

theorem Does.second (h : f.Does g) : (f.second (α := β)).Does (Prod.map id g) := by
  intro x s y t hdone
  rw [Change.second] at hdone
  cases hsecond : f x.2 s with
  | mk x' s' =>
    rw [hsecond] at hdone
    cases hdone
    rw [h hsecond]
    rfl

theorem Does.each (h : f.Does g) : f.each.Does (List.map g) := by
  intro xs
  induction xs with
  | nil =>
    intro s y t hdone
    cases hdone
    rfl
  | cons x rest ih =>
    intro s y t hdone
    rw [Change.each] at hdone
    cases hx : f x s with
    | mk x' s' =>
      rw [hx] at hdone
      cases s' with
      | none => cases hdone
      | some s' =>
        cases hrest : f.each rest s' with
        | mk rest' s'' =>
          simp only [hrest] at hdone
          cases hdone
          rw [h hx, ih hrest, List.map_cons]

theorem Keeps.andThen (h : f.Keeps c) (h' : f'.Keeps c) : (f.andThen f').Keeps c := by
  intro x s
  have hx := h x s
  rw [Change.andThen]
  cases hfirst : f x s with
  | mk x' s' =>
    rw [hfirst] at hx
    cases s' with
    | none => exact hx
    | some s' => exact (h' x' s').trans hx

theorem Keeps.first {δ : Type} {d : β → δ} (h : f.Keeps c) : f.first.Keeps (Prod.map c d) :=
  fun x s => congrArg (·, d x.2) (h x.1 s)

theorem Keeps.second {δ : Type} {d : β → δ} (h : f.Keeps c) : f.second.Keeps (Prod.map d c) :=
  fun x s => congrArg (d x.1, ·) (h x.2 s)

theorem Keeps.each (h : f.Keeps c) : f.each.Keeps (List.map c) := by
  intro xs
  induction xs with
  | nil => exact fun s => rfl
  | cons x rest ih =>
    intro s
    have hx := h x s
    rw [Change.each]
    cases hfirst : f x s with
    | mk x' s' =>
      rw [hfirst] at hx
      cases s' with
      | none => rw [List.map_cons, List.map_cons, hx]
      | some s' => rw [List.map_cons, List.map_cons, hx, ih s']

end Change

/-- A list with each element that stands for another replaced by the next of those. -/
def refill (p : α → Bool) : List α → List α → List α
  | [], _ => []
  | x :: rest, held =>
    if p x then held.headD x :: refill p rest held.tail else x :: refill p rest held

variable {p : α → Bool}

theorem refill_map {g g' : α → α} (h : ∀ x, p (g x) = p x) (xs : List α) :
    refill p (xs.map g) ((xs.filter p).map g') = xs.map fun x => if p x then g' x else g x := by
  induction xs with
  | nil => rfl
  | cons x rest ih =>
    rw [List.map_cons, refill, h, List.map_cons]
    cases hp : p x with
    | true =>
      rw [List.filter_cons_of_pos hp, List.map_cons, ← ih]
      rfl
    | false =>
      rw [List.filter_cons_of_neg (by simp [hp]), ← ih]
      rfl

theorem map_refill {c : α → α} (h : ∀ x, p (c x) = p x) (xs held : List α) :
    (refill p xs held).map c = refill p (xs.map c) (held.map c) := by
  induction xs generalizing held with
  | nil => rfl
  | cons x rest ih =>
    rw [List.map_cons, refill, refill, h]
    cases p x with
    | false => exact congrArg (c x :: ·) (ih held)
    | true =>
      have htail := ih held.tail
      rw [List.map_tail] at htail
      refine congrArg₂ List.cons ?_ htail
      cases held <;> rfl

end Guatiao.Lib
