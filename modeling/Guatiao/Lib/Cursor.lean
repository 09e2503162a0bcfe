import Mathlib.Data.List.Basic

/-!
# Reading pieces off the front

A cursor is what is left to read and how much was read. A reader is exact when it answers a thing
exactly where the thing's one spelling comes next; exact readers one after the other accept exactly
the spellings one after the other.
-/

namespace Guatiao.Lib

/-- What is left to read, and how much was. -/
structure Cursor (α : Type*) where
  rest : List α
  pos : ℕ

/-- A cursor in front of everything. -/
def Cursor.start {α : Type*} (all : List α) : Cursor α := ⟨all, 0⟩

/-- What reads one piece off the front, or refuses. -/
abbrev Reads (α E X : Type) := Cursor α → Except E (X × Cursor α)

variable {α E X Y : Type}

/-- A reader answers the things that meet `P`, each exactly where its spelling comes next. -/
structure Exact (read : Reads α E X) (spell : X → List α) (P : X → Prop) : Prop where
  sound : ∀ c x c', read c = .ok (x, c') → P x ∧ c.rest = spell x ++ c'.rest
  complete : ∀ c x tail, P x → c.rest = spell x ++ tail → ∃ c', read c = .ok (x, c') ∧ c'.rest = tail

namespace Exact

variable {read : Reads α E X} {spell : X → List α} {P : X → Prop} {c : Cursor α}
  {next : X × Cursor α → Except E Y} {x : X} {y : Y}

theorem of_bind (h : Exact read spell P) (hok : (read c >>= next) = .ok y) :
    ∃ x c', P x ∧ c.rest = spell x ++ c'.rest ∧ next (x, c') = .ok y := by
  cases hread : read c with
  | error e =>
    rw [hread] at hok
    cases hok
  | ok p =>
    obtain ⟨x, c'⟩ := p
    obtain ⟨hx, hrest⟩ := h.sound c x c' hread
    rw [hread] at hok
    exact ⟨x, c', hx, hrest, hok⟩

theorem bind (h : Exact read spell P) {tail : List α} (hx : P x) (hrest : c.rest = spell x ++ tail)
    (hnext : ∀ c', c'.rest = tail → next (x, c') = .ok y) : (read c >>= next) = .ok y := by
  obtain ⟨c', hread, htail⟩ := h.complete c x tail hx hrest
  rw [hread]
  exact hnext c' htail

theorem then_answers (h : Exact read spell P) {next : X × Cursor α → Except E (Y × Cursor α)}
    {tail tail' : List α} (hx : P x) (hrest : c.rest = spell x ++ tail)
    (hnext : ∀ c', c'.rest = tail → ∃ c'', next (x, c') = .ok (y, c'') ∧ c''.rest = tail') :
    ∃ c'', (read c >>= next) = .ok (y, c'') ∧ c''.rest = tail' := by
  obtain ⟨c', hread, htail⟩ := h.complete c x tail hx hrest
  rw [hread]
  exact hnext c' htail

theorem map (h : Exact read spell P) {f : X → Y} {spell' : Y → List α} {P' : Y → Prop}
    (hinto : ∀ x, P x → P' (f x) ∧ spell' (f x) = spell x)
    (honto : ∀ y, P' y → ∃ x, P x ∧ f x = y ∧ spell x = spell' y) :
    Exact (fun c => (read c).map fun p => (f p.1, p.2)) spell' P' where
  sound c y c' hok := by
    cases hread : read c with
    | error e =>
      rw [hread] at hok
      cases hok
    | ok p =>
      obtain ⟨x, c₁⟩ := p
      rw [hread] at hok
      cases hok
      obtain ⟨hx, hrest⟩ := h.sound c x c₁ hread
      obtain ⟨hy, hspell⟩ := hinto x hx
      exact ⟨hy, by rw [hspell]; exact hrest⟩
  complete c y tail hy hrest := by
    obtain ⟨x, hx, rfl, hspell⟩ := honto y hy
    obtain ⟨c', hread, htail⟩ := h.complete c x tail hx (by rw [hspell]; exact hrest)
    refine ⟨c', ?_, htail⟩
    rw [hread]
    rfl

end Exact

/-- A reader answers a thing where one of its spellings comes next, and where such a one comes and
what follows may stand behind it, the thing is answered. -/
structure Recognizes (read : Reads α E X) (spells : X → List α → Prop) (stop : List α → Prop) :
    Prop where
  sound : ∀ c x c', read c = .ok (x, c') → ∃ piece, spells x piece ∧ c.rest = piece ++ c'.rest
  complete : ∀ c x piece tail, spells x piece → stop tail → c.rest = piece ++ tail →
    ∃ c', read c = .ok (x, c') ∧ c'.rest = tail

theorem Exact.recognizes {read : Reads α E X} {spell : X → List α} {P : X → Prop}
    (h : Exact read spell P) :
    Recognizes read (fun x piece => P x ∧ piece = spell x) fun _ => True where
  sound c x c' hok := by
    obtain ⟨hx, hrest⟩ := h.sound c x c' hok
    exact ⟨spell x, ⟨hx, rfl⟩, hrest⟩
  complete c x piece tail hpiece _ hrest := by
    obtain ⟨hx, rfl⟩ := hpiece
    exact h.complete c x tail hx hrest

namespace Recognizes

variable {read : Reads α E X} {spells : X → List α → Prop} {stop : List α → Prop} {c : Cursor α}
  {next : X × Cursor α → Except E Y} {x : X} {y : Y}

theorem of_bind (h : Recognizes read spells stop) (hok : (read c >>= next) = .ok y) :
    ∃ x piece c', spells x piece ∧ c.rest = piece ++ c'.rest ∧ next (x, c') = .ok y := by
  cases hread : read c with
  | error e =>
    rw [hread] at hok
    cases hok
  | ok p =>
    obtain ⟨x, c'⟩ := p
    obtain ⟨piece, hpiece, hrest⟩ := h.sound c x c' hread
    rw [hread] at hok
    exact ⟨x, piece, c', hpiece, hrest, hok⟩

theorem then_answers (h : Recognizes read spells stop)
    {next : X × Cursor α → Except E (Y × Cursor α)} {piece tail tail' : List α} (hx : spells x piece)
    (hstop : stop tail) (hrest : c.rest = piece ++ tail)
    (hnext : ∀ c', c'.rest = tail → ∃ c'', next (x, c') = .ok (y, c'') ∧ c''.rest = tail') :
    ∃ c'', (read c >>= next) = .ok (y, c'') ∧ c''.rest = tail' := by
  obtain ⟨c', hread, htail⟩ := h.complete c x piece tail hx hstop hrest
  rw [hread]
  exact hnext c' htail

end Recognizes

end Guatiao.Lib
