import Guatiao.Value.Tree

/-!
# Places inside a value

A place is the list of the keys from the root, a list position as its decimal text. Its
spelling as one line of text is for messages only.
-/

namespace Guatiao.Merge

open Lib

/-- A segment that reads as a list position or a number-like key: ASCII digits only. -/
def isDigits (segment : String) : Bool :=
  !segment.isEmpty && segment.toList.all fun c => c.isDigit

/-- A segment that cannot be written bare after a `.`. -/
def needsQuotes (segment : String) : Bool :=
  segment.isEmpty || segment.toList.any fun c => c == '.' || c == '[' || c == ']'

/-- A segment's text between quotes, with its quotes and backslashes escaped. -/
def escaped (segment : String) : String :=
  segment.toList.foldl (fun out c => (if c == '"' || c == '\\' then out.push '\\' else out).push c) ""

/-- One more segment behind what is spelled so far. -/
def renderSegment (out segment : String) (first : Bool) : String :=
  if isDigits segment then out ++ "[" ++ segment ++ "]"
  else if needsQuotes segment then out ++ "[\"" ++ escaped segment ++ "\"]"
  else (if first then out else out ++ ".") ++ segment

/-- Segments as one line of text. The root is the empty string. -/
def render (segments : List String) : String :=
  segments.zipIdx.foldl (fun out (segment, at_) => renderSegment out segment (at_ == 0)) ""

/-- Items under the texts of their positions, counted from a start. -/
def indexedFrom {α : Type*} (start : ℕ) : List α → List (String × α)
  | [] => []
  | v :: rest => (toString start, v) :: indexedFrom (start + 1) rest

theorem indexedFrom_map {α β : Type*} (f : α → β) (items : List α) (start : ℕ) :
    indexedFrom start (items.map f) = AssocList.mapValues f (indexedFrom start items) := by
  induction items generalizing start with
  | nil => rfl
  | cons v rest ih => simp [indexedFrom, ih]

/-- Items under the texts of their positions. -/
def indexed {α : Type*} (items : List α) : List (String × α) := indexedFrom 0 items

/-- What a container holds, under the segments that lead there. -/
def children : Value → List Entry
  | .map entries => entries
  | .list items => indexed items
  | _ => []

/-- Whether a value has nothing beneath it and is some opinion: a scalar, or an empty
container. -/
def isLeaf : Value → Bool
  | .absent => false
  | .map entries => entries.isEmpty
  | .list items => items.isEmpty
  | _ => true

/-- A value has a leaf at a place. -/
def LeafAt : Value → List String → Prop
  | v, [] => isLeaf v = true
  | v, segment :: rest => ∃ c, AssocList.get segment (children v) = some c ∧ LeafAt c rest

instance : ∀ v rest, Decidable (LeafAt v rest)
  | v, [] => inferInstanceAs (Decidable (isLeaf v = true))
  | v, segment :: rest =>
    match h : AssocList.get segment (children v) with
    | none => isFalse fun ⟨c, hc, _⟩ => by rw [h] at hc; cases hc
    | some c =>
      have := instDecidableLeafAt c rest
      decidable_of_iff (LeafAt c rest) ⟨fun hrest => ⟨c, h, hrest⟩, fun ⟨c', hc', hrest⟩ => by
        rw [h] at hc'
        cases hc'
        exact hrest⟩

theorem toString_inj {m n : ℕ} (h : toString m = toString n) : m = n := by
  have hdigits : Nat.toDigits 10 m = Nat.toDigits 10 n := by
    rw [← Nat.toList_repr, ← Nat.toList_repr]
    exact congrArg String.toList h
  rw [← Nat.ofDigitChars_ten_toDigits (n := m), hdigits, Nat.ofDigitChars_ten_toDigits]

theorem get_indexedFrom {α : Type*} (items : List α) (start at_ : ℕ) :
    AssocList.get (toString (start + at_)) (indexedFrom start items) = items[at_]? := by
  induction items generalizing start at_ with
  | nil => rfl
  | cons v rest ih =>
    cases at_ with
    | zero => simp [indexedFrom, AssocList.get]
    | succ at_ =>
      have hne : toString start ≠ toString (start + (at_ + 1)) := fun h => by
        have := toString_inj h
        omega
      rw [indexedFrom, AssocList.get, if_neg hne, List.getElem?_cons_succ, ← ih (start + 1),
        Nat.add_right_comm, Nat.add_assoc]

@[simp] theorem get_indexed {α : Type*} (items : List α) (at_ : ℕ) :
    AssocList.get (toString at_) (indexed items) = items[at_]? := by
  have h := get_indexedFrom items 0 at_
  rwa [Nat.zero_add] at h

theorem key_indexedFrom {α : Type*} {items : List α} {start : ℕ} {key : String} {v : α}
    (h : (key, v) ∈ indexedFrom start items) : ∃ at_, key = toString (start + at_) := by
  induction items generalizing start with
  | nil => cases h
  | cons w rest ih =>
    rcases List.mem_cons.mp h with heq | h
    · cases heq
      exact ⟨0, rfl⟩
    · obtain ⟨at_, rfl⟩ := ih h
      exact ⟨at_ + 1, by rw [Nat.add_right_comm, Nat.add_assoc]⟩

theorem eq_of_get_indexed {α : Type*} {items : List α} {key : String} {v : α}
    (h : AssocList.get key (indexed items) = some v) :
    ∃ at_ : ℕ, key = toString at_ ∧ items[at_]? = some v := by
  obtain ⟨at_, heq⟩ := key_indexedFrom (AssocList.mem_of_get h)
  rw [Nat.zero_add] at heq
  subst heq
  exact ⟨at_, rfl, by rwa [get_indexed] at h⟩

end Guatiao.Merge
