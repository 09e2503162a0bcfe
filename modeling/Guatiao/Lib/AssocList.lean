import Mathlib.Data.List.Basic
import Mathlib.Data.List.Forall2
import Mathlib.Data.List.Nodup

/-!
# Association lists in insertion order

A list of pairs searched from the front: a lookup answers the first pair under a
key, and a store under a key already present replaces the value where it stands,
else adds a pair at the end. With the keys distinct, a lookup is membership and the
order of the keys is the order they were first stored in.
-/

namespace Guatiao.Lib.AssocList

section Keys

variable {κ β γ : Type*}

/-- The keys, in order. -/
def keys (m : List (κ × β)) : List κ := m.map Prod.fst

@[simp] theorem keys_nil : keys ([] : List (κ × β)) = [] := rfl

@[simp] theorem keys_cons (p : κ × β) (m : List (κ × β)) : keys (p :: m) = p.1 :: keys m := rfl

@[simp] theorem keys_append (m n : List (κ × β)) : keys (m ++ n) = keys m ++ keys n := by
  simp [keys]

theorem key_mem {key : κ} {v : β} {m : List (κ × β)} (h : (key, v) ∈ m) : key ∈ keys m :=
  List.mem_map.mpr ⟨_, h, rfl⟩

/-- The pairs with their values mapped. -/
def mapValues (f : β → γ) (m : List (κ × β)) : List (κ × γ) := m.map fun p => (p.1, f p.2)

@[simp] theorem mapValues_nil (f : β → γ) : mapValues f ([] : List (κ × β)) = [] := rfl

@[simp] theorem mapValues_cons (f : β → γ) (p : κ × β) (m : List (κ × β)) :
    mapValues f (p :: m) = (p.1, f p.2) :: mapValues f m := rfl

@[simp] theorem keys_mapValues (f : β → γ) (m : List (κ × β)) : keys (mapValues f m) = keys m := by
  simp [keys, mapValues]

end Keys

variable {κ β : Type*} [DecidableEq κ]

/-- The value of the first pair under a key. -/
def get (key : κ) : List (κ × β) → Option β
  | [] => none
  | (k, v) :: rest => if k = key then some v else get key rest

/-- Whether some pair is under a key. -/
def contains (key : κ) (m : List (κ × β)) : Bool := (get key m).isSome

/-- Stores a value: in place under a key that is there, else at the end. -/
def set (key : κ) (value : β) : List (κ × β) → List (κ × β)
  | [] => [(key, value)]
  | (k, v) :: rest => if k = key then (k, value) :: rest else (k, v) :: set key value rest

@[simp] theorem get_nil (key : κ) : get key ([] : List (κ × β)) = none := rfl

variable {key : κ} {m : List (κ × β)} {v : β}

theorem mem_set {value : β} {p : κ × β} (h : p ∈ set key value m) : p = (key, value) ∨ p ∈ m := by
  induction m with
  | nil => exact .inl (List.mem_singleton.mp h)
  | cons q rest ih =>
    rw [set] at h
    split at h
    · next hkey =>
      rcases List.mem_cons.mp h with rfl | h
      · exact .inl (by rw [hkey])
      · exact .inr (List.mem_cons_of_mem _ h)
    · rcases List.mem_cons.mp h with rfl | h
      · exact .inr List.mem_cons_self
      · exact (ih h).imp_right (List.mem_cons_of_mem _)

theorem get_isSome_iff : (get key m).isSome ↔ key ∈ keys m := by
  induction m with
  | nil => simp
  | cons p rest ih =>
    obtain ⟨k, v⟩ := p
    by_cases h : k = key
    · simp [get, h]
    · simp [get, h, ih, Ne.symm h]

@[simp] theorem contains_iff :
    contains key m = true ↔ key ∈ keys m := get_isSome_iff

theorem get_eq_none_iff : get key m = none ↔ key ∉ keys m := by
  rw [← get_isSome_iff]
  simp

theorem mem_of_get (h : get key m = some v) :
    (key, v) ∈ m := by
  induction m with
  | nil => simp at h
  | cons p rest ih =>
    obtain ⟨k, w⟩ := p
    by_cases hk : k = key
    · simp only [get, hk, if_true, Option.some.injEq] at h
      simp [hk, h]
    · simp only [get, hk, if_false] at h
      exact List.mem_cons_of_mem _ (ih h)

theorem get_of_mem (hnodup : (keys m).Nodup) (h : (key, v) ∈ m) : get key m = some v := by
  induction m with
  | nil => simp at h
  | cons p rest ih =>
    obtain ⟨k, w⟩ := p
    simp only [keys_cons, List.nodup_cons] at hnodup
    rcases List.mem_cons.mp h with heq | hmem
    · simp_all [get]
    · have hk : k ≠ key := by
        rintro rfl
        exact hnodup.1 (List.mem_map.mpr ⟨_, hmem, rfl⟩)
      simpa [get, hk] using ih hnodup.2 hmem

/-- A lookup in two lists one after the other looks in the second where the first
finds nothing. -/
theorem get_append (key : κ) (m n : List (κ × β)) :
    get key (m ++ n) = (get key m).or (get key n) := by
  induction m with
  | nil => simp
  | cons p rest ih =>
    obtain ⟨k, v⟩ := p
    by_cases h : k = key
    · simp [get, h]
    · simp [get, h, ih]

theorem set_of_not_mem (h : key ∉ keys m) :
    set key v m = m ++ [(key, v)] := by
  induction m with
  | nil => rfl
  | cons p rest ih =>
    obtain ⟨k, w⟩ := p
    simp only [keys_cons, List.mem_cons, not_or] at h
    simp [set, Ne.symm h.1, ih h.2]

theorem keys_set_of_mem (h : key ∈ keys m) :
    keys (set key v m) = keys m := by
  induction m with
  | nil => simp at h
  | cons p rest ih =>
    obtain ⟨k, w⟩ := p
    by_cases hk : k = key
    · simp [set, hk]
    · have hrest : key ∈ keys rest := by simpa [Ne.symm hk] using h
      simp [set, hk, ih hrest]

theorem nodup_keys_set (h : (keys m).Nodup) :
    (keys (set key v m)).Nodup := by
  by_cases hk : key ∈ keys m
  · rwa [keys_set_of_mem hk]
  · rw [set_of_not_mem hk, keys_append]
    refine List.nodup_append.mpr ⟨h, by simp, ?_⟩
    rintro a ha b hb rfl
    rw [keys_cons, keys_nil, List.mem_singleton] at hb
    rw [hb] at ha
    exact hk ha

theorem mem_keys_set {k : κ} :
    k ∈ keys (set key v m) ↔ k = key ∨ k ∈ keys m := by
  by_cases hk : key ∈ keys m
  · rw [keys_set_of_mem hk]
    constructor
    · exact Or.inr
    · rintro (rfl | h) <;> assumption
  · rw [set_of_not_mem hk]
    simp [or_comm]

@[simp] theorem get_set_self (key : κ) (v : β) (m : List (κ × β)) :
    get key (set key v m) = some v := by
  induction m with
  | nil => simp [set, get]
  | cons p rest ih =>
    obtain ⟨k, w⟩ := p
    by_cases hk : k = key
    · simp [set, get, hk]
    · simp [set, get, hk, ih]

theorem get_set_of_ne {k : κ} (hne : k ≠ key) (v : β) (m : List (κ × β)) :
    get k (set key v m) = get k m := by
  induction m with
  | nil => simp [set, get, Ne.symm hne]
  | cons p rest ih =>
    obtain ⟨l, w⟩ := p
    by_cases hk : l = key
    · subst hk
      simp [set, get, Ne.symm hne]
    · by_cases hl : l = k
      · subst hl
        simp [set, get, hk]
      · simp [set, get, hk, hl, ih]

theorem get_foldl_set {stored : List (κ × β)}
    (h : get key (stored.foldl (fun m p => set p.1 p.2 m) m) = some v) :
    (key, v) ∈ stored ∨ get key m = some v := by
  induction stored generalizing m with
  | nil => exact .inr h
  | cons p rest ih =>
    rcases ih h with hmem | hget
    · exact .inl (List.mem_cons_of_mem _ hmem)
    · by_cases hkey : key = p.1
      · subst hkey
        rw [get_set_self, Option.some.injEq] at hget
        exact .inl (by simp [← hget])
      · exact .inr (by rwa [get_set_of_ne hkey] at hget)

theorem get_filter (p : κ → Prop) [DecidablePred p] (key : κ) (m : List (κ × β)) :
    get key (m.filter fun e => p e.1) = if p key then get key m else none := by
  induction m with
  | nil => simp
  | cons e rest ih =>
    obtain ⟨k, w⟩ := e
    by_cases hk : k = key
    · subst hk
      by_cases hp : p k
      · simp [hp, get]
      · simpa [hp] using ih
    · by_cases hp : p k
      · simpa [hp, get, hk] using ih
      · simpa [hp, get, hk] using ih

theorem get_map_at (at_ key : κ) (f : β → β) (m : List (κ × β)) :
    get key (m.map fun e => if e.1 = at_ then (e.1, f e.2) else e) =
      if key = at_ then (get key m).map f else get key m := by
  induction m with
  | nil => simp
  | cons e rest ih =>
    obtain ⟨k, w⟩ := e
    by_cases hk : k = key
    · subst hk
      by_cases hat : k = at_
      · simp [hat, get]
      · simp [hat, get]
    · by_cases hat : k = at_
      · simp only [List.map_cons, hat, if_true, get, ih]
        simp [← hat, hk]
      · simp [hat, get, hk, ih]

section Map

variable {γ : Type*} (f : β → γ)

@[simp] theorem get_mapValues (key : κ) (m : List (κ × β)) :
    get key (mapValues f m) = (get key m).map f := by
  induction m with
  | nil => rfl
  | cons p rest ih =>
    obtain ⟨k, v⟩ := p
    simp only [mapValues_cons, get, ih]
    split <;> rfl

@[simp] theorem contains_mapValues (key : κ) (m : List (κ × β)) :
    contains key (mapValues f m) = contains key m := by
  simp [contains]

@[simp] theorem set_mapValues (key : κ) (v : β) (m : List (κ × β)) :
    set key (f v) (mapValues f m) = mapValues f (set key v m) := by
  induction m with
  | nil => rfl
  | cons p rest ih =>
    obtain ⟨k, w⟩ := p
    simp only [mapValues_cons, set, ih]
    split <;> rfl

end Map

section Forall₂

variable {γ : Type*} {R : κ × β → κ × γ → Prop} {m : List (κ × β)} {n : List (κ × γ)}

variable {key : κ}

theorem get_forall₂ (hkey : ∀ p q, R p q → p.1 = q.1) (h : List.Forall₂ R m n) {w : γ}
    (hget : get key n = some w) : ∃ v, get key m = some v ∧ R (key, v) (key, w) := by
  induction h with
  | nil => cases hget
  | @cons p q m n hhead _ ih =>
    obtain ⟨k, v⟩ := p
    obtain ⟨l, u⟩ := q
    have hkl : k = l := hkey _ _ hhead
    subst hkl
    by_cases hk : k = key
    · subst hk
      simp only [get, if_true, Option.some.injEq] at hget
      subst hget
      exact ⟨v, by simp [get], hhead⟩
    · simp only [get, if_neg hk] at hget ⊢
      exact ih hget

theorem get_forall₂_left (hkey : ∀ p q, R p q → p.1 = q.1) (h : List.Forall₂ R m n)
    {v : β} (hget : get key m = some v) : ∃ w, get key n = some w ∧ R (key, v) (key, w) :=
  get_forall₂ (R := fun q p => R p q) (fun q p h => (hkey p q h).symm) h.flip hget

theorem set_forall₂ (hkey : ∀ p q, R p q → p.1 = q.1) (h : List.Forall₂ R m n) {v : β}
    {w : γ} (hvw : R (key, v) (key, w)) : List.Forall₂ R (set key v m) (set key w n) := by
  induction h with
  | nil => exact .cons hvw .nil
  | @cons p q m n hhead hrest ih =>
    obtain ⟨k, u⟩ := p
    obtain ⟨l, u'⟩ := q
    have hkl : k = l := hkey _ _ hhead
    subst hkl
    by_cases hk : k = key
    · subst hk
      simp only [set, if_true]
      exact .cons hvw hrest
    · simp only [set, if_neg hk]
      exact .cons hhead ih

end Forall₂

end Guatiao.Lib.AssocList

/-!
## The first of each key

The elements of a list are entered one after the other, each under a key of its own, and the first
under a key keeps its place there. Elements that are equal have one key, so whether an element of
the list is equal to another is answered by what is entered under its key and, where that is none
equal to it, by the whole list.
-/

namespace Guatiao.Lib

open AssocList

variable {κ α : Type} [DecidableEq κ]

/-- A position entered under a key, unless there is one. -/
def enterFirst (key : κ) (at_ : ℕ) (m : List (κ × ℕ)) : List (κ × ℕ) :=
  if AssocList.contains key m then m else AssocList.set key at_ m

/-- Elements entered, from a position on. -/
def enterAll (key : α → κ) : ℕ → List α → List (κ × ℕ) → List (κ × ℕ)
  | _, [], m => m
  | at_, x :: rest, m => enterAll key (at_ + 1) rest (enterFirst (key x) at_ m)

/-- Each key's first position in a list. -/
def firstSeen (key : α → κ) (xs : List α) : List (κ × ℕ) := enterAll key 0 xs []

theorem get_enterFirst (key k : κ) (at_ : ℕ) (m : List (κ × ℕ)) :
    AssocList.get k (enterFirst key at_ m) =
      (AssocList.get k m).or (if key = k then some at_ else none) := by
  unfold enterFirst AssocList.contains
  by_cases hk : key = k
  · subst hk
    cases hget : AssocList.get key m with
    | some i => simp [hget]
    | none => simp
  · rw [if_neg hk, Option.or_none]
    split
    · rfl
    · exact get_set_of_ne (Ne.symm hk) at_ m

theorem enterAll_append (key : α → κ) (at_ : ℕ) (xs ys : List α) (m : List (κ × ℕ)) :
    enterAll key at_ (xs ++ ys) m = enterAll key (at_ + xs.length) ys (enterAll key at_ xs m) := by
  induction xs generalizing at_ m with
  | nil => rfl
  | cons x xs ih =>
    rw [List.cons_append, enterAll, ih, enterAll, List.length_cons]
    congr 1
    omega

theorem get_enterAll (key : α → κ) (k : κ) (at_ : ℕ) (xs : List α) (m : List (κ × ℕ)) :
    AssocList.get k (enterAll key at_ xs m) =
      (AssocList.get k m).or ((xs.findIdx? fun x => key x = k).map (· + at_)) := by
  induction xs generalizing at_ m with
  | nil => simp [enterAll]
  | cons x xs ih =>
    rw [enterAll, ih, get_enterFirst, List.findIdx?_cons, Option.or_assoc]
    congr 1
    by_cases hk : key x = k
    · simp [hk]
    · simp only [hk, if_false, Option.none_or, decide_false, Bool.false_eq_true, Option.map_map]
      congr 1
      funext i
      simp only [Function.comp_apply]
      omega

theorem get_firstSeen (key : α → κ) (k : κ) (xs : List α) :
    AssocList.get k (firstSeen key xs) = xs.findIdx? fun x => key x = k := by
  rw [firstSeen, get_enterAll]
  simp

theorem firstSeen_take (key : α → κ) (xs : List α) {n : ℕ} (h : n ≤ xs.length) :
    enterAll key n (xs.drop n) (firstSeen key (xs.take n)) = firstSeen key xs := by
  have happend := enterAll_append key 0 (xs.take n) (xs.drop n) []
  rw [List.take_append_drop, Nat.zero_add, List.length_take, Nat.min_eq_left h] at happend
  exact happend.symm

theorem any_eq_false_of_firstSeen {key : α → κ} (same : α → α → Bool)
    (hsame : ∀ x y, same x y = true → key x = key y) {xs : List α} {y : α}
    (h : AssocList.get (key y) (firstSeen key xs) = none) : (xs.any fun x => same x y) = false := by
  rw [get_firstSeen, List.findIdx?_eq_none_iff] at h
  rw [List.any_eq_false]
  intro x hx hxy
  exact absurd (hsame x y hxy) (of_decide_eq_false (h x hx))

end Guatiao.Lib
