import Guatiao.Schema.Refs
import Mathlib.Logic.Relation

/-!
# Which references a copy leaves

A reference is left in place when a definition of its name is open where it stands. In a
recursive definition that is meant. It also happens beside a reference that opened the
definition, and where two definitions of one name are nested. Here is where reading a
document comes to a reference that stays, and to which definition it is.
-/

namespace Guatiao.Schema

open Lib

/-- The entries of a document. -/
def rootOf (schema : Value) : List Entry := schema.asMap.getD []

mutual

/-- A schema has a reference, at any depth outside of data, to the definition at a
place. -/
inductive Refers (root : List Entry) (place : String × String) : Value → Prop
  | here {map : List Entry} {reference : String} {found : Value}
      (href : AssocList.get Vocab.ref map = some (.string reference))
      (hfound : lookup root reference = some (place, found)) : Refers root place (.map map)
  | item {items : List Value} {v : Value} (hv : v ∈ items) (h : Refers root place v) :
      Refers root place (.list items)
  | entry {map : List Entry} {key : String} {v : Value} (hv : (key, v) ∈ map)
      (h : RefersUnder root place key v) : Refers root place (.map map)

/-- The value under a keyword has one: a map of names is not itself a schema, and an
instance has none. -/
inductive RefersUnder (root : List Entry) (place : String × String) : String → Value → Prop
  | plain {key : String} {v : Value} (hdata : key ∉ dataKeywords)
      (hnames : key ∈ nameMaps → v.asMap = none) (h : Refers root place v) :
      RefersUnder root place key v
  | named {key name : String} {names : List Entry} {v : Value} (hkey : key ∈ nameMaps)
      (hv : (name, v) ∈ names) (h : Refers root place v) : RefersUnder root place key (.map names)

end

/-- A schema refers to some definition of the document. -/
def HasRef (root : List Entry) (v : Value) : Prop := ∃ place, Refers root place v

/-- One definition refers to another. -/
def Names (root : List Entry) (place place' : String × String) : Prop :=
  (place.1 = Vocab.defs ∨ place.1 = Vocab.definitions) ∧
    ∃ under found, AssocList.get place.1 root = some under ∧ under.get place.2 = some found ∧
      Refers root place' found

/-- A definition refers to itself, directly or through others. -/
def Recursive (root : List Entry) (place : String × String) : Prop :=
  Relation.TransGen (Names root) place place

/-- With some definitions open, following references from a schema comes through some
maps, outermost first, to a schema from which none can be followed, and opens more.
Where there is a budget, a reference may be left for what following it costs. -/
inductive Leads (root : List Entry) (budgeted : Bool) :
    List String → Value → List (List Entry) → List String → Value → Prop
  | stop {active : List String} {v : Value}
      (hstop : ∀ map reference found name key, v = .map map →
        AssocList.get Vocab.ref map = some (.string reference) →
        lookup root reference = some ((key, name), found) → name ∈ active ∨ budgeted = true) :
      Leads root budgeted active v [] active v
  | hop {active active' : List String} {map : List Entry} {reference key name : String}
      {found w : Value} {referrers : List (List Entry)}
      (href : AssocList.get Vocab.ref map = some (.string reference))
      (hfound : lookup root reference = some ((key, name), found)) (hclosed : name ∉ active)
      (h : Leads root budgeted (name :: active) found referrers active' w) :
      Leads root budgeted active (.map map) (map :: referrers) active' w

/-- The references of a schema lead to a text. -/
def Spells (root : List Entry) (budgeted : Bool) (active : List String) (v : Value)
    (text : String) : Prop :=
  ∃ referrers active', Leads root budgeted active v referrers active' (.string text)

/-- Entries stored one after the other, but for some keys. -/
def stored (skip : String → Bool) : List Entry → List Entry → List Entry
  | [], out => out
  | (key, v) :: rest, out =>
    if skip key then stored skip rest out else stored skip rest (AssocList.set key v out)

/-- The entries a chain of references shows, as written: those of the schema it led to,
and over them those beside each reference, the outermost's last. -/
def laidOver (isRoot : Bool) : List (List Entry) → List Entry → List Entry
  | [], out => out
  | referrer :: inner, out =>
    stored (fun key => key == Vocab.ref || isRoot && isDefinitions key) referrer
      (laidOver false inner out)

/-- The entries shown where a chain of references led from `referrers` to `map`. -/
def shown (isRoot : Bool) (referrers : List (List Entry)) (map : List Entry) : List Entry :=
  laidOver isRoot referrers
    (stored (fun key => isRoot && referrers.isEmpty && isDefinitions key) map [])

/-- A schema standing right under a keyword. -/
inductive Under : String → Value → Value → Prop
  | plain {key : String} {v : Value} (hdata : key ∉ dataKeywords)
      (hnames : key ∈ nameMaps → v.asMap = none) (hlist : v.asList = none) : Under key v v
  | item {key : String} {items : List Value} {v : Value} (hdata : key ∉ dataKeywords)
      (hv : v ∈ items) : Under key (.list items) v
  | named {key name : String} {names : List Entry} {v : Value} (hkey : key ∈ nameMaps)
      (hv : (name, v) ∈ stored (fun _ => false) names []) : Under key (.map names) v

/-- Reading a schema with some definitions open, following references, comes to another,
with others open. -/
inductive Shows (root : List Entry) (budgeted : Bool) :
    List String → Bool → Value → List String → Bool → Value → Prop
  | here (active : List String) (isRoot : Bool) (v : Value) :
      Shows root budgeted active isRoot v active isRoot v
  | under {active active' active'' : List String} {isRoot isRoot' : Bool} {v w x y : Value}
      {referrers : List (List Entry)} {map : List Entry} {key : String}
      (hleads : Leads root budgeted active v referrers active' (.map map))
      (hx : (key, x) ∈ shown isRoot referrers map) (hy : Under key x y)
      (h : Shows root budgeted active' false y active'' isRoot' w) :
      Shows root budgeted active isRoot v active'' isRoot' w

/-- What is copied at a schema still refers to the definition at a place: the schema its
references lead to is a reference to it and its name is open there, or has under `$ref`
what leads to a text naming it, or is a list, which is copied as written. -/
inductive Blocked (root : List Entry) (budgeted : Bool) (place : String × String)
    (active : List String) (v : Value) : Prop
  | open_ {active' : List String} {referrers : List (List Entry)} {map : List Entry}
      {reference : String} {found : Value}
      (hleads : Leads root budgeted active v referrers active' (.map map))
      (href : AssocList.get Vocab.ref map = some (.string reference))
      (hfound : lookup root reference = some (place, found)) (hopen : place.2 ∈ active')
  | indirect {active' : List String} {referrers : List (List Entry)} {map map' : List Entry}
      {reference : String} {found : Value}
      (hleads : Leads root budgeted active v referrers active' (.map map))
      (href : AssocList.get Vocab.ref map = some (.map map'))
      (htext : Spells root budgeted active' (.map map') reference)
      (hfound : lookup root reference = some (place, found))
  | copied {active' : List String} {referrers : List (List Entry)} {items : List Value}
      (hleads : Leads root budgeted active v referrers active' (.list items))
      (href : Refers root place (.list items))

/-- Reading a schema comes to where the copy is left with a reference to the definition
at a place. -/
def Left (root : List Entry) (budgeted : Bool) (place : String × String) (active : List String)
    (isRoot : Bool) (v : Value) : Prop :=
  ∃ active' isRoot' w, Shows root budgeted active isRoot v active' isRoot' w ∧
    Blocked root budgeted place active' w

variable {root map : List Entry} {active : List String} {budgeted : Bool} {v : Value}
  {key : String} {place : String × String}

theorem Leads.unique (hall : budgeted = false) {active₁ active₂ : List String} {w₁ w₂ : Value}
    {referrers₁ referrers₂ : List (List Entry)}
    (h₁ : Leads root budgeted active v referrers₁ active₁ w₁)
    (h₂ : Leads root budgeted active v referrers₂ active₂ w₂) :
    referrers₁ = referrers₂ ∧ active₁ = active₂ ∧ w₁ = w₂ := by
  have hopen : ∀ {name : String} {active : List String}, name ∈ active ∨ budgeted = true →
      name ∈ active := by simp [hall]
  induction h₁ generalizing referrers₂ active₂ w₂ with
  | stop hstop =>
    cases h₂ with
    | stop => exact ⟨rfl, rfl, rfl⟩
    | hop href hfound hclosed _ => exact absurd (hopen (hstop _ _ _ _ _ rfl href hfound)) hclosed
  | hop href hfound hclosed _ ih =>
    cases h₂ with
    | stop hstop => exact absurd (hopen (hstop _ _ _ _ _ rfl href hfound)) hclosed
    | hop href' hfound' _ h₂ =>
      rw [href] at href'
      cases href'
      rw [hfound] at hfound'
      cases hfound'
      obtain ⟨rfl, rfl, rfl⟩ := ih h₂
      exact ⟨rfl, rfl, rfl⟩

theorem Leads.eq_of_not_map {active' : List String} {w : Value} {referrers : List (List Entry)}
    (h : Leads root budgeted active v referrers active' w) (hmap : v.asMap = none) : w = v := by
  cases h with
  | stop => rfl
  | hop => cases hmap

theorem spells_string {text text' : String} :
    Spells root budgeted active (.string text) text' ↔ text = text' := by
  constructor
  · rintro ⟨referrers, active', h⟩
    cases h
    rfl
  · rintro rfl
    exact ⟨[], active, .stop fun map _ _ _ _ h => nomatch h⟩

theorem not_spells_list {items : List Value} {text : String} :
    ¬Spells root budgeted active (.list items) text := by
  rintro ⟨referrers, active', h⟩
  cases h

theorem get_stored {skip : String → Bool} (hkeep : skip key = false)
    {entries out : List Entry} (hnodup : (AssocList.keys entries).Nodup) :
    AssocList.get key (stored skip entries out) =
      (AssocList.get key entries).or (AssocList.get key out) := by
  induction entries generalizing out with
  | nil => rfl
  | cons p rest ih =>
    obtain ⟨k, v⟩ := p
    simp only [AssocList.keys_cons, List.nodup_cons] at hnodup
    simp only [stored, AssocList.get]
    by_cases hk : k = key
    · subst hk
      have hrest : AssocList.get k rest = none := AssocList.get_eq_none_iff.mpr hnodup.1
      simp [hkeep, ih hnodup.2, hrest]
    · rw [if_neg hk]
      split
      · exact ih hnodup.2
      · rw [ih hnodup.2, AssocList.get_set_of_ne (Ne.symm hk)]

theorem get_stored_skip {skip : String → Bool} (hskip : skip key = true)
    (entries out : List Entry) :
    AssocList.get key (stored skip entries out) = AssocList.get key out := by
  induction entries generalizing out with
  | nil => rfl
  | cons p rest ih =>
    obtain ⟨k, v⟩ := p
    simp only [stored]
    split
    · exact ih out
    · next hkeep =>
      have hne : key ≠ k := by
        rintro rfl
        exact hkeep hskip
      rw [ih, AssocList.get_set_of_ne hne]

theorem get_ref_shown (isRoot : Bool) (referrers : List (List Entry))
    (hnodup : (AssocList.keys map).Nodup) :
    AssocList.get Vocab.ref (shown isRoot referrers map) = AssocList.get Vocab.ref map := by
  have hlaid : ∀ (isRoot : Bool) (referrers : List (List Entry)) (out : List Entry),
      AssocList.get Vocab.ref (laidOver isRoot referrers out) = AssocList.get Vocab.ref out := by
    intro isRoot referrers out
    induction referrers generalizing isRoot with
    | nil => rfl
    | cons referrer inner ih => rw [laidOver, get_stored_skip (by simp), ih]
  have hkeep : (fun key => isRoot && referrers.isEmpty && isDefinitions key) Vocab.ref = false := by
    have : isDefinitions Vocab.ref = false := by decide
    simp [this]
  rw [shown, hlaid, get_stored hkeep hnodup, AssocList.get_nil, Option.or_none]

theorem refers_list {items : List Value} :
    Refers root place (.list items) ↔ ∃ v ∈ items, Refers root place v := by
  constructor
  · intro h
    cases h with
    | item hv h => exact ⟨_, hv, h⟩
  · rintro ⟨v, hv, h⟩
    exact .item hv h

theorem refers_map :
    Refers root place (.map map) ↔
      (∃ reference found, AssocList.get Vocab.ref map = some (.string reference) ∧
        lookup root reference = some (place, found)) ∨
      ∃ key v, (key, v) ∈ map ∧ RefersUnder root place key v := by
  constructor
  · intro h
    cases h with
    | here href hfound => exact .inl ⟨_, _, href, hfound⟩
    | entry hv h => exact .inr ⟨_, _, hv, h⟩
  · rintro (⟨reference, found, href, hfound⟩ | ⟨key, v, hv, h⟩)
    · exact .here href hfound
    · exact .entry hv h

theorem not_refers (hmap : v.asMap = none) (hlist : v.asList = none) : ¬Refers root place v := by
  intro h
  cases h with
  | here => cases hmap
  | item => cases hlist
  | entry => cases hmap

theorem dataKeywords_disjoint (h : key ∈ nameMaps) : key ∉ dataKeywords := by
  have hall : ∀ k ∈ nameMaps, k ∉ dataKeywords := by decide
  exact hall key h

mutual

theorem found_of_refers {v : Value} : Refers root place v →
    ∃ reference found, lookup root reference = some (place, found)
  | .here _ hfound => ⟨_, _, hfound⟩
  | .item _ h => found_of_refers h
  | .entry _ h => found_of_refersUnder h

theorem found_of_refersUnder {key : String} {v : Value} : RefersUnder root place key v →
    ∃ reference found, lookup root reference = some (place, found)
  | .plain _ _ h => found_of_refers h
  | .named _ _ h => found_of_refers h

end

theorem not_refersUnder_data (hdata : key ∈ dataKeywords) : ¬RefersUnder root place key v := by
  intro h
  cases h with
  | plain hnot => exact hnot hdata
  | named hkey => exact dataKeywords_disjoint hkey hdata

theorem not_under_data {u : Value} (hdata : key ∈ dataKeywords) : ¬Under key v u := by
  intro h
  cases h with
  | plain hnot => exact hnot hdata
  | item hnot => exact hnot hdata
  | named hkey => exact dataKeywords_disjoint hkey hdata

theorem refersUnder_plain (hdata : key ∉ dataKeywords) (hnames : key ∈ nameMaps → v.asMap = none) :
    RefersUnder root place key v ↔ Refers root place v := by
  constructor
  · intro h
    cases h with
    | plain _ _ h => exact h
    | named hkey => exact absurd (hnames hkey) (by simp [Value.asMap])
  · exact .plain hdata hnames

theorem refersUnder_named {names : List Entry} (hkey : key ∈ nameMaps) :
    RefersUnder root place key (.map names) ↔ ∃ p ∈ names, Refers root place p.2 := by
  constructor
  · intro h
    cases h with
    | plain _ hnames => exact absurd (hnames hkey) (by simp [Value.asMap])
    | named _ hv h => exact ⟨_, hv, h⟩
  · rintro ⟨p, hp, h⟩
    exact .named hkey hp h

end Guatiao.Schema
