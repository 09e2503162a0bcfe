import Guatiao.Visit.Events
import Guatiao.Lib.Yields

/-!
# A tree built from events

The sink that builds the value its events describe. A repeated key replaces the first,
as a map's store does, and no promise is held to: what it refuses is events out of order
and a number outside the grammar. A refusal ends the build, so the sink behind one is
not modelled.
-/

namespace Guatiao.Visit

open Lib

/-- A container being built, and for a map the key its next value goes under. -/
inductive Open where
  | list (items : List Value)
  | map (entries : List Entry) (key : String) (keyed : Bool)

/-- The containers being built, innermost first, and the value once it is whole. -/
structure TreeSink where
  stack : List Open
  done : Option Value

namespace TreeSink

/-- Nothing built yet. -/
def new : TreeSink := ⟨[], none⟩

/-- The value the events built. -/
def intoValue (s : TreeSink) : Except ValueError Value :=
  match s.stack, s.done with
  | [], some v => .ok v
  | _, _ => .error .wrongKind

/-- Whether a value may come next: at the top before the one value, in a list, or in a
map after a key. -/
def ready (s : TreeSink) : Except ValueError Unit :=
  match s.stack with
  | [] => if s.done.isSome then .error .wrongKind else .ok ()
  | .map _ _ false :: _ => .error .wrongKind
  | _ => .ok ()

/-- Puts a finished value where it goes. -/
def place (s : TreeSink) (value : Value) : Except ValueError TreeSink :=
  match s.stack with
  | [] => if s.done.isSome then .error .wrongKind else .ok { s with done := some value }
  | .list items :: below => .ok { s with stack := .list (items ++ [value]) :: below }
  | .map entries key keyed :: below =>
    if keyed then
      .ok { s with stack := .map (AssocList.set key value entries) key false :: below }
    else .error .wrongKind

/-- A value that is one event. -/
def leaf (s : TreeSink) (value : Value) : Except ValueError TreeSink := do
  s.ready
  s.place value

/-- One event. -/
def on (s : TreeSink) : Event → Except ValueError TreeSink
  | .absent => s.leaf .absent
  | .null => s.leaf .null
  | .bool b => s.leaf (.bool b)
  | .number text => do
    s.ready
    match Number.new text with
    | some n => s.place (.number n)
    | none => .error .notANumber
  | .string text => s.leaf (.string text)
  | .bytes data => s.leaf (.bytes data)
  | .listBegin _ => do
    s.ready
    .ok { s with stack := .list [] :: s.stack }
  | .listEnd =>
    match s.stack with
    | .list items :: below => place { s with stack := below } (.list items)
    | _ => .error .wrongKind
  | .mapBegin _ => do
    s.ready
    .ok { s with stack := .map [] "" false :: s.stack }
  | .key text =>
    match s.stack with
    | .map entries _ false :: below => .ok { s with stack := .map entries text true :: below }
    | _ => .error .wrongKind
  | .mapEnd =>
    match s.stack with
    | .map entries _ false :: below => place { s with stack := below } (.map entries)
    | _ => .error .wrongKind

/-- Events one after the other, up to the first refused. -/
def feed (s : TreeSink) : List Event → Except ValueError TreeSink
  | [] => .ok s
  | event :: rest => do
    let s ← s.on event
    s.feed rest

/-- The value some events build. -/
def build (events : List Event) : Except ValueError Value := do
  let s ← new.feed events
  s.intoValue

/-- An open container of the sink holds what one of the draft does. -/
inductive Holds : Part → Open → Prop
  | list (promised : Option ℕ) (items : List Value) : Holds (.list promised items) (.list items)
  | unkeyed (promised : Option ℕ) (entries : List Entry) (key : String) :
      Holds (.map promised entries none) (.map entries key false)
  | keyed (promised : Option ℕ) (entries : List Entry) (key : String)
      (hnew : key ∉ AssocList.keys entries) :
      Holds (.map promised entries (some key)) (.map entries key true)

/-- The sink is where the draft is. -/
def Follows (s : TreeSink) (d : Draft) : Prop :=
  List.Forall₂ Holds d.stack s.stack ∧ s.done = d.done

variable {s : TreeSink} {d d' : Draft}

theorem Follows.ready (h : s.Follows d) (hready : d.Ready) : s.ready = .ok () := by
  obtain ⟨dstack, ddone⟩ := d
  obtain ⟨stack, done⟩ := s
  obtain ⟨hstack, hdone⟩ := h
  cases hstack with
  | nil =>
    cases hdone
    cases hready
    rfl
  | cons hpart _ =>
    cases hpart with
    | list => rfl
    | unkeyed => exact absurd hready.1 Bool.false_ne_true
    | keyed => rfl

theorem Follows.place (h : s.Follows d) (hready : d.Ready) (v : Value) :
    ∃ s', s.place v = .ok s' ∧ s'.Follows (d.put v) := by
  obtain ⟨dstack, ddone⟩ := d
  obtain ⟨stack, done⟩ := s
  obtain ⟨hstack, hdone⟩ := h
  cases hstack with
  | nil =>
    cases hdone
    cases hready
    exact ⟨_, rfl, .nil, rfl⟩
  | cons hpart hbelow =>
    cases hpart with
    | list promised items => exact ⟨_, rfl, .cons (.list promised _) hbelow, hdone⟩
    | unkeyed => exact absurd hready.1 Bool.false_ne_true
    | keyed promised entries key hnew =>
      refine ⟨_, rfl, .cons ?_ hbelow, hdone⟩
      rw [AssocList.set_of_not_mem hnew]
      exact .unkeyed promised _ key

theorem Follows.leaf (h : s.Follows d) {v : Value} (hleaf : d.leaf v = some d') :
    ∃ s', s.leaf v = .ok s' ∧ s'.Follows d' := by
  unfold Draft.leaf at hleaf
  split at hleaf
  · next hready =>
    cases hleaf
    obtain ⟨s', hplace, hfollows⟩ := h.place hready v
    refine ⟨s', ?_, hfollows⟩
    simp only [TreeSink.leaf, h.ready hready, Bind.bind, Except.bind, hplace]
  · cases hleaf

theorem Follows.begin (h : s.Follows d) {part : Part} {opened : Open}
    (hpart : Holds part opened) (hbegin : d.begin part = some d') :
    s.ready = .ok () ∧ Follows { s with stack := opened :: s.stack } d' := by
  unfold Draft.begin at hbegin
  split at hbegin
  · next hready =>
    cases hbegin
    exact ⟨h.ready hready, .cons hpart h.1, h.2⟩
  · cases hbegin

theorem Follows.ended (h : s.Follows d) {before : List Event} (hgiven : d.Given before)
    {part : Part} {below : List Part} (hstack : d.stack = part :: below) (v : Value) :
    ∃ opened under, s.stack = opened :: under ∧ Holds part opened ∧
      ∃ s', TreeSink.place { s with stack := under } v = .ok s' ∧
        s'.Follows (Draft.put { d with stack := below } v) := by
  obtain ⟨dstack, ddone⟩ := d
  obtain ⟨stack, done⟩ := s
  obtain ⟨hforall, hdone⟩ := h
  obtain ⟨rfl, hconsumed⟩ := hgiven.consumed (.inr (by rw [hstack]; simp))
  cases hstack
  cases hdone
  cases hforall with
  | @cons _ opened _ under hpart hbelow =>
    cases hconsumed with
    | cons _ hbegun _ =>
      have hfollows : Follows ⟨under, none⟩ ⟨below, none⟩ := ⟨hbelow, rfl⟩
      exact ⟨opened, under, rfl, hpart, hfollows.place hbegun v⟩

/-- The sink accepts what the draft accepts. -/
theorem Follows.on (h : s.Follows d) {event : Event} {before : List Event}
    (hgiven : d.Given before) (hstep : d.step event = some d') :
    ∃ s', s.on event = .ok s' ∧ s'.Follows d' := by
  cases event with
  | number text =>
    cases hnew : Number.new text with
    | none => simp [Draft.step, hnew] at hstep
    | some n =>
      rw [Draft.step, hnew] at hstep
      obtain ⟨s', hleaf, hfollows⟩ := h.leaf hstep
      refine ⟨s', ?_, hfollows⟩
      simp only [TreeSink.on, hnew]
      exact hleaf
  | listBegin len =>
    obtain ⟨hready, hfollows⟩ := h.begin (.list len []) hstep
    exact ⟨_, by simp only [TreeSink.on, hready, Bind.bind, Except.bind], hfollows⟩
  | mapBegin len =>
    obtain ⟨hready, hfollows⟩ := h.begin (.unkeyed len [] "") hstep
    exact ⟨_, by simp only [TreeSink.on, hready, Bind.bind, Except.bind], hfollows⟩
  | listEnd =>
    simp only [Draft.step] at hstep
    split at hstep
    · next promised items below hstack =>
      split at hstep
      · cases hstep
        obtain ⟨opened, under, hunder, hpart, s', hplace, hfollows⟩ :=
          h.ended hgiven hstack (.list items)
        cases hpart
        exact ⟨s', by simpa only [TreeSink.on, hunder] using hplace, hfollows⟩
      · cases hstep
    · cases hstep
  | key text =>
    simp only [Draft.step] at hstep
    split at hstep
    · next promised entries below hstack =>
      split at hstep
      · cases hstep
      · next hnew =>
        cases hstep
        obtain ⟨hforall, hdone⟩ := h
        rw [hstack] at hforall
        cases hopen : s.stack with
        | nil =>
          rw [hopen] at hforall
          cases hforall
        | cons opened under =>
          rw [hopen] at hforall
          cases hforall with
          | cons hpart hbelow =>
            cases hpart
            refine ⟨{ s with stack := .map entries text true :: under }, ?_, ?_, hdone⟩
            · simp only [TreeSink.on, hopen]
            · exact .cons (.keyed promised entries text hnew) hbelow
    · cases hstep
  | mapEnd =>
    simp only [Draft.step] at hstep
    split at hstep
    · next promised entries below hstack =>
      split at hstep
      · cases hstep
        obtain ⟨opened, under, hunder, hpart, s', hplace, hfollows⟩ :=
          h.ended hgiven hstack (.map entries)
        cases hpart
        exact ⟨s', by simpa only [TreeSink.on, hunder] using hplace, hfollows⟩
      · cases hstep
    · cases hstep
  | _ => exact h.leaf hstep

theorem Follows.feed (h : s.Follows d) {events before : List Event} (hgiven : d.Given before)
    (hrun : d.run events = some d') : ∃ s', s.feed events = .ok s' ∧ s'.Follows d' := by
  induction events generalizing s d before with
  | nil =>
    cases hrun
    exact ⟨s, rfl, h⟩
  | cons event rest ih =>
    simp only [Draft.run] at hrun
    cases hstep : d.step event with
    | none => simp [hstep] at hrun
    | some next =>
      rw [hstep, Option.bind_some] at hrun
      obtain ⟨s', hon, hfollows⟩ := h.on hgiven hstep
      obtain ⟨s'', hfeed, hfollows'⟩ := ih hfollows (hgiven.step hstep) hrun
      exact ⟨s'', by simpa only [TreeSink.feed, hon, Bind.bind, Except.bind] using hfeed, hfollows'⟩

theorem build_spells {events : List Event} {v : Value} (h : Spells events v) :
    build events = .ok v := by
  have hnew : new.Follows .new := ⟨.nil, rfl⟩
  obtain ⟨s, hfeed, hstack, hdone⟩ :=
    hnew.feed Draft.Consumed.nil (Draft.run_eq_done.mpr h)
  obtain ⟨stack, done⟩ := s
  cases hstack
  cases hdone
  simp only [build, hfeed, Bind.bind, Except.bind]
  rfl

/-- The sink behind a value put where one may come. -/
def put (s : TreeSink) (v : Value) : TreeSink :=
  match s.stack with
  | [] => { s with done := some v }
  | .list items :: below => { s with stack := .list (items ++ [v]) :: below }
  | .map entries key _ :: below =>
    { s with stack := .map (AssocList.set key v entries) key false :: below }

variable {s' : TreeSink} {v : Value}

theorem place_iff : s.place v = .ok s' ↔ s.ready = .ok () ∧ s' = s.put v := by
  obtain ⟨stack, done⟩ := s
  rcases stack with _ | ⟨items | ⟨entries, key, keyed⟩, below⟩
  · cases done <;> simp [place, ready, put, eq_comm]
  · simp [place, ready, put, eq_comm]
  · cases keyed <;> simp [place, ready, put, eq_comm]

theorem leaf_iff : s.leaf v = .ok s' ↔ s.ready = .ok () ∧ s' = s.put v := by
  constructor
  · intro h
    obtain ⟨u, -, hplace⟩ := Lib.bind_eq_ok h
    exact place_iff.mp hplace
  · intro h
    have hplace := place_iff.mpr h
    rw [leaf, h.1]
    exact hplace

theorem on_number_iff {text : String} : s.on (.number text) = .ok s' ↔
    ∃ n, Number.new text = some n ∧ s.ready = .ok () ∧ s' = s.put (.number n) := by
  constructor
  · intro h
    obtain ⟨u, -, h⟩ := Lib.bind_eq_ok h
    cases hnew : Number.new text with
    | none =>
      rw [hnew] at h
      cases h
    | some n =>
      rw [hnew] at h
      exact ⟨n, rfl, place_iff.mp h⟩
  · rintro ⟨n, hnew, h⟩
    have hplace := place_iff.mpr h
    rw [on, h.1, hnew]
    exact hplace

theorem on_listBegin_iff {len : Option ℕ} : s.on (.listBegin len) = .ok s' ↔
    s.ready = .ok () ∧ s' = ⟨.list [] :: s.stack, s.done⟩ := by
  constructor
  · intro h
    obtain ⟨u, hready, h⟩ := Lib.bind_eq_ok h
    exact ⟨hready, (Except.ok.inj h).symm⟩
  · rintro ⟨hready, rfl⟩
    rw [on, hready]
    rfl

theorem on_mapBegin_iff {len : Option ℕ} : s.on (.mapBegin len) = .ok s' ↔
    s.ready = .ok () ∧ s' = ⟨.map [] "" false :: s.stack, s.done⟩ := by
  constructor
  · intro h
    obtain ⟨u, hready, h⟩ := Lib.bind_eq_ok h
    exact ⟨hready, (Except.ok.inj h).symm⟩
  · rintro ⟨hready, rfl⟩
    rw [on, hready]
    rfl

end TreeSink

end Guatiao.Visit
