import Guatiao.Value.Tree

/-!
# Values as events

A walk hands a sink one event a leaf, and two a container, with the keys of a map
between them. `Spells` is the grammar of the events of one well formed value. `Draft` is
what any sink knows after some events, the containers half given and the promises made
for them, and it accepts events exactly while they can still be the start of a value.
-/

namespace Guatiao.Visit

open Lib

/-- What a sink is told. A container's length may be promised when it begins. -/
inductive Event where
  | absent
  | null
  | bool (b : Bool)
  | number (text : String)
  | string (text : String)
  | bytes (data : List UInt8)
  | listBegin (len : Option ℕ)
  | listEnd
  | mapBegin (len : Option ℕ)
  | key (text : String)
  | mapEnd
  deriving DecidableEq

mutual

/-- The events are exactly one well formed value: each promised count is met, no map
repeats a key, and each number is in the grammar. -/
inductive Spells : List Event → Value → Prop
  | absent : Spells [.absent] .absent
  | null : Spells [.null] .null
  | bool (b : Bool) : Spells [.bool b] (.bool b)
  | number (n : Number) : Spells [.number n.text] (.number n)
  | string (text : String) : Spells [.string text] (.string text)
  | bytes (data : List UInt8) : Spells [.bytes data] (.bytes data)
  | list (promised : Option ℕ) (events : List Event) (items : List Value)
      (hitems : SpellsItems events items) (hmet : ∀ n ∈ promised, n = items.length) :
      Spells (.listBegin promised :: (events ++ [.listEnd])) (.list items)
  | map (promised : Option ℕ) (events : List Event) (entries : List (String × Value))
      (hentries : SpellsEntries events entries) (hmet : ∀ n ∈ promised, n = entries.length)
      (hkeys : (AssocList.keys entries).Nodup) :
      Spells (.mapBegin promised :: (events ++ [.mapEnd])) (.map entries)

/-- The events of values one after the other. -/
inductive SpellsItems : List Event → List Value → Prop
  | nil : SpellsItems [] []
  | cons (head tail : List Event) (v : Value) (rest : List Value) (hv : Spells head v)
      (hrest : SpellsItems tail rest) : SpellsItems (head ++ tail) (v :: rest)

/-- The events of entries one after the other, a key before each value. -/
inductive SpellsEntries : List Event → List (String × Value) → Prop
  | nil : SpellsEntries [] []
  | cons (key : String) (head tail : List Event) (v : Value) (rest : List (String × Value))
      (hv : Spells head v) (hrest : SpellsEntries tail rest) :
      SpellsEntries (.key key :: (head ++ tail)) ((key, v) :: rest)

end

theorem SpellsItems.snoc {events head : List Event} {items : List Value} {v : Value}
    (h : SpellsItems events items) (hv : Spells head v) :
    SpellsItems (events ++ head) (items ++ [v]) := by
  induction items generalizing events with
  | nil =>
    cases h
    simpa using SpellsItems.cons head [] v [] hv .nil
  | cons w rest ih =>
    cases h with
    | cons first tail _ _ hw hrest =>
      rw [List.append_assoc]
      exact .cons _ _ _ _ hw (ih hrest)

theorem SpellsEntries.snoc {events head : List Event} {entries : List Entry} {key : String}
    {v : Value} (h : SpellsEntries events entries) (hv : Spells head v) :
    SpellsEntries (events ++ .key key :: head) (entries ++ [(key, v)]) := by
  induction entries generalizing events with
  | nil =>
    cases h
    simpa using SpellsEntries.cons key head [] v [] hv .nil
  | cons p rest ih =>
    cases h with
    | cons _ first tail w _ hw hrest =>
      rw [List.cons_append, List.append_assoc]
      exact .cons _ _ _ _ _ hw (ih hrest)

/-- A container half given, and the count promised for it. -/
inductive Part where
  | list (promised : Option ℕ) (items : List Value)
  | map (promised : Option ℕ) (entries : List Entry) (key : Option String)

/-- The containers half given, innermost first, and the value once it is whole. -/
structure Draft where
  stack : List Part
  done : Option Value

namespace Draft

/-- Nothing given yet. -/
def new : Draft := ⟨[], none⟩

/-- A promise leaves room for one more after so many. -/
def Room (promised : Option ℕ) (given : ℕ) : Prop := ∀ n ∈ promised, given < n

instance (promised : Option ℕ) (given : ℕ) : Decidable (Room promised given) := by
  unfold Room
  infer_instance

/-- A promise is met by so many. -/
def Met (promised : Option ℕ) (given : ℕ) : Prop := ∀ n ∈ promised, n = given

instance (promised : Option ℕ) (given : ℕ) : Decidable (Met promised given) := by
  unfold Met
  infer_instance

/-- A value may come next. -/
def Ready (d : Draft) : Prop :=
  match d.stack with
  | [] => d.done = none
  | .list promised items :: _ => Room promised items.length
  | .map promised entries key :: _ => key.isSome ∧ Room promised entries.length

instance (d : Draft) : Decidable d.Ready := by
  unfold Ready
  split <;> infer_instance

/-- Puts a whole value where it goes. -/
def put (d : Draft) (v : Value) : Draft :=
  match d.stack with
  | [] => { d with done := some v }
  | .list promised items :: below => { d with stack := .list promised (items ++ [v]) :: below }
  | .map promised entries key :: below =>
    { d with stack := .map promised (entries ++ [(key.getD "", v)]) none :: below }

/-- A value that is one event. -/
def leaf (d : Draft) (v : Value) : Option Draft := if d.Ready then some (d.put v) else none

/-- A container begun. -/
def begin (d : Draft) (part : Part) : Option Draft :=
  if d.Ready then some { d with stack := part :: d.stack } else none

/-- One event, if the events can still be the start of one well formed value. -/
def step (d : Draft) : Event → Option Draft
  | .absent => d.leaf .absent
  | .null => d.leaf .null
  | .bool b => d.leaf (.bool b)
  | .number text => (Number.new text).bind fun n => d.leaf (.number n)
  | .string text => d.leaf (.string text)
  | .bytes data => d.leaf (.bytes data)
  | .listBegin len => d.begin (.list len [])
  | .mapBegin len => d.begin (.map len [] none)
  | .listEnd =>
    match d.stack with
    | .list promised items :: below =>
      if Met promised items.length then some (put { d with stack := below } (.list items))
      else none
    | _ => none
  | .key text =>
    match d.stack with
    | .map promised entries none :: below =>
      if text ∈ AssocList.keys entries then none
      else some { d with stack := .map promised entries (some text) :: below }
    | _ => none
  | .mapEnd =>
    match d.stack with
    | .map promised entries none :: below =>
      if Met promised entries.length then some (put { d with stack := below } (.map entries))
      else none
    | _ => none

/-- Events one after the other. -/
def run (d : Draft) : List Event → Option Draft
  | [] => some d
  | event :: rest => (d.step event).bind fun d => d.run rest

theorem run_append (d : Draft) (events more : List Event) :
    d.run (events ++ more) = (d.run events).bind fun d => d.run more := by
  induction events generalizing d with
  | nil => rfl
  | cons event rest ih =>
    simp only [List.cons_append, run]
    cases d.step event with
    | none => rfl
    | some d' => exact ih d'

/-- What the events of a half given container are. -/
def Spelled : Part → List Event → Prop
  | .list promised items, events =>
    ∃ inner, SpellsItems inner items ∧ events = .listBegin promised :: inner
  | .map promised entries key, events =>
    ∃ inner, SpellsEntries inner entries ∧
      events = .mapBegin promised :: inner ++ (key.map Event.key).toList ∧
      (AssocList.keys entries).Nodup ∧ ∀ k ∈ key, k ∉ AssocList.keys entries

/-- What the events of nested half given containers are, outermost first: each began
where a value could come. -/
inductive Consumed : List Part → List Event → Prop
  | nil : Consumed [] []
  | cons {part : Part} {below : List Part} {events own : List Event}
      (hbelow : Consumed below events) (hready : Ready ⟨below, none⟩) (hown : Spelled part own) :
      Consumed (part :: below) (events ++ own)

/-- The events given so far are those of the draft. -/
def Given (d : Draft) (events : List Event) : Prop :=
  match d.done with
  | none => Consumed d.stack events
  | some v => d.stack = [] ∧ Spells events v

variable {d d' : Draft} {events : List Event} {v : Value} {event : Event}

theorem Given.put {own : List Event} (h : d.Given events)
    (hready : d.Ready) (hv : Spells own v) : (d.put v).Given (events ++ own) := by
  obtain ⟨stack, done⟩ := d
  cases done with
  | some w =>
    obtain ⟨rfl, -⟩ := h
    cases hready
  | none =>
    cases h with
    | nil => exact ⟨rfl, by simpa using hv⟩
    | @cons part below outer inner hbelow hbegun hown =>
      cases part with
      | list promised items =>
        obtain ⟨inner, hitems, rfl⟩ := hown
        rw [List.append_assoc]
        exact .cons hbelow hbegun ⟨_, hitems.snoc hv, rfl⟩
      | map promised entries key =>
        obtain ⟨hsome, -⟩ := hready
        obtain ⟨k, rfl⟩ := Option.isSome_iff_exists.mp hsome
        obtain ⟨inner, hentries, rfl, hnodup, hnew⟩ := hown
        rw [List.append_assoc]
        refine .cons hbelow hbegun ⟨_, hentries.snoc hv, by simp, ?_, by simp⟩
        rw [AssocList.keys_append]
        exact hnodup.append (by simp) (by simpa using hnew k rfl)

theorem Given.consumed (h : d.Given events)
    (hready : d.Ready ∨ d.stack ≠ []) : d.done = none ∧ Consumed d.stack events := by
  obtain ⟨stack, done⟩ := d
  cases done with
  | none => exact ⟨rfl, h⟩
  | some w =>
    obtain ⟨rfl, -⟩ := h
    rcases hready with hready | hne
    · cases hready
    · exact absurd rfl hne

theorem Given.leaf (h : d.Given events) (hv : Spells [event] v) (hstep : d.leaf v = some d') :
    d'.Given (events ++ [event]) := by
  unfold Draft.leaf at hstep
  split at hstep
  · next hready =>
    cases hstep
    exact h.put hready hv
  · cases hstep

theorem Given.begin
    (h : d.Given events) (part : Part) (hpart : Spelled part [event]) (hstep : d.begin part = some d') :
    d'.Given (events ++ [event]) := by
  unfold Draft.begin at hstep
  split at hstep
  · next hready =>
    cases hstep
    obtain ⟨hdone, hconsumed⟩ := h.consumed (.inl hready)
    obtain ⟨stack, done⟩ := d
    cases hdone
    exact .cons hconsumed hready hpart
  · cases hstep

/-- An accepted event is one more event of the draft. -/
theorem Given.step (h : d.Given events)
    (hstep : d.step event = some d') : d'.Given (events ++ [event]) := by
  cases event with
  | absent => exact h.leaf .absent hstep
  | null => exact h.leaf .null hstep
  | bool b => exact h.leaf (.bool b) hstep
  | number text =>
    cases hnew : Number.new text with
    | none => simp [Draft.step, hnew] at hstep
    | some n =>
      rw [Draft.step, hnew] at hstep
      rw [← Number.text_of_new hnew]
      exact h.leaf (.number n) hstep
  | string text => exact h.leaf (.string text) hstep
  | bytes data => exact h.leaf (.bytes data) hstep
  | listBegin len => exact h.begin (.list len []) ⟨[], .nil, rfl⟩ hstep
  | mapBegin len =>
    exact h.begin (.map len [] none) ⟨[], .nil, rfl, by simp, by simp⟩ hstep
  | listEnd =>
    obtain ⟨stack, done⟩ := d
    simp only [Draft.step] at hstep
    split at hstep
    · next promised items below =>
      split at hstep
      · next hmet =>
        cases hstep
        obtain ⟨rfl, hconsumed⟩ := h.consumed (.inr (by simp))
        cases hconsumed with
        | @cons part below outer own hbelow hbegun hown =>
          obtain ⟨inner, hitems, rfl⟩ := hown
          have hbelow : (⟨below, none⟩ : Draft).Given outer := hbelow
          rw [List.append_assoc]
          exact hbelow.put hbegun (.list promised inner items hitems hmet)
      · cases hstep
    · cases hstep
  | key text =>
    obtain ⟨stack, done⟩ := d
    simp only [Draft.step] at hstep
    split at hstep
    · next promised entries below =>
      split at hstep
      · cases hstep
      · next hnew =>
        cases hstep
        obtain ⟨rfl, hconsumed⟩ := h.consumed (.inr (by simp))
        cases hconsumed with
        | @cons part below outer own hbelow hbegun hown =>
          obtain ⟨inner, hentries, rfl, hnodup, -⟩ := hown
          rw [List.append_assoc]
          refine .cons hbelow hbegun ⟨inner, hentries, by simp, hnodup, ?_⟩
          intro k hk
          cases hk
          exact hnew
    · cases hstep
  | mapEnd =>
    obtain ⟨stack, done⟩ := d
    simp only [Draft.step] at hstep
    split at hstep
    · next promised entries below =>
      split at hstep
      · next hmet =>
        cases hstep
        obtain ⟨rfl, hconsumed⟩ := h.consumed (.inr (by simp))
        cases hconsumed with
        | @cons part below outer own hbelow hbegun hown =>
          obtain ⟨inner, hentries, rfl, hnodup, -⟩ := hown
          have hbelow : (⟨below, none⟩ : Draft).Given outer := hbelow
          simp only [Option.map_none, Option.toList_none, List.append_nil]
          rw [List.append_assoc]
          exact hbelow.put hbegun (.map promised inner entries hentries hmet hnodup)
      · cases hstep
    · cases hstep

theorem Given.run {before : List Event} (h : d.Given before)
    (hrun : d.run events = some d') : d'.Given (before ++ events) := by
  induction events generalizing d before with
  | nil =>
    cases hrun
    simpa using h
  | cons event rest ih =>
    simp only [Draft.run] at hrun
    cases hstep : d.step event with
    | none => simp [hstep] at hrun
    | some next =>
      rw [hstep] at hrun
      simpa using ih (h.step hstep) hrun

theorem run_then {mid : Draft} {more : List Event}
    (h : d.run events = some mid) : d.run (events ++ more) = mid.run more := by
  rw [run_append, h, Option.bind_some]

mutual

theorem run_spells {events : List Event} {v : Value} (h : Spells events v) (d : Draft)
    (hready : d.Ready) : d.run events = some (d.put v) := by
  cases h with
  | number n => simp [run, step, leaf, hready, Number.new_text]
  | list promised inner items hitems hmet =>
    have hbegin : d.step (.listBegin promised) =
        some { d with stack := .list promised [] :: d.stack } := by
      simp [step, begin, hready]
    have hinner := run_spellsItems hitems promised [] d.stack { d with stack := .list promised [] :: d.stack } rfl
      (fun n hn => by simp [hmet n hn])
    rw [run, hbegin, Option.bind_some, run_then hinner]
    simpa [run, step, Met] using hmet
  | map promised inner entries hentries hmet hkeys =>
    have hbegin : d.step (.mapBegin promised) =
        some { d with stack := .map promised [] none :: d.stack } := by
      simp [step, begin, hready]
    have hinner := run_spellsEntries hentries promised [] d.stack
      { d with stack := .map promised [] none :: d.stack } rfl
      (fun n hn => by simp [hmet n hn]) (by simpa using hkeys)
    rw [run, hbegin, Option.bind_some, run_then hinner]
    simpa [run, step, Met] using hmet
  | _ => simp [run, step, leaf, hready]

theorem run_spellsItems {events : List Event} {items : List Value}
    (h : SpellsItems events items) (promised : Option ℕ) (before : List Value)
    (below : List Part) (d : Draft) (hstack : d.stack = .list promised before :: below)
    (hroom : ∀ n ∈ promised, before.length + items.length ≤ n) :
    d.run events = some { d with stack := .list promised (before ++ items) :: below } := by
  cases h with
  | nil => simp [run, ← hstack]
  | cons head tail v rest hv hrest =>
    have hready : d.Ready := by
      simp only [Ready, hstack]
      intro n hn
      have := hroom n hn
      simp only [List.length_cons] at this
      omega
    rw [run_then (run_spells hv d hready)]
    have hnext := run_spellsItems hrest promised (before ++ [v]) below (d.put v)
      (by simp [put, hstack]) fun n hn => by
        have := hroom n hn
        simp only [List.length_append, List.length_cons, List.length_nil] at this ⊢
        omega
    simpa [put, hstack] using hnext

theorem run_spellsEntries {events : List Event} {entries : List (String × Value)}
    (h : SpellsEntries events entries) (promised : Option ℕ) (before : List Entry)
    (below : List Part) (d : Draft) (hstack : d.stack = .map promised before none :: below)
    (hroom : ∀ n ∈ promised, before.length + entries.length ≤ n)
    (hkeys : (AssocList.keys (before ++ entries)).Nodup) :
    d.run events = some { d with stack := .map promised (before ++ entries) none :: below } := by
  cases h with
  | nil => simp [run, ← hstack]
  | cons key head tail v rest hv hrest =>
    have hnew : key ∉ AssocList.keys before := by
      rw [AssocList.keys_append, List.nodup_append] at hkeys
      intro hmem
      exact hkeys.2.2 key hmem key (by simp) rfl
    have hkey : d.step (.key key) =
        some { d with stack := .map promised before (some key) :: below } := by
      simp [step, hstack, hnew]
    have hready : Ready { d with stack := .map promised before (some key) :: below } := by
      refine ⟨rfl, fun n hn => ?_⟩
      have := hroom n hn
      simp only [List.length_cons] at this
      omega
    rw [run, hkey, Option.bind_some, run_then (run_spells hv _ hready)]
    have hnext := run_spellsEntries hrest promised (before ++ [(key, v)]) below
      (put { d with stack := .map promised before (some key) :: below } v)
      (by simp [put]) (fun n hn => by
        have := hroom n hn
        simp only [List.length_append, List.length_cons, List.length_nil] at this ⊢
        omega) (by simpa using hkeys)
    simpa [put] using hnext

end

theorem run_eq_done :
    new.run events = some ⟨[], some v⟩ ↔ Spells events v := by
  constructor
  · intro h
    have hgiven : new.Given [] := Consumed.nil
    exact (hgiven.run h).2
  · exact fun h => run_spells h new rfl

end Draft

end Guatiao.Visit
