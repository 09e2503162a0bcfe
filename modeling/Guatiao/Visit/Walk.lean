import Guatiao.Visit.Events

/-!
# Walking a value

A visitor is told each event as a value walks, and has each element of a container walk as often as
it wants to, twice at most. What it makes of a walk that failed is its own to say: it may stop, or go
on with the next element. A sink told every event once is one such visitor.
-/

namespace Guatiao.Visit

open Lib

/-- What a walk came to, why it was refused if it was, and the visitor after. -/
abbrev Walked (S E : Type) := Option E × S

/-- Goes on with a walk unless it was refused. -/
def Walked.andThen {S E : Type} (walked : Walked S E) (next : S → Walked S E) : Walked S E :=
  match walked with
  | (some e, s) => (some e, s)
  | (none, s) => next s

/-- What receives a value's events. -/
structure Visitor (S E : Type) where
  /-- It is told an event. -/
  on : S → Event → Walked S E
  /-- Whether it walks the element at hand, given how the walks it had of it so far ended, and what
  it walks it as. -/
  walks : S → List (Option E) → Option S
  /-- What it answers for the element, given how the walks of it ended. -/
  ended : S → List (Option E) → Walked S E
  /-- The refusal of a walk as one of its own. -/
  «from» : ValueError → E

namespace Visitor

variable {S E : Type} (V : Visitor S E)

/-- An element of a container, which the visitor has walk as often as it wants, `left` times at
most. -/
def element (walk : S → Walked S E) : ℕ → List (Option E) → S → Walked S E
  | 0, outcomes, s => V.ended s outcomes
  | left + 1, outcomes, s =>
    match V.walks s outcomes with
    | some s =>
      let (e, s) := walk s
      element walk left (outcomes ++ [e]) s
    | none => V.ended s outcomes

mutual

/-- A value walks, so many containers open above it. -/
def walk (depth : ℕ) : Value → S → Walked S E
  | .absent, s => V.on s .absent
  | .null, s => V.on s .null
  | .bool b, s => V.on s (.bool b)
  | .number n, s => V.on s (.number n.text)
  | .string text, s => V.on s (.string text)
  | .bytes data, s => V.on s (.bytes data)
  | .list items, s =>
    if maxDepth ≤ depth then (some (V.from .tooDeep), s)
    else
      ((V.on s (.listBegin (some items.length))).andThen (walkItems (depth + 1) items)).andThen
        fun s => V.on s .listEnd
  | .map entries, s =>
    if maxDepth ≤ depth then (some (V.from .tooDeep), s)
    else
      ((V.on s (.mapBegin (some entries.length))).andThen (walkEntries (depth + 1) entries)).andThen
        fun s => V.on s .mapEnd

/-- The items of a list, in order. -/
def walkItems (depth : ℕ) : List Value → S → Walked S E
  | [], s => (none, s)
  | v :: rest, s => (V.element (walk depth v) 2 [] s).andThen (walkItems depth rest)

/-- The entries of a map, in order, each under its key. -/
def walkEntries (depth : ℕ) : List (String × Value) → S → Walked S E
  | [], s => (none, s)
  | (key, v) :: rest, s =>
    ((V.on s (.key key)).andThen (V.element (walk depth v) 2 [])).andThen (walkEntries depth rest)

end

/-- A refusal that is the visitor's own: an event refused, or an element of which no walk was refused
so. -/
def Own (why : E) : Prop :=
  (∃ s event, (V.on s event).1 = some why) ∨
    ∃ s outcomes, (V.ended s outcomes).1 = some why ∧ some why ∉ outcomes

variable {s : S} {why : E} {depth : ℕ}

theorem element_refused {walk : S → Walked S E} {left : ℕ} {outcomes : List (Option E)}
    (h : (V.element walk left outcomes s).1 = some why) :
    V.Own why ∨ some why ∈ outcomes ∨ ∃ s, (walk s).1 = some why := by
  have hended : ∀ {s outcomes}, (V.ended s outcomes).1 = some why →
      V.Own why ∨ some why ∈ outcomes := by
    intro s outcomes h
    by_cases hmem : some why ∈ outcomes
    · exact .inr hmem
    · exact .inl (.inr ⟨s, outcomes, h, hmem⟩)
  induction left generalizing outcomes s with
  | zero =>
    rcases hended h with hown | hmem
    · exact .inl hown
    · exact .inr (.inl hmem)
  | succ left ih =>
    rw [element] at h
    cases hwalks : V.walks s outcomes with
    | none =>
      rw [hwalks] at h
      rcases hended h with hown | hmem
      · exact .inl hown
      · exact .inr (.inl hmem)
    | some s' =>
      simp only [hwalks] at h
      rcases ih h with hown | hmem | hwalk
      · exact .inl hown
      · rcases List.mem_append.mp hmem with hmem | hmem
        · exact .inr (.inl hmem)
        · exact .inr (.inr ⟨s', (List.mem_singleton.mp hmem).symm⟩)
      · exact .inr (.inr hwalk)

theorem andThen_refused {walked : Walked S E} {next : S → Walked S E}
    (h : (walked.andThen next).1 = some why) :
    walked.1 = some why ∨ ∃ s, (next s).1 = some why := by
  obtain ⟨e, s⟩ := walked
  cases e with
  | some e => exact .inl h
  | none => exact .inr ⟨s, h⟩

variable {V} in
theorem walkItems_refused {items : List Value} {Q : E → Prop}
    (hitems : ∀ v ∈ items, ∀ s why, (V.walk depth v s).1 = some why → V.Own why ∨ Q why)
    (h : (V.walkItems depth items s).1 = some why) : V.Own why ∨ Q why := by
  induction items generalizing s with
  | nil => cases h
  | cons v rest ih =>
    rw [walkItems] at h
    rcases andThen_refused h with h | ⟨s', h⟩
    · rcases V.element_refused h with hown | hmem | ⟨s', h⟩
      · exact .inl hown
      · cases hmem
      · exact hitems v (List.mem_cons_self ..) s' why h
    · exact ih (fun w hw => hitems w (List.mem_cons_of_mem _ hw)) h

variable {V} in
theorem walkEntries_refused {entries : List Entry} {Q : E → Prop}
    (hentries : ∀ k v, (k, v) ∈ entries → ∀ s why, (V.walk depth v s).1 = some why →
      V.Own why ∨ Q why) (h : (V.walkEntries depth entries s).1 = some why) : V.Own why ∨ Q why := by
  induction entries generalizing s with
  | nil => cases h
  | cons p rest ih =>
    obtain ⟨key, v⟩ := p
    rw [walkEntries] at h
    rcases andThen_refused h with h | ⟨s', h⟩
    · rcases andThen_refused h with h | ⟨s', h⟩
      · exact .inl (.inl ⟨s, _, h⟩)
      · rcases V.element_refused h with hown | hmem | ⟨s', h⟩
        · exact .inl hown
        · cases hmem
        · exact hentries key v (List.mem_cons_self ..) s' why h
    · exact ih (fun k w hw => hentries k w (List.mem_cons_of_mem _ hw)) h

/-- A value's walk is refused by the visitor itself, or because the value is nested too deep. -/
theorem walk_refused {v : Value} (h : (V.walk depth v s).1 = some why) :
    V.Own why ∨ why = V.from .tooDeep ∧ maxDepth < depth + v.depth := by
  induction v generalizing depth s why with
  | list items ih =>
    rw [walk] at h
    split at h
    · next hdeep =>
      cases h
      refine .inr ⟨rfl, ?_⟩
      simp only [Value.depth]
      omega
    · rcases andThen_refused h with h | ⟨s', h⟩
      · rcases andThen_refused h with h | ⟨s', h⟩
        · exact .inl (.inl ⟨s, _, h⟩)
        · apply walkItems_refused (Q := fun why => why = V.from .tooDeep ∧ _) _ h
          intro v hv s why h
          rcases ih v hv h with hown | ⟨hwhy, hdeep⟩
          · exact .inl hown
          · have hle := Value.depthItems_le.mp (Nat.le_refl _) v hv
            refine .inr ⟨hwhy, ?_⟩
            simp only [Value.depth]
            omega
      · exact .inl (.inl ⟨s', _, h⟩)
  | map entries ih =>
    rw [walk] at h
    split at h
    · next hdeep =>
      cases h
      refine .inr ⟨rfl, ?_⟩
      simp only [Value.depth]
      omega
    · rcases andThen_refused h with h | ⟨s', h⟩
      · rcases andThen_refused h with h | ⟨s', h⟩
        · exact .inl (.inl ⟨s, _, h⟩)
        · apply walkEntries_refused (Q := fun why => why = V.from .tooDeep ∧ _) _ h
          intro k v hv s why h
          rcases ih k v hv h with hown | ⟨hwhy, hdeep⟩
          · exact .inl hown
          · have hle := Value.depthEntries_le.mp (Nat.le_refl _) k v hv
            refine .inr ⟨hwhy, ?_⟩
            simp only [Value.depth]
            omega
      · exact .inl (.inl ⟨s', _, h⟩)
  | _ => exact .inl (.inl ⟨s, _, h⟩)

/-- The visitor, with something beside it that its walks may change. -/
def beside (T : Type) : Visitor (S × T) E where
  on p event :=
    let (e, s) := V.on p.1 event
    (e, s, p.2)
  walks p outcomes := (V.walks p.1 outcomes).map fun s => (s, p.2)
  ended p outcomes :=
    let (e, s) := V.ended p.1 outcomes
    (e, s, p.2)
  «from» := V.from

end Visitor

mutual

/-- The events of a value. -/
def events : Value → List Event
  | .absent => [.absent]
  | .null => [.null]
  | .bool b => [.bool b]
  | .number n => [.number n.text]
  | .string text => [.string text]
  | .bytes data => [.bytes data]
  | .list items => .listBegin (some items.length) :: (eventsItems items ++ [.listEnd])
  | .map entries => .mapBegin (some entries.length) :: (eventsEntries entries ++ [.mapEnd])

/-- The events of items one after the other. -/
def eventsItems : List Value → List Event
  | [] => []
  | v :: rest => events v ++ eventsItems rest

/-- The events of entries one after the other. -/
def eventsEntries : List (String × Value) → List Event
  | [] => []
  | (key, v) :: rest => .key key :: (events v ++ eventsEntries rest)

end

theorem spellsItems_events {items : List Value} (h : ∀ v ∈ items, Spells (events v) v) :
    SpellsItems (eventsItems items) items := by
  induction items with
  | nil => exact .nil
  | cons v rest ih =>
    apply SpellsItems.cons
    · exact h v (List.mem_cons_self ..)
    · exact ih fun w hw => h w (List.mem_cons_of_mem _ hw)

theorem spellsEntries_events {entries : List Entry}
    (h : ∀ k v, (k, v) ∈ entries → Spells (events v) v) :
    SpellsEntries (eventsEntries entries) entries := by
  induction entries with
  | nil => exact .nil
  | cons p rest ih =>
    apply SpellsEntries.cons
    · exact h p.1 p.2 (List.mem_cons_self ..)
    · exact ih fun k w hw => h k w (List.mem_cons_of_mem _ hw)

theorem spells_events {v : Value} (h : v.Distinct) : Spells (events v) v := by
  induction v with
  | list items ih =>
    have hitems := Value.distinct_list.mp h
    apply Spells.list
    · exact spellsItems_events fun v hv => ih v hv (hitems v hv)
    · intro n hn
      exact (Option.some.inj hn).symm
  | map entries ih =>
    obtain ⟨hkeys, hentries⟩ := Value.distinct_map.mp h
    apply Spells.map
    · exact spellsEntries_events fun k v hv => ih k v hv (hentries k v hv)
    · intro n hn
      exact (Option.some.inj hn).symm
    · exact hkeys
  | absent => exact .absent
  | null => exact .null
  | bool b => exact .bool b
  | number n => exact .number n
  | string text => exact .string text
  | bytes data => exact .bytes data

variable {S E : Type}

/-- A sink as a visitor: every element walks once, and a walk that failed is its answer. -/
def flat (on : S → Event → Walked S E) («from» : ValueError → E) : Visitor S E where
  on := on
  walks s outcomes := if outcomes.isEmpty then some s else none
  ended s outcomes := (outcomes.getLast?.join, s)
  «from» := «from»

/-- Events one after the other, up to the first refused. -/
def feed (on : S → Event → Walked S E) : List Event → S → Walked S E
  | [], s => (none, s)
  | event :: rest, s => (on s event).andThen (feed on rest)

theorem Walked.andThen_assoc (walked : Walked S E) (f g : S → Walked S E) :
    (walked.andThen f).andThen g = walked.andThen fun s => (f s).andThen g := by
  obtain ⟨e, s⟩ := walked
  cases e <;> rfl

theorem feed_append (on : S → Event → Walked S E) (xs ys : List Event) (s : S) :
    feed on (xs ++ ys) s = (feed on xs s).andThen (feed on ys) := by
  induction xs generalizing s with
  | nil => rfl
  | cons x xs ih =>
    rw [List.cons_append, feed, feed, Walked.andThen_assoc]
    congr 1
    exact funext ih

variable (on : S → Event → Walked S E) («from» : ValueError → E)

theorem flat_element (walk : S → Walked S E) (s : S) :
    (flat on «from»).element walk 2 [] s = walk s := by
  simp [Visitor.element, flat]

theorem feed_one (event : Event) (s : S) : feed on [event] s = on s event := by
  rcases h : on s event with ⟨_ | e, s'⟩ <;> simp [feed, Walked.andThen, h]

variable {depth : ℕ}

theorem flat_walkItems {items : List Value}
    (ih : ∀ v ∈ items, ∀ s, (flat on «from»).walk depth v s = feed on (events v) s) (s : S) :
    (flat on «from»).walkItems depth items s = feed on (eventsItems items) s := by
  induction items generalizing s with
  | nil => rfl
  | cons v rest ihrest =>
    have hrest := ihrest fun w hw => ih w (List.mem_cons_of_mem _ hw)
    rw [Visitor.walkItems, eventsItems, feed_append, flat_element, ih v (List.mem_cons_self ..)]
    congr 1
    exact funext hrest

theorem flat_walkEntries {entries : List Entry}
    (ih : ∀ k v, (k, v) ∈ entries → ∀ s, (flat on «from»).walk depth v s = feed on (events v) s)
    (s : S) : (flat on «from»).walkEntries depth entries s = feed on (eventsEntries entries) s := by
  induction entries generalizing s with
  | nil => rfl
  | cons p rest ihrest =>
    obtain ⟨key, v⟩ := p
    have hrest := ihrest fun k w hw => ih k w (List.mem_cons_of_mem _ hw)
    have hv : ∀ s, (flat on «from»).element ((flat on «from»).walk depth v) 2 [] s =
        feed on (events v) s := by
      intro s
      rw [flat_element]
      exact ih key v (List.mem_cons_self ..) s
    rw [Visitor.walkEntries, eventsEntries, feed, Walked.andThen_assoc]
    congr 1
    funext s
    rw [hv, feed_append]
    congr 1
    exact funext hrest

theorem flat_walk {v : Value} (h : depth + v.depth ≤ maxDepth) (s : S) :
    (flat on «from»).walk depth v s = feed on (events v) s := by
  induction v generalizing depth s with
  | list items ih =>
    simp only [Value.depth] at h
    have hitems : ∀ v ∈ items, ∀ s,
        (flat on «from»).walk (depth + 1) v s = feed on (events v) s := by
      intro v hv s
      have hle := Value.depthItems_le.mp (Nat.le_refl _) v hv
      exact ih v hv (by omega) s
    rw [Visitor.walk, if_neg (by omega), events, feed, Walked.andThen_assoc]
    congr 1
    funext s
    rw [flat_walkItems on «from» hitems, feed_append]
    congr 1
    funext s
    exact (feed_one on _ s).symm
  | map entries ih =>
    simp only [Value.depth] at h
    have hentries : ∀ k v, (k, v) ∈ entries → ∀ s,
        (flat on «from»).walk (depth + 1) v s = feed on (events v) s := by
      intro k v hv s
      have hle := Value.depthEntries_le.mp (Nat.le_refl _) k v hv
      exact ih k v hv (by omega) s
    rw [Visitor.walk, if_neg (by omega), events, feed, Walked.andThen_assoc]
    congr 1
    funext s
    rw [flat_walkEntries on «from» hentries, feed_append]
    congr 1
    funext s
    exact (feed_one on _ s).symm
  | _ => exact (feed_one on _ s).symm

end Guatiao.Visit
