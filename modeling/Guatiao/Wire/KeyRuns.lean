import Guatiao.Wire.Decoder
import Guatiao.Wire.Encoder
import Guatiao.Wire.Filling

/-!
# Hashed keys answer as a scan does

Each reader and writer of maps keeps the keys it has seen in its own way, and hashes them once there are
many. Whatever the seeds, and however maps are nested, each answers for a key what a scan over the keys
of the innermost map answers.
-/

namespace Guatiao.Wire

open Lib Visit

/-- What happens to the maps open: one of so many entries opens, the innermost gets a key and its
value, with so many entries left after it, or closes. -/
inductive KeyOp
  | opened (count : ℕ)
  | key (k : String) (v : Value) (left : ℕ)
  | closed

/-- The keys of each open map, innermost first, and whether a key is among those of the innermost. -/
def scanKeys : List (List String) → KeyOp → Bool × List (List String)
  | maps, .opened _ => (false, [] :: maps)
  | names :: maps, .key k _ _ =>
    (decide (k ∈ names), (if k ∈ names then names else names ++ [k]) :: maps)
  | _ :: maps, .closed => (false, maps)
  | [], _ => (false, [])

/-- The keys of every open map in one list, with where each map's start. -/
def OpenKeys.step : OpenKeys × List ℕ → KeyOp → Bool × (OpenKeys × List ℕ)
  | (keys, starts), .opened _ => (false, keys, keys.list.length :: starts)
  | (keys, start :: starts), .key k _ left =>
    let (new, keys) := keys.insert start k left
    (!new, keys, start :: starts)
  | (keys, start :: starts), .closed => (false, keys.truncate start, starts)
  | (keys, []), _ => (false, keys, [])

/-- The list holds the keys of each open map, one map's behind another's. -/
inductive OpenKeys.Tracks (seeds : Seeded) : OpenKeys → List ℕ → List (List String) → Prop
  | new : Tracks seeds ⟨[], [], seeds⟩ [] []
  | within {outer inner : OpenKeys} {starts : List ℕ} {maps : List (List String)}
      {held : List String} (houter : Tracks seeds outer starts maps) (h : outer.Within held inner) :
      Tracks seeds inner (outer.list.length :: starts) (held :: maps)

namespace OpenKeys

variable {seeds : Seeded} {keys : OpenKeys} {starts : List ℕ} {maps : List (List String)}

theorem Tracks.sound (h : Tracks seeds keys starts maps) : keys.Sound := by
  induction h with
  | new =>
    intro p hp
    cases hp
  | within _ h ih => exact h.sound ih

theorem Tracks.step (h : Tracks seeds keys starts maps) (op : KeyOp) :
    (OpenKeys.step (keys, starts) op).1 = (scanKeys maps op).1 ∧
      Tracks seeds (OpenKeys.step (keys, starts) op).2.1 (OpenKeys.step (keys, starts) op).2.2
        (scanKeys maps op).2 := by
  cases op with
  | opened count => exact ⟨rfl, h.within (within_nil keys)⟩
  | key k v left =>
    cases h with
    | new => exact ⟨rfl, .new⟩
    | within houter hwithin =>
      obtain ⟨inner, hinsert, hnext⟩ := hwithin.insert houter.sound k left
      simp only [OpenKeys.step, hinsert, scanKeys, Bool.not_not, true_and]
      exact houter.within hnext
  | closed =>
    cases h with
    | new => exact ⟨rfl, .new⟩
    | within houter hwithin =>
      refine ⟨rfl, ?_⟩
      simp only [OpenKeys.step, hwithin.truncate houter.sound]
      exact houter

end OpenKeys

/-- The map being built innermost, with its hashes, checks each key once its value is read. -/
def keyedFrames (seeds : Seeded) :
    List (List Entry × Option KeySet) → KeyOp → Bool × List (List Entry × Option KeySet)
  | frames, .opened count =>
    (false, ([], if LINEAR < count then some (.new seeds) else none) :: frames)
  | (entries, seen) :: frames, .key k v _ =>
    match repeated k entries seen with
    | (true, seen) => (true, (entries, seen) :: frames)
    | (false, seen) => (false, (entries ++ [(k, v)], seen) :: frames)
  | _ :: frames, .closed => (false, frames)
  | [], _ => (false, [])

/-- A map's entries have its keys, and its hashes answer for them. -/
def Keyed (frame : List Entry × Option KeySet) (names : List String) : Prop :=
  AssocList.keys frame.1 = names ∧ Covered frame.1 frame.2

theorem keyedFrames_step (seeds : Seeded) {frames : List (List Entry × Option KeySet)}
    {maps : List (List String)} (op : KeyOp) (h : List.Forall₂ Keyed frames maps) :
    (keyedFrames seeds frames op).1 = (scanKeys maps op).1 ∧
      List.Forall₂ Keyed (keyedFrames seeds frames op).2 (scanKeys maps op).2 := by
  cases op with
  | opened count =>
    refine ⟨rfl, .cons ⟨rfl, ?_⟩ h⟩
    unfold Covered
    split
    · trivial
    · next set hset =>
      split at hset
      · cases hset
        exact KeySet.new_covers seeds
      · cases hset
  | key k v left =>
    cases h with
    | nil => exact ⟨rfl, .nil⟩
    | @cons frame names frames maps hframe hbelow =>
      obtain ⟨entries, seen⟩ := frame
      obtain ⟨hkeys, hcovered⟩ := hframe
      have hfst := repeated_fst k hcovered
      have hsnd := repeated_snd k v hcovered
      have hnames : decide (k ∈ names) = AssocList.contains k entries := by
        rw [← hkeys, Bool.eq_iff_iff, decide_eq_true_iff, AssocList.contains_iff]
      simp only [keyedFrames, scanKeys, hnames]
      rcases hrepeated : repeated k entries seen with ⟨_ | _, seen'⟩
      · rw [hrepeated] at hfst hsnd
        rw [← hfst, decide_eq_false_iff_not] at hnames
        rw [← hfst, if_neg hnames]
        refine ⟨rfl, .cons ⟨?_, hsnd⟩ hbelow⟩
        rw [AssocList.keys_append, hkeys]
        rfl
      · rw [hrepeated] at hfst hsnd
        rw [← hfst, decide_eq_true_iff] at hnames
        rw [← hfst, if_pos hnames]
        refine ⟨rfl, .cons ⟨hkeys, ?_⟩ hbelow⟩
        cases seen' with
        | none => trivial
        | some set => exact fun name hname => hsnd name (by simp [hname])
  | closed =>
    cases h with
    | nil => exact ⟨rfl, .nil⟩
    | cons _ hbelow => exact ⟨rfl, hbelow⟩

/-- What an event does to the maps open; a list is one that gets no keys. -/
def keyOp : Event → Option KeyOp
  | .mapBegin len => some (.opened (len.getD 0))
  | .listBegin len => some (.opened (len.getD 0))
  | .key text => some (.key text .absent 0)
  | .mapEnd | .listEnd => some .closed
  | _ => none

/-- A key is due: the container open innermost is a map, and the key before has its value. -/
def Encoder.KeyDue (e : Encoder) : Prop :=
  ∃ offset promised written keys below,
    e.stack = ⟨offset, promised, written, some keys⟩ :: below ∧ keys.keyed = false

/-- The keys that a container half given has been given. -/
def namesOf : Part → List String
  | .list _ _ => []
  | .map _ entries key => AssocList.keys entries ++ key.toList

/-- Any map open around a value has that value's key. -/
def Due : Part → Prop
  | .list _ _ => True
  | .map _ _ key => key.isSome = true

theorem names_put {d : Draft} (h : ∀ part ∈ d.stack.head?, Due part) (v : Value) :
    (d.put v).stack.map namesOf = d.stack.map namesOf ∧
      (d.put v).stack.tail = d.stack.tail := by
  obtain ⟨stack, done⟩ := d
  cases stack with
  | nil => exact ⟨rfl, rfl⟩
  | cons part below =>
    cases part with
    | list promised items => exact ⟨rfl, rfl⟩
    | map promised entries key =>
      obtain ⟨k, hk⟩ := Option.isSome_iff_exists.mp (h _ rfl)
      refine ⟨?_, rfl⟩
      simp [Draft.put, namesOf, hk]

theorem due_of_ready {d : Draft} (h : d.Ready) : ∀ part ∈ d.stack.head?, Due part := by
  intro part hpart
  unfold Draft.Ready at h
  cases hstack : d.stack with
  | nil =>
    rw [hstack] at hpart
    cases hpart
  | cons top below =>
    rw [hstack] at hpart h
    cases hpart
    cases part with
    | list promised items => trivial
    | map promised entries key => exact h.1

/-- The maps around the innermost container each have the key it is under. -/
def Around (d : Draft) : Prop := ∀ part ∈ d.stack.tail, Due part

/-- What one event does to the keys of the containers half given. -/
theorem names_step {d d' : Draft} {event : Event} (haround : Around d)
    (h : d.step event = some d') : Around d' ∧ d'.stack.map namesOf =
      after scanKeys (d.stack.map namesOf) (keyOp event).toList := by
  have hleaf : ∀ {v : Value}, d.leaf v = some d' →
      Around d' ∧ d'.stack.map namesOf = d.stack.map namesOf := by
    intro v hv
    unfold Draft.leaf at hv
    split at hv
    · next hready =>
      cases hv
      obtain ⟨hnames, htail⟩ := names_put (due_of_ready hready) v
      refine ⟨?_, hnames⟩
      unfold Around
      rw [htail]
      exact haround
    · cases hv
  have hbegin : ∀ {part : Part}, d.begin part = some d' → namesOf part = [] →
      Around d' ∧ d'.stack.map namesOf = [] :: d.stack.map namesOf := by
    intro part hpart hnames
    unfold Draft.begin at hpart
    split at hpart
    · next hready =>
      cases hpart
      refine ⟨fun part' hpart' => ?_, by rw [List.map_cons, hnames]⟩
      rw [List.tail_cons] at hpart'
      cases hstack : d.stack with
      | nil =>
        rw [hstack] at hpart'
        cases hpart'
      | cons top below =>
        rw [hstack] at hpart'
        rcases List.mem_cons.mp hpart' with rfl | hbelow
        · exact due_of_ready hready _ (by rw [hstack]; rfl)
        · exact haround part' (by rw [hstack]; exact hbelow)
    · cases hpart
  have hend : ∀ {part : Part} {below : List Part} {v : Value}, d.stack = part :: below →
      some (Draft.put { d with stack := below } v) = some d' →
      Around d' ∧ d'.stack.map namesOf = below.map namesOf := by
    intro part below v hstack hv
    cases hv
    have hbelow : ∀ part ∈ below, Due part := by
      unfold Around at haround
      rw [hstack] at haround
      exact haround
    obtain ⟨hnames, htail⟩ := names_put (d := { d with stack := below })
      (fun part hpart => hbelow part (List.mem_of_mem_head? hpart)) v
    refine ⟨fun part hpart => hbelow part ?_, hnames⟩
    rw [htail] at hpart
    exact List.mem_of_mem_tail hpart
  cases event with
  | absent | null | bool | string | bytes => exact hleaf h
  | number text =>
    obtain ⟨n, -, hn⟩ := Option.bind_eq_some_iff.mp h
    exact hleaf hn
  | listBegin len => exact hbegin h rfl
  | mapBegin len => exact hbegin h rfl
  | listEnd =>
    simp only [Draft.step] at h
    split at h
    · next hstack =>
      split at h
      · rw [hstack]
        exact hend hstack h
      · cases h
    · cases h
  | mapEnd =>
    simp only [Draft.step] at h
    split at h
    · next hstack =>
      split at h
      · rw [hstack]
        exact hend hstack h
      · cases h
    · cases h
  | key text =>
    simp only [Draft.step] at h
    split at h
    · next promised entries below hstack =>
      split at h
      · cases h
      · next hnew =>
        cases h
        refine ⟨fun part hpart => haround part ?_, ?_⟩
        · rw [hstack]
          exact hpart
        · rw [hstack]
          simp [namesOf, after, keyOp, scanKeys, hnew]
    · cases h

theorem names_run {d d' : Draft} {events : List Event} (haround : Around d)
    (h : d.run events = some d') : d'.stack.map namesOf =
      after scanKeys (d.stack.map namesOf) (events.filterMap keyOp) := by
  induction events generalizing d with
  | nil =>
    cases h
    rfl
  | cons event rest ih =>
    obtain ⟨m, hstep, hrest⟩ := Option.bind_eq_some_iff.mp h
    obtain ⟨haround', hnames⟩ := names_step haround hstep
    rw [ih haround' hrest, hnames, List.filterMap_cons]
    cases keyOp event with
    | none => rfl
    | some op => rfl

/-- A key that is due is refused exactly when a scan over the events finds it in its map. -/
theorem Encoder.key_scan {seeds : Seeded} {out : List UInt8} {events : List Event} {e : Encoder}
    (hfeed : (Encoder.new seeds out).feed events = .ok e) (hdue : e.KeyDue) (text : String) :
    ∃ names maps, after scanKeys [] (events.filterMap keyOp) = names :: maps ∧
      ((∃ e', e.on (.key text) = .ok e') ∧ text ∉ names ∨
        e.on (.key text) = .error .duplicateKey ∧ text ∈ names) := by
  have hnew : Encoder.Encodes out (.new seeds out) .new := ⟨rfl, .top false⟩
  have halike := Encoder.feed_alike hnew events
  rw [hfeed] at halike
  obtain ⟨offset, promised, written, keys, below, hstack, hkeyed⟩ := hdue
  cases hrun : Draft.new.run events with
  | none =>
    rw [hrun] at halike
    exact halike.elim
  | some d =>
    rw [hrun] at halike
    have hnames : d.stack.map namesOf = after scanKeys [] (events.filterMap keyOp) :=
      names_run (fun part hpart => by cases hpart) hrun
    obtain ⟨parts, whole⟩ := d
    cases whole with
    | some v =>
      obtain ⟨-, -, hempty, -⟩ := halike
      rw [hstack] at hempty
      cases hempty
    | none =>
      obtain ⟨-, hlays⟩ := halike
      dsimp only at hlays hnames
      rw [hstack] at hlays
      cases hlays with
      | @map parts _ _ _ _ _ entries key _ hbelow hfull hkeys hkeyed' hbusy =>
        -- No value is due, so the map's keys are those of its entries.
        have hnone : key = none := by
          rw [hkeyed] at hkeyed'
          cases key with
          | none => rfl
          | some k => cases hkeyed'
        subst hnone
        rw [Option.toList_none, List.append_nil] at hkeys
        have hseen := Encoder.seen_fst hkeys text
        refine ⟨AssocList.keys entries, parts.map namesOf, ?_, ?_⟩
        · rw [← hnames, List.map_cons, namesOf, Option.toList_none, List.append_nil]
        · simp only [Encoder.on, Encoder.key, hstack, hkeyed, Bool.false_eq_true, if_false]
          rcases hanswer : Encoder.seen e.out keys (asBytes text) with ⟨_ | _, hashes⟩
          · rw [hanswer] at hseen
            exact .inl ⟨⟨_, rfl⟩, fun hmem => absurd (hseen.mpr hmem) Bool.false_ne_true⟩
          · rw [hanswer] at hseen
            exact .inr ⟨rfl, hseen.mp rfl⟩

/-- Whatever the seeds and however many the keys, hashed keys answer as a scan over the keys of the map
does: in the streaming decoder, in the decoder of a value, in the encoder, in a map being filled and in
a map read by key. -/
theorem hashed_keys_scan (seeds : Seeded) :
    (∀ ops, answers (fun s => OpenKeys.step s) (⟨[], [], seeds⟩, []) ops = answers scanKeys [] ops) ∧
    (∀ ops, answers (keyedFrames seeds) [] ops = answers scanKeys [] ops) ∧
    (∀ out events e text, (Encoder.new seeds out).feed events = .ok e → e.KeyDue →
      ∃ names maps, after scanKeys [] (events.filterMap keyOp) = names :: maps ∧
        ((∃ e', e.on (.key text) = .ok e') ∧ text ∉ names ∨
          e.on (.key text) = .error .duplicateKey ∧ text ∈ names)) ∧
    (∀ map more ops, answers Filling.step (.withRoom map more) ops = answers Filling.scan map ops ∧
      (after Filling.step (.withRoom map more) ops).map = after Filling.scan map ops) ∧
    (∀ entries key, (Lookup.new entries seeds).get key = AssocList.get key entries) := by
  refine ⟨?_, ?_, ?_, ?_, ?_⟩
  · intro ops
    refine (answers_eq (R := fun s maps => OpenKeys.Tracks seeds s.1 s.2 maps) ?_ .new ops).1
    intro s maps op h
    exact h.step op
  · intro ops
    exact (answers_eq (fun frames maps op h => keyedFrames_step seeds op h) .nil ops).1
  · intro out events e text hfeed hdue
    exact Encoder.key_scan hfeed hdue text
  · intro map more ops
    exact Filling.answers_scan map more ops
  · intro entries key
    exact Lookup.get_new entries seeds key

/-- A key of an outer map, behind a map nested under it. -/
theorem hashed_keys_scan_nested : ∃ e, (Encoder.new ⟨1, 2⟩ []).feed
      [.mapBegin (some 17), .key "a", .mapBegin none, .key "b", .null, .mapEnd] = .ok e ∧
    ∃ names maps, after scanKeys [] ([Event.mapBegin (some 17), .key "a", .mapBegin none, .key "b",
        .null, .mapEnd].filterMap keyOp) = names :: maps ∧
      ((∃ e', e.on (.key "a") = .ok e') ∧ "a" ∉ names ∨
        e.on (.key "a") = .error .duplicateKey ∧ "a" ∈ names) := by
  refine ⟨_, rfl, ?_⟩
  exact (hashed_keys_scan ⟨1, 2⟩).2.2.1 [] _ _ "a" rfl ⟨_, _, _, _, _, rfl, rfl⟩

end Guatiao.Wire
