import Guatiao.Lib.Machine
import Guatiao.Wire.Keys

/-!
# Finding keys in a wide map

A map has no index of its own. One being filled, or read many times, gets one when it counts more than
`LINEAR` keys: where the first key with each hash is. A position found so holds the key, or the scan
decides.
-/

namespace Guatiao.Wire

open Lib

/-- Where the first key with each hash is in a map's entries. -/
structure KeyIndex where
  seeds : Seeded
  first : List (UInt64 × ℕ)

/-- The first position of a key, by the bytes alone. -/
def position (key : String) (entries : List Entry) : Option ℕ :=
  entries.findIdx? fun e => e.1 == key

namespace KeyIndex

def hash (index : KeyIndex) (key : String) : UInt64 := index.seeds.hashOne (asBytes key)

/-- Puts a position under a hash that has none. -/
def orInsert (index : KeyIndex) (h : UInt64) (place : ℕ) : KeyIndex :=
  if AssocList.contains h index.first then index
  else { index with first := index.first ++ [(h, place)] }

/-- The loop over the entries from a position on. -/
def addAll (index : KeyIndex) : ℕ → List Entry → KeyIndex
  | _, [] => index
  | place, e :: rest => (index.orInsert (index.hash e.1) place).addAll (place + 1) rest

/-- Indexes some entries. -/
def of (entries : List Entry) (seeds : Seeded) : KeyIndex := addAll ⟨seeds, []⟩ 0 entries

/-- The first position of a key in the entries that this indexes. -/
def find (index : KeyIndex) (entries : List Entry) (key : String) : Option ℕ :=
  match AssocList.get (index.hash key) index.first with
  | none => none
  | some place =>
    if entries[place]?.map Prod.fst = some key then some place
    -- Another key with the same hash.
    else position key entries

end KeyIndex

/-- A map being filled, where a repeated key replaces the value stored first and keeps its place. -/
structure Filling where
  map : List Entry
  index : Option KeyIndex
  /-- How many more keys are expected than the map held when given. -/
  more : ℕ

namespace Filling

/-- For a map that will be given about so many more keys. -/
def withRoom (map : List Entry) (more : ℕ) : Filling := ⟨map, none, more⟩

/-- The index, made first when the map is wide or expected to be. -/
def indexed (filling : Filling) (seeds : Seeded) : Option KeyIndex :=
  match filling.index with
  | some index => some index
  | none => if LINEAR < filling.map.length + filling.more then some (.of filling.map seeds) else none

/-- Appends an entry under a key known to be absent, where there is `room` for one. -/
def insertNode (map : List Entry) (key : String) (v : Value) (room : Bool) : Option (List Entry) :=
  if room then some (map ++ [(key, v)]) else none

/-- Stores by a scan. -/
def setNode (map : List Entry) (key : String) (v : Value) (room : Bool) : Option (List Entry) :=
  match position key map with
  | some i => some (map.modify i fun e => (e.1, v))
  | none => insertNode map key v room

/-- Stores a value under a key: whether it was, and the map being filled. -/
def setIn (filling : Filling) (key : String) (v : Value) (seeds : Seeded) (room : Bool) :
    Bool × Filling :=
  match filling.indexed seeds with
  | none =>
    match setNode filling.map key v room with
    | some map => (true, { filling with map := map })
    | none => (false, filling)
  | some index =>
    let kept : Filling := { filling with index := some index }
    match AssocList.get (index.hash key) index.first with
    | none =>
      match insertNode filling.map key v room with
      | some map =>
        (true, { filling with
          map := map, index := some (index.orInsert (index.hash key) filling.map.length) })
      | none => (false, kept)
    | some place =>
      let found := if filling.map[place]?.map Prod.fst = some key then some place
        else position key filling.map
      match found with
      | some i => (true, { kept with map := filling.map.modify i fun e => (e.1, v) })
      | none =>
        match insertNode filling.map key v room with
        | some map => (true, { kept with map := map })
        | none => (false, kept)

/-- Whether a key is stored. -/
def containsKey (filling : Filling) (key : String) (seeds : Seeded) : Bool × Filling :=
  match filling.indexed seeds with
  | some index => ((index.find filling.map key).isSome, { filling with index := some index })
  | none => ((position key filling.map).isSome, filling)

end Filling

/-- A map read by key many times. -/
structure Lookup where
  entries : List Entry
  index : Option KeyIndex

def Lookup.new (entries : List Entry) (seeds : Seeded) : Lookup :=
  ⟨entries, if LINEAR < entries.length then some (.of entries seeds) else none⟩

def Lookup.get (lookup : Lookup) (key : String) : Option Value :=
  let place := match lookup.index with
    | some index => index.find lookup.entries key
    | none => position key lookup.entries
  place.bind fun i => lookup.entries[i]?.map Prod.snd

/-- Each hash leads to the first entry whose key has it. -/
def KeyIndex.Indexes (index : KeyIndex) (entries : List Entry) : Prop :=
  ∀ h, AssocList.get h index.first = entries.findIdx? fun e => index.hash e.1 == h

namespace KeyIndex

variable {index : KeyIndex} {entries : List Entry}

theorem orInsert_hash (h : UInt64) (place : ℕ) (key : String) :
    (index.orInsert h place).hash key = index.hash key := by
  unfold orInsert
  split <;> rfl

theorem Indexes.push (h : index.Indexes entries) (key : String) (v : Value) :
    (index.orInsert (index.hash key) entries.length).Indexes (entries ++ [(key, v)]) := by
  intro hash
  simp only [orInsert_hash, List.findIdx?_append, List.findIdx?_singleton, ← h hash]
  unfold orInsert
  split
  · next hheld =>
    rw [AssocList.contains, Option.isSome_iff_exists] at hheld
    obtain ⟨place, hplace⟩ := hheld
    by_cases heq : index.hash key = hash
    · rw [← heq, hplace]
      rfl
    · simp [heq]
  · next hnew =>
    rw [AssocList.contains, Bool.not_eq_true, Option.isSome_eq_false_iff, Option.isNone_iff_eq_none] at hnew
    rw [AssocList.get_append]
    by_cases heq : index.hash key = hash
    · rw [← heq, hnew]
      simp [AssocList.get]
    · simp [AssocList.get, heq]

theorem Indexes.addAll (h : index.Indexes entries) (rest : List Entry) :
    (index.addAll entries.length rest).Indexes (entries ++ rest) := by
  induction rest generalizing index entries with
  | nil =>
    rw [List.append_nil]
    exact h
  | cons e rest ih =>
    have hnext := ih (h.push e.1 e.2)
    rw [List.length_append, List.length_singleton, List.append_assoc] at hnext
    exact hnext

theorem of_indexes (entries : List Entry) (seeds : Seeded) : (of entries seeds).Indexes entries := by
  have hempty : (⟨seeds, []⟩ : KeyIndex).Indexes [] := fun h => rfl
  exact hempty.addAll entries

variable {key : String}

theorem Indexes.found_eq (h : index.Indexes entries) {place : ℕ}
    (hplace : AssocList.get (index.hash key) index.first = some place) :
    (if entries[place]?.map Prod.fst = some key then some place else position key entries) =
      position key entries := by
  split
  · next hkey =>
    rw [h, List.findIdx?_eq_some_iff_getElem] at hplace
    obtain ⟨hlt, -, hbefore⟩ := hplace
    rw [List.getElem?_eq_getElem hlt, Option.map_some, Option.some.injEq] at hkey
    symm
    rw [position, List.findIdx?_eq_some_iff_getElem]
    refine ⟨hlt, by simpa using hkey, fun j hj hsame => ?_⟩
    have hhash := hbefore j hj
    rw [beq_iff_eq.mp hsame, beq_self_eq_true] at hhash
    exact hhash rfl
  · rfl

theorem Indexes.absent (h : index.Indexes entries)
    (hnone : AssocList.get (index.hash key) index.first = none) : position key entries = none := by
  rw [h, List.findIdx?_eq_none_iff] at hnone
  rw [position, List.findIdx?_eq_none_iff]
  intro e he
  have hhash := hnone e he
  rw [beq_eq_false_iff_ne] at hhash ⊢
  exact fun heq => hhash (by rw [heq])

theorem Indexes.find_eq (h : index.Indexes entries) (key : String) :
    index.find entries key = position key entries := by
  unfold find
  cases hplace : AssocList.get (index.hash key) index.first with
  | none => exact (h.absent hplace).symm
  | some place => exact h.found_eq hplace

theorem Indexes.collided (h : index.Indexes entries) {place : ℕ}
    (hplace : AssocList.get (index.hash key) index.first = some place) (v : Value) :
    index.Indexes (entries ++ [(key, v)]) := by
  have hheld : AssocList.contains (index.hash key) index.first = true := by
    rw [AssocList.contains, hplace, Option.isSome_some]
  have hpush := h.push key v
  rw [orInsert, if_pos hheld] at hpush
  exact hpush

theorem findIdx?_replace (q : String → Bool) (entries : List Entry) (i : ℕ) (v : Value) :
    (entries.modify i fun e => (e.1, v)).findIdx? (fun e => q e.1) =
      entries.findIdx? fun e => q e.1 := by
  induction entries generalizing i with
  | nil => rw [List.modify_nil]
  | cons e rest ih =>
    cases i with
    | zero => rw [List.modify_zero_cons, List.findIdx?_cons, List.findIdx?_cons]
    | succ i => rw [List.modify_succ_cons, List.findIdx?_cons, List.findIdx?_cons, ih]

theorem Indexes.replace (h : index.Indexes entries) (i : ℕ) (v : Value) :
    index.Indexes (entries.modify i fun e => (e.1, v)) := by
  intro hash
  rw [findIdx?_replace fun key => index.hash key == hash]
  exact h hash

end KeyIndex

namespace Filling

/-- What is done to a map being filled. -/
inductive Op
  /-- A store, under seeds drawn for the index if it makes one, with or without room for an entry. -/
  | set (key : String) (v : Value) (seeds : Seeded) (room : Bool)
  | contains (key : String) (seeds : Seeded)

def step (filling : Filling) : Op → Bool × Filling
  | .set key v seeds room => filling.setIn key v seeds room
  | .contains key seeds => filling.containsKey key seeds

/-- The same by scans alone. -/
def scan (map : List Entry) : Op → Bool × List Entry
  | .set key v _ room =>
    match setNode map key v room with
    | some map => (true, map)
    | none => (false, map)
  | .contains key _ => ((position key map).isSome, map)

/-- The index of a map being filled, if it has one, is right. -/
def Right (filling : Filling) (map : List Entry) : Prop :=
  filling.map = map ∧ ∀ index ∈ filling.index, index.Indexes map

variable {filling : Filling} {map : List Entry}

theorem Right.indexed (h : filling.Right map)
    (seeds : Seeded) : ∀ index ∈ filling.indexed seeds, index.Indexes map := by
  intro index hindex
  unfold Filling.indexed at hindex
  split at hindex
  · next index' hsome =>
    cases hindex
    exact h.2 _ hsome
  · split at hindex
    · cases hindex
      rw [h.1]
      exact KeyIndex.of_indexes map seeds
    · cases hindex

theorem setIn_eq (h : filling.Right map) (key : String) (v : Value) (seeds : Seeded) (room : Bool) :
    (filling.setIn key v seeds room).1 = (scan map (.set key v seeds room)).1 ∧
      (filling.setIn key v seeds room).2.Right (scan map (.set key v seeds room)).2 := by
  have hindexed := h.indexed seeds
  obtain ⟨rfl, hindex⟩ := h
  unfold setIn scan
  cases hmade : filling.indexed seeds with
  | none =>
    -- No index is made, so there was none.
    have hnone : filling.index = none := by
      unfold indexed at hmade
      split at hmade
      · cases hmade
      · next hnone => exact hnone
    have hright : ∀ map, Right { filling with map := map } map := by
      intro map
      refine ⟨rfl, fun index hsome => ?_⟩
      rw [hnone] at hsome
      cases hsome
    dsimp only
    cases hset : setNode filling.map key v room with
    | none => exact ⟨rfl, hright _⟩
    | some map => exact ⟨rfl, hright _⟩
  | some index =>
    have hright := hindexed index hmade
    dsimp only [setNode]
    cases hplace : AssocList.get (index.hash key) index.first with
    | none =>
      simp only [hright.absent hplace]
      cases room with
      | true => exact ⟨rfl, rfl, fun index' hsome => by
          cases hsome
          exact hright.push key v⟩
      | false => exact ⟨rfl, rfl, fun index' hsome => by
          cases hsome
          exact hright⟩
    | some place =>
      simp only [hright.found_eq hplace]
      cases hposition : position key filling.map with
      | some i => exact ⟨rfl, rfl, fun index' hsome => by
          cases hsome
          exact hright.replace i v⟩
      | none =>
        cases room with
        | true => exact ⟨rfl, rfl, fun index' hsome => by
            cases hsome
            exact hright.collided hplace v⟩
        | false => exact ⟨rfl, rfl, fun index' hsome => by
            cases hsome
            exact hright⟩

theorem containsKey_eq (h : filling.Right map) (key : String) (seeds : Seeded) :
    (filling.containsKey key seeds).1 = (position key map).isSome ∧
      (filling.containsKey key seeds).2.Right map := by
  have hindexed := h.indexed seeds
  obtain ⟨rfl, hindex⟩ := h
  unfold containsKey
  cases hmade : filling.indexed seeds with
  | none => exact ⟨rfl, rfl, hindex⟩
  | some index =>
    have hright := hindexed index hmade
    exact ⟨congrArg Option.isSome (hright.find_eq key), rfl, fun index' hsome => by
      cases hsome
      exact hright⟩

theorem step_eq (filling : Filling) (map : List Entry) (op : Op) (h : filling.Right map) :
    (filling.step op).1 = (scan map op).1 ∧ (filling.step op).2.Right (scan map op).2 := by
  cases op with
  | set key v seeds room => exact setIn_eq h key v seeds room
  | contains key seeds => exact containsKey_eq h key seeds

theorem setNode_eq (map : List Entry) (key : String) (v : Value) :
    setNode map key v true = some (AssocList.set key v map) := by
  induction map with
  | nil => rfl
  | cons e rest ih =>
    obtain ⟨k, w⟩ := e
    unfold setNode position at ih ⊢
    rw [List.findIdx?_cons, AssocList.set]
    by_cases hk : k = key
    · simp [hk]
    · have hne : (k == key) = false := beq_false_of_ne hk
      rw [if_neg hk]
      simp only [hne, Bool.false_eq_true, if_false]
      cases hposition : rest.findIdx? fun e => e.1 == key with
      | none =>
        rw [hposition] at ih
        simp only [Option.map_none, insertNode, if_true, Option.some.injEq] at ih ⊢
        rw [← ih, List.cons_append]
      | some i =>
        rw [hposition] at ih
        simp only [Option.map_some, Option.some.injEq] at ih ⊢
        rw [← ih, List.modify_succ_cons]

theorem answers_scan (map : List Entry) (more : ℕ) (ops : List Op) :
    answers step (withRoom map more) ops = answers scan map ops ∧
      (after step (withRoom map more) ops).map = after scan map ops := by
  have hright : (withRoom map more).Right map := ⟨rfl, fun index hsome => by cases hsome⟩
  obtain ⟨hanswers, hmap, -⟩ := answers_eq step_eq hright ops
  exact ⟨hanswers, hmap⟩

end Filling

theorem position_bind (key : String) (entries : List Entry) :
    ((position key entries).bind fun i => entries[i]?.map Prod.snd) = AssocList.get key entries := by
  induction entries with
  | nil => rfl
  | cons e rest ih =>
    obtain ⟨k, w⟩ := e
    rw [position, List.findIdx?_cons, AssocList.get]
    by_cases hk : k = key
    · simp [hk]
    · have hne : (k == key) = false := beq_false_of_ne hk
      rw [if_neg hk, ← ih, position]
      rw [hne, if_neg Bool.false_ne_true, Option.bind_map]
      rfl

theorem Lookup.get_new (entries : List Entry) (seeds : Seeded) (key : String) :
    (Lookup.new entries seeds).get key = AssocList.get key entries := by
  have hplace : (match (Lookup.new entries seeds).index with
      | some index => index.find entries key
      | none => position key entries) = position key entries := by
    unfold Lookup.new
    split
    · next index hindex =>
      split at hindex
      · cases hindex
        exact (KeyIndex.of_indexes entries seeds).find_eq key
      · cases hindex
    · rfl
  rw [← position_bind, ← hplace]
  rfl

end Guatiao.Wire
