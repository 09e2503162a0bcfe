import Guatiao.Merge.Merge

/-!
# Lists extended with unique items, by hash

A list of some length being built is not searched for each item: its items are filed by a seeded
hash of their structure, and only the first of a hash is compared. The hash is any function of what
a walk of the value feeds it, so nothing keeps two values from having one.
-/

namespace Guatiao

open Lib

/-- One thing a hasher is fed. -/
inductive Fed
  | u8 (n : UInt8)
  | u32 (n : UInt32)
  | usize (n : ℕ)
  | bytes (data : List UInt8)

namespace Value

/-- Bytes with their length first, so where one run ends is part of the input. -/
def fedBytes (data : List UInt8) : List Fed := [.usize data.length, .bytes data]

/-- What is fed of a node itself. -/
def fedNode (node : Value) : List Fed :=
  .u32 node.tag.toByte.toUInt32 ::
    match node with
    | .absent | .null => []
    | .bool b => [.u8 (if b then 1 else 0)]
    | .string text => fedBytes (asBytes text)
    | .number n => fedBytes (asBytes n.text)
    | .bytes data => fedBytes data
    | .list items => [.usize items.length]
    | .map entries => .usize entries.length :: entries.flatMap fun e => fedBytes (asBytes e.1)

/-- What a container holds, in order. -/
def children : Value → List Value
  | .list items => items
  | .map entries => entries.map Prod.snd
  | _ => []

theorem nodesItems_append (xs ys : List Value) :
    nodesItems (xs ++ ys) = nodesItems xs + nodesItems ys := by
  induction xs with
  | nil => simp [nodesItems]
  | cons x xs ih =>
    simp only [List.cons_append, nodesItems, ih]
    omega

theorem nodesItems_snd (entries : List Entry) :
    nodesItems (entries.map Prod.snd) = nodesEntries entries := by
  induction entries with
  | nil => rfl
  | cons e entries ih => simp only [List.map_cons, nodesItems, nodesEntries, ih]

theorem nodesItems_children (node : Value) : nodesItems node.children < node.nodes := by
  cases node with
  | list items =>
    simp only [children, nodes]
    omega
  | map entries =>
    simp only [children, nodes, nodesItems_snd]
    omega
  | _ => exact nodes_pos _

/-- What is fed of the nodes on a stack, and of everything under them. -/
def fed : List Value → List Fed
  | [] => []
  | node :: stack => node.fedNode ++ fed (node.children ++ stack)
termination_by stack => nodesItems stack
decreasing_by
  rw [nodesItems_append, nodesItems]
  exact Nat.add_lt_add_right (nodesItems_children node) _

end Value

/-- A seeded hasher: any function of what it is fed. -/
abbrev Hasher := List Fed → UInt64

/-- The hash of a value: of what it feeds, and everything under it. -/
def Hasher.hash (hasher : Hasher) (v : Value) : UInt64 := hasher (Value.fed [v])

namespace Merge

/-- Up to this many items, a later item is looked for by comparing it with every one held. -/
def scan : ℕ := 16

/-- What finds an item in a list being built: the first position of each hash among the items
indexed so far, and how many those are. -/
structure Held where
  first : List (UInt64 × ℕ)
  indexed : ℕ

/-- Nothing is indexed yet. -/
def Held.new : Held := ⟨[], 0⟩

section Held

variable {T : Type} [Node T] (hasher : Hasher)

open Node

/-- What an item is indexed by. -/
def Hasher.key (item : T) : UInt64 := hasher.hash (value item)

/-- The items that are not indexed yet, indexed. -/
def Held.index (h : Held) (built : List T) : Held where
  first := enterAll (Hasher.key hasher) h.indexed (built.drop h.indexed) h.first
  indexed := built.length

/-- Whether a list holds an item, and what is indexed then. -/
def Held.contains (h : Held) (built : List T) (item : T) : Bool × Held :=
  if built.length ≤ scan then (held built item, h)
  else
    let h := h.index hasher built
    match AssocList.get (Hasher.key hasher item) h.first with
    | none => (false, h)
    | some at_ =>
      if built[at_]?.any fun v => value v == value item then (true, h)
      -- Another value with the same hash.
      else (held built item, h)

/-- A list with the later's items that are no maps and not held yet, behind. -/
def pushHeld : Held → List T → List T → List T
  | _, built, [] => built
  | h, built, item :: rest =>
    if isMap item then pushHeld h built rest
    else
      let (there, h) := h.contains hasher built item
      if there then pushHeld h built rest else pushHeld h (built ++ [item]) rest

/-- The maps of a list, by the position they sit at. -/
def mapsAt (later : List T) : List (ℕ × T) :=
  (later.zipIdx.filter fun e => isMap e.1).map fun e => (e.2, e.1)

/-- The positions of a list where there is a map that shares a key with the later's there. -/
def mergeable (laterMaps : List (ℕ × T)) (result : List T) : List ℕ :=
  (result.zipIdx.filter fun e =>
    (AssocList.get e.2 laterMaps).any fun l => isMap e.1 && sharesAKey e.1 l).map Prod.snd

/-- The later's maps merged in at some positions, and those that are left. -/
def mergeAt (merge : String → T → T → Except MergeError T) :
    List ℕ → List T → List (ℕ × T) → Except MergeError (List T × List (ℕ × T))
  | [], result, laterMaps => .ok (result, laterMaps)
  | at_ :: rest, result, laterMaps =>
    match AssocList.get at_ laterMaps, result[at_]? with
    | some l, some item => do
      let merged ← merge (toString at_) item l
      mergeAt merge rest (result.set at_ merged) (laterMaps.filter fun e => e.1 ≠ at_)
    | _, _ => mergeAt merge rest result laterMaps

/-- Lists extended with unique items, found by hash. -/
def unionHeld (options : MergeOptions) (below : Step T) (path : List String)
    (earlier later : List T) : Except MergeError (List T) :=
  let result := pushHeld hasher .new earlier later
  if options.mergelists then do
    let laterMaps := mapsAt later
    let (result, laterMaps) ← mergeAt (fun at_ => mergeMaps below (path ++ [at_]))
      (mergeable laterMaps result) result laterMaps
    return result ++ laterMaps.map Prod.snd
  else .ok (result ++ later.filter isMap)

/-- What is indexed is the first position of each hash among the items so far. -/
structure Held.Covers (h : Held) (built : List T) : Prop where
  within : h.indexed ≤ built.length
  first : h.first = firstSeen (Hasher.key hasher) (built.take h.indexed)

variable {hasher}

theorem Held.covers_new (built : List T) : Held.Covers hasher .new built :=
  ⟨Nat.zero_le _, rfl⟩

variable {h : Held} {built : List T}

theorem Held.Covers.append (hc : h.Covers hasher built) (more : List T) :
    h.Covers hasher (built ++ more) := by
  constructor
  · rw [List.length_append]
    exact Nat.le_trans hc.within (Nat.le_add_right _ _)
  · rw [List.take_append_of_le_length hc.within]
    exact hc.first

theorem Held.Covers.index (hc : h.Covers hasher built) :
    (h.index hasher built).Covers hasher built := by
  constructor
  · exact Nat.le_refl _
  · rw [Held.index, hc.first, List.take_length]
    exact firstSeen_take _ _ hc.within

theorem Held.Covers.contains (hc : h.Covers hasher built) (item : T) :
    (h.contains hasher built item).1 = held built item ∧
      (h.contains hasher built item).2.Covers hasher built := by
  unfold Held.contains
  by_cases hshort : built.length ≤ scan
  · rw [if_pos hshort]
    exact ⟨rfl, hc⟩
  rw [if_neg hshort]
  have hindex := hc.index
  have hfirst : (h.index hasher built).first =
      firstSeen (Hasher.key hasher) built := by
    rw [hindex.first]
    exact congrArg _ (List.take_length ..)
  dsimp only
  cases hget : AssocList.get (Hasher.key hasher item) (h.index hasher built).first with
  | none =>
    rw [hfirst] at hget
    have hnone : held built item = false := by
      refine any_eq_false_of_firstSeen (fun v w => value v == value w) (fun x y hxy => ?_) hget
      rw [Hasher.key, eq_of_beq hxy, Hasher.key]
    exact ⟨hnone.symm, hindex⟩
  | some at_ =>
    dsimp only
    split
    · next hhere =>
      refine ⟨?_, hindex⟩
      obtain ⟨x, hx, hsame⟩ := (Option.any_eq_true ..).mp hhere
      exact (List.any_eq_true.mpr ⟨x, List.mem_of_getElem? hx, hsame⟩).symm
    · exact ⟨rfl, hindex⟩

/-- Lookups in a list that grows between them. -/
def Held.answers (hasher : Hasher) : Held → List T → List (List T × T) → List Bool
  | _, _, [] => []
  | h, built, (more, item) :: rest =>
    let built := built ++ more
    let (there, h) := h.contains hasher built item
    there :: Held.answers hasher h built rest

/-- The same by comparing with every item. -/
def scans : List T → List (List T × T) → List Bool
  | _, [] => []
  | built, (more, item) :: rest => held (built ++ more) item :: scans (built ++ more) rest

theorem Held.Covers.answers (hc : h.Covers hasher built)
    (queries : List (List T × T)) : Held.answers hasher h built queries = scans built queries := by
  induction queries generalizing h built with
  | nil => rfl
  | cons query queries ih =>
    obtain ⟨more, item⟩ := query
    obtain ⟨hanswer, hcovers⟩ := (hc.append more).contains item
    simp only [Held.answers, scans, ih hcovers, hanswer]

theorem Held.Covers.pushHeld (hc : h.Covers hasher built)
    (later : List T) : Merge.pushHeld hasher h built later = pushUnique built later := by
  induction later generalizing h built with
  | nil => rfl
  | cons item later ih =>
    obtain ⟨hanswer, hcovers⟩ := hc.contains item
    rw [Merge.pushHeld, pushUnique]
    cases hmap : isMap item with
    | true => simpa using ih hc
    | false =>
      simp only [hanswer, Bool.not_false, Bool.true_and, Bool.false_eq_true, if_false,
        Bool.not_eq_true']
      cases hthere : held built item with
      | true => simpa using ih hcovers
      | false => simpa using ih (hcovers.append [item])

theorem get_mapsAt_from (later : List T) (n at_ : ℕ) :
    AssocList.get (n + at_) (((later.zipIdx n).filter fun e => isMap e.1).map fun e => (e.2, e.1)) =
      (later[at_]?).filter isMap := by
  induction later generalizing n at_ with
  | nil => rfl
  | cons l later ih =>
    rw [List.zipIdx_cons]
    cases at_ with
    | zero =>
      cases hmap : isMap l with
      | true => simp [hmap, AssocList.get, Option.filter]
      | false =>
        have hnone : n ∉ AssocList.keys
            (((later.zipIdx (n + 1)).filter fun e => isMap e.1).map fun e => (e.2, e.1)) := by
          intro hmem
          obtain ⟨e, he, hn⟩ := List.mem_map.mp hmem
          obtain ⟨e', he', rfl⟩ := List.mem_map.mp he
          have hle := (List.mem_zipIdx (List.mem_filter.mp he').1).1
          dsimp only at hn
          omega
        simpa [hmap, Option.filter] using AssocList.get_eq_none_iff.mpr hnone
    | succ at_ =>
      have htail := ih (n + 1) at_
      rw [show n + (at_ + 1) = n + 1 + at_ by omega]
      rw [List.getElem?_cons_succ, ← htail]
      cases hmap : isMap l with
      | true => simp [hmap, AssocList.get, show n ≠ n + 1 + at_ by omega]
      | false => simp [hmap]

theorem get_mapsAt (later : List T) (at_ : ℕ) :
    AssocList.get at_ (mapsAt later) = (later[at_]?).filter isMap := by
  have hfrom := get_mapsAt_from later 0 at_
  rwa [Nat.zero_add] at hfrom

theorem any_get_mapsAt (later : List T) (item : T) (at_ : ℕ) :
    ((AssocList.get at_ (mapsAt later)).any fun l => isMap item && sharesAKey item l) =
      (partner later item at_).isSome := by
  rw [get_mapsAt, partner]
  cases later[at_]? with
  | none => rfl
  | some l =>
    cases hmap : isMap l with
    | false => simp [Option.filter, hmap]
    | true =>
      cases hshares : isMap item && sharesAKey item l with
      | false => simp [Option.filter, hmap, hshares]
      | true => simp [Option.filter, hmap, hshares]

/-- The positions from one on where a map of a list is merged in. -/
def mergeableFrom (later : List T) (n : ℕ) (result : List T) : List ℕ :=
  ((result.zipIdx n).filter fun e => (partner later e.1 e.2).isSome).map Prod.snd

theorem mergeable_eq (later result : List T) :
    mergeable (mapsAt later) result = mergeableFrom later 0 result := by
  simp only [mergeable, mergeableFrom, any_get_mapsAt]

/-- Whether the later's map at a position is merged into an item behind `n` others. -/
def taken (later : List T) (n : ℕ) (result : List T) (at_ : ℕ) : Bool :=
  decide (n ≤ at_) && result[at_ - n]?.any fun item => (partner later item at_).isSome

theorem taken_cons (later : List T) (n : ℕ) (item : T) (result : List T) (at_ : ℕ) :
    taken later n (item :: result) at_ =
      ((at_ == n && (partner later item n).isSome) || taken later (n + 1) result at_) := by
  unfold taken
  rcases Nat.lt_trichotomy at_ n with hlt | rfl | hgt
  · simp [show ¬ n ≤ at_ by omega, show ¬ n + 1 ≤ at_ by omega, show at_ ≠ n by omega]
  · simp [show ¬ at_ + 1 ≤ at_ by omega]
  · obtain ⟨d, rfl⟩ : ∃ d, at_ = n + 1 + d := ⟨at_ - (n + 1), by omega⟩
    simp [show n + 1 + d - n = d + 1 by omega, show n ≤ n + 1 + d by omega,
      show n + 1 + d ≠ n by omega]

theorem mergeableFrom_cons (later : List T) (n : ℕ) (item : T) (result : List T) :
    mergeableFrom later n (item :: result) =
      if (partner later item n).isSome then n :: mergeableFrom later (n + 1) result
      else mergeableFrom later (n + 1) result := by
  unfold mergeableFrom
  rw [List.zipIdx_cons, List.filter_cons]
  split <;> rfl

theorem filter_of_partner {later : List T} {item l : T} {at_ : ℕ}
    (h : partner later item at_ = some l) : (later[at_]?).filter isMap = some l := by
  obtain ⟨hl, hpartner⟩ := Option.filter_eq_some_iff.mp h
  simp only [Bool.and_eq_true] at hpartner
  exact Option.filter_eq_some_iff.mpr ⟨hl, hpartner.1.1⟩

/-- Merging by position, from a position on, is merging each item there with its partner, which
leaves the maps that were no partner. -/
theorem mergeAt_from (merge : String → T → T → Except MergeError T) (later pre : List T)
    (laterMaps : List (ℕ × T)) (result : List T)
    (hmaps : ∀ at_, pre.length ≤ at_ →
      AssocList.get at_ laterMaps = (later[at_]?).filter isMap) :
    mergeAt merge (mergeableFrom later pre.length result) (pre ++ result) laterMaps =
      (mergePositions merge later pre.length result).map fun out =>
        (pre ++ out, laterMaps.filter fun e => !taken later pre.length result e.1) := by
  induction result generalizing pre laterMaps with
  | nil =>
    have hall : laterMaps.filter (fun e => !taken later pre.length [] e.1) = laterMaps := by
      rw [List.filter_eq_self]
      intro e _
      simp [taken]
    simp [mergeableFrom, mergeAt, mergePositions, hall, Except.map]
  | cons item result ih =>
    rw [mergeableFrom_cons, mergePositions]
    cases hpartner : partner later item pre.length with
    | none =>
      have hnext := ih (pre ++ [item]) laterMaps fun at_ hle => hmaps at_ (by
        rw [List.length_append] at hle
        omega)
      rw [List.length_append, List.length_singleton, List.append_assoc, List.singleton_append]
        at hnext
      have htaken (at_ : ℕ) : taken later pre.length (item :: result) at_ =
          taken later (pre.length + 1) result at_ := by
        rw [taken_cons, hpartner]
        simp
      simp only [Option.isSome_none, Bool.false_eq_true, if_false, hnext, htaken]
      cases mergePositions merge later (pre.length + 1) result with
      | error e => rfl
      | ok out => simp [Except.map, bind, Except.bind, pure, Except.pure]
    | some l =>
      have hget : AssocList.get pre.length laterMaps = some l :=
        (hmaps pre.length (Nat.le_refl _)).trans (filter_of_partner hpartner)
      have hitem : (pre ++ item :: result)[pre.length]? = some item := by
        rw [List.getElem?_append_right (Nat.le_refl _), Nat.sub_self]
        rfl
      simp only [Option.isSome_some, if_true, mergeAt, hget, hitem]
      cases hmerged : merge (toString pre.length) item l with
      | error e => rfl
      | ok merged =>
        have hset : (pre ++ item :: result).set pre.length merged = pre ++ [merged] ++ result := by
          rw [List.set_append_right _ _ (Nat.le_refl _), Nat.sub_self, List.append_assoc]
          rfl
        have hnext := ih (pre ++ [merged])
          (laterMaps.filter fun e => e.1 ≠ pre.length) fun at_ hle => by
            rw [List.length_append, List.length_singleton] at hle
            rw [AssocList.get_filter (fun k => k ≠ pre.length), if_pos (by omega), hmaps at_ (by omega)]
        rw [List.length_append, List.length_singleton] at hnext
        have hfilter : (laterMaps.filter fun e => e.1 ≠ pre.length).filter
              (fun e => !taken later (pre.length + 1) result e.1) =
            laterMaps.filter fun e => !taken later pre.length (item :: result) e.1 := by
          rw [List.filter_filter]
          apply List.filter_congr
          intro e _
          rw [taken_cons, hpartner]
          by_cases hat : e.1 = pre.length <;> simp [hat]
        simp only [bind, Except.bind, hset, hnext, hfilter]
        cases mergePositions merge later (pre.length + 1) result with
        | error e => rfl
        | ok out => simp [Except.map, pure, Except.pure]

theorem map_mapsAt_filter (later built : List T) :
    ((mapsAt later).filter fun e => !taken later 0 built e.1).map Prod.snd = leftOver built later := by
  unfold mapsAt leftOver
  rw [List.filter_map, List.map_map, List.filter_filter]
  refine congrArg _ (List.filter_congr fun e _ => ?_)
  simp [taken, Bool.and_comm]

theorem unionHeld_eq (hasher : Hasher) (options : MergeOptions) (below : Step T) (path : List String)
    (earlier later : List T) :
    unionHeld hasher options below path earlier later = unionLists options below path earlier later := by
  unfold unionHeld unionLists
  rw [(Held.covers_new earlier).pushHeld later]
  split
  · have hmerge := mergeAt_from (fun at_ => mergeMaps below (path ++ [at_])) later [] (mapsAt later)
      (pushUnique earlier later) fun at_ _ => get_mapsAt later at_
    simp only [List.length_nil, List.nil_append] at hmerge
    simp only [mergeable_eq, hmerge]
    cases mergePositions (fun at_ => mergeMaps below (path ++ [at_])) later 0
        (pushUnique earlier later) with
    | error e => rfl
    | ok out => simp [bind, Except.bind, Except.map, pure, Except.pure, map_mapsAt_filter]
  · rfl

end Held

end Merge

end Guatiao
