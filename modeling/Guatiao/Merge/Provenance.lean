import Guatiao.Lib.SortedMap
import Guatiao.Merge.Merge

/-!
# Who came from where

Folding labelled layers also records, for each leaf, the layer it came from. The record
is kept by a second walk over the shape the merge is about to build, so it is right only
as long as the two walks stay in step.
-/

namespace Guatiao.Merge

open Lib

/-- Which layer each leaf of a merged value came from, by its place. -/
abbrev Provenance := SortedMap (List String) String

/-- Where a value came from: one layer, more than one, or nothing recorded. -/
inductive Source where
  | layer (label : String)
  | mixed
  | absent
  deriving DecidableEq, Repr

namespace Provenance

/-- The one layer a scan agrees on. -/
def agree : Option String → List (List String × String) → Source
  | none, [] => .absent
  | some found, [] => .layer found
  | none, (_, label) :: rest => agree (some label) rest
  | some found, (_, label) :: rest => if found = label then agree (some found) rest else .mixed

/-- Where the value at a place came from. An interior node answers the layer every leaf
beneath it agrees on. -/
def sourceOf (p : Provenance) (path : List String) : Source :=
  match p.get path with
  | some label => .layer label
  | none => agree none (p.scan path fun k => path.isPrefixOf k)

/-- Records a layer as the source of every leaf of a value. An empty container is itself
a leaf; an absent value is no opinion. -/
def claim (label : String) : ℕ → List String → Value → Provenance → Provenance
  | 0, path, _, p => p.insert path label
  | levels + 1, path, v, p =>
    if v.tag = .absent then p
    else
      match children v with
      | [] => p.insert path label
      | below => below.foldl (fun p (segment, c) => claim label levels (path ++ [segment]) c p) p

/-- Drops a place and everything beneath it. -/
def forgetSubtree (path : List String) (p : Provenance) : Provenance :=
  ((p.scan path fun k => path.isPrefixOf k).map Prod.fst).foldl
    (fun p leaf => p.retain fun k => decide (k ≠ leaf)) p

/-- A value takes a place outright: what was recorded there is forgotten. -/
def replace (label : String) (levels : ℕ) (path : List String) (v : Value) (p : Provenance) :
    Provenance :=
  claim label levels path v (forgetSubtree path p)

/-- The claims of a simple merge: a map key by key, a list by position, anything else
outright. -/
def recordSimple (label : String) : ℕ → List String → Value → Value → Provenance → Provenance
  | 0, _, _, _, p => p
  | levels + 1, path, earlier, later, p =>
    if later.tag = .absent then p
    else
      match earlier, later with
      | .map _, .map entries =>
        (entries.filter fun (_, v) => v.tag != .absent).foldl
          (fun p (key, v) => replace label levels (path ++ [key]) v p) p
      | .list earlierItems, .list items =>
        items.zipIdx.foldl (fun p (item, index) =>
          match earlierItems[index]? with
          | some earlierItem =>
            recordSimple label levels (path ++ [toString index]) earlierItem item p
          | none => replace label levels (path ++ [toString index]) item p) p
      | _, _ => replace label (levels + 1) path later p

/-- Records which leaves a layer is about to claim, over the shape the merge will
build. -/
def recordClaims (ctx : Context) (label : String) :
    ℕ → List String → Value → Value → Provenance → Provenance
  | 0, _, _, _, p => p
  | levels + 1, path, earlier, later, p =>
    if later.tag = .absent then p
    else if ctx.modeAt path = .simple then recordSimple label (levels + 1) path earlier later p
    else
      match earlier, later with
      | .map earlierEntries, .map entries =>
        entries.foldl (fun p (key, v) =>
          match AssocList.get key earlierEntries with
          | some earlierChild =>
            recordClaims ctx label levels (path ++ [key]) earlierChild v p
          | none => replace label levels (path ++ [key]) v p) p
      | .list earlierItems, .list _ =>
        -- Where united items land is not known here: an earlier list keeps what it has.
        if ctx.modeAt path = .deep ∧ ¬earlierItems.isEmpty then p
        else replace label (levels + 1) path later p
      | _, _ => replace label (levels + 1) path later p

end Provenance

section Layers

variable {T : Type} [Node T]

open Node

/-- One more layer over those folded so far. -/
def mergeLayer (ctx : Context) (accumulated : Option T × Provenance) (layer : String × Value) :
    Except MergeError (Option T × Provenance) :=
  match accumulated with
  | (none, p) =>
    .ok (some (Node.layer layer.1 layer.2), p.claim layer.1 maxDepth [] layer.2)
  | (some previous, p) => do
    let merged ← mergeValue ctx maxDepth [] previous (Node.layer layer.1 layer.2)
    return (some merged, p.recordClaims ctx layer.1 maxDepth [] (value previous) layer.2)

/-- Labelled layers folded left to right, the later winning, with which layer each leaf
came from. No layers make an empty map. -/
def mergeLayersWith (ctx : Context) (layers : List (String × Value)) :
    Except MergeError (T × Provenance) := do
  let (accumulated, p) ← layers.foldlM (mergeLayer ctx) (none, SortedMap.empty)
  return (accumulated.getD (layer "" (.map [])), p)

end Layers

end Guatiao.Merge
