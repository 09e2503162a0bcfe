import Guatiao.Merge.Path
import Mathlib.Data.List.Basic

/-!
# Combining two values

Three modes combine an earlier value with a later one, the later winning: what becomes
of a map under a map and of a list under a list is what they differ in. A merge looks at
the kinds of the nodes it combines and copies the others whole, so it is written for any
tree that shows its kinds; a value is such a tree.
-/

namespace Guatiao.Merge

open Lib

/-- Which strategy combines two values. -/
inductive MergeMode where
  | simple | substitute | deep
  deriving DecidableEq, Repr

/-- The sub-options a mode can take. -/
structure MergeOptions where
  mergelists : Bool

/-- Why a merge could not produce a value: the two sides cannot combine at a place, or
the result could not be built. -/
inductive MergeError where
  | kind (path : String) (earlier later : Tag) (mode : MergeMode)
  | build (e : ValueError)
  deriving DecidableEq, Repr

/-- Modes declared for single places. -/
abbrev MergeOverrides := List (List String × MergeMode)

/-- Everything a merge needs beyond the two values. -/
structure Context where
  mode : MergeMode
  options : MergeOptions
  overrides : MergeOverrides

/-- The mode in force at a place: the one declared for it, else the call's. -/
def Context.modeAt (ctx : Context) (path : List String) : MergeMode :=
  (AssocList.get path ctx.overrides).getD ctx.mode

/-- What a merge sees of a tree, and how it builds one: the value it stands for, its
entries or items, and a map or a list made where `later` was laid over another. -/
class Node (T : Type) where
  value : T → Value
  entries : T → Option (List (String × T))
  items : T → Option (List T)
  withEntries : (later : T) → List (String × T) → T
  withItems : (later : T) → List T → T
  layer : (label : String) → Value → T

instance : Node Value where
  value v := v
  entries := Value.asMap
  items := Value.asList
  withEntries _ := .map
  withItems _ := .list
  layer _ v := v

section Merge

variable {T : Type} [Node T]

open Node

/-- The kind of a node. -/
def kind (v : T) : Tag := (value v).tag

/-- Whether a node is a map. -/
def isMap (v : T) : Bool := (entries v).isSome

/-- Whether two maps share at least one key. -/
def sharesAKey (a b : T) : Bool :=
  ((entries b).getD []).any fun (key, _) => AssocList.contains key ((entries a).getD [])

/-- The later's keys written over the earlier's, but for absent ones over a key that is
there. -/
def replaceEntries : List (String × T) → List (String × T) → List (String × T)
  | out, [] => out
  | out, (key, v) :: rest =>
    if kind v == .absent && AssocList.contains key out then replaceEntries out rest
    else replaceEntries (AssocList.set key v out) rest

/-- Item by item, the later's replacing the earlier's; what either has more of stands. -/
def overwritePositionally (merge : T → T → Except MergeError T) :
    List T → List T → Except MergeError (List T)
  | earlier, [] => .ok earlier
  | [], later => .ok later
  | e :: earlier, l :: later => do
    let combined ← merge e l
    let rest ← overwritePositionally merge earlier later
    return combined :: rest

/-- Scalars and maps replace, lists overwrite positionally. No place reaches an error. -/
def mergeSimple : ℕ → T → T → Except MergeError T
  | 0, _, _ => .error (.build .tooDeep)
  | levels + 1, earlier, later =>
    if kind later = .absent then .ok earlier
    else if kind earlier = .absent then .ok later
    else
      match items later, items earlier, entries later, entries earlier with
      | some laterItems, some earlierItems, _, _ => do
        let out ← overwritePositionally (mergeSimple levels) earlierItems laterItems
        return withItems later out
      | none, _, some laterEntries, some earlierEntries =>
        .ok (withEntries later (replaceEntries earlierEntries laterEntries))
      | _, _, _, _ => .ok later

/-- The earlier's keys, each merged with what the later has there. -/
def mergeKept (child : String → T → T → Except MergeError T) (later : List (String × T)) :
    List (String × T) → List (String × T) → Except MergeError (List (String × T))
  | [], out => .ok out
  | (key, v) :: rest, out => do
    let merged ←
      match AssocList.get key later with
      | some l => child key v l
      | none => .ok v
    mergeKept child later rest (AssocList.set key merged out)

/-- The keys only the later has, behind. -/
def mergeNew (earlier : List (String × T)) :
    List (String × T) → List (String × T) → List (String × T)
  | [], out => out
  | (key, v) :: rest, out =>
    if AssocList.contains key earlier then mergeNew earlier rest out
    else mergeNew earlier rest (AssocList.set key v out)

/-- The map rule of both recursive modes: keys the later carries are merged in turn, the
others stand. -/
def mergeMapsRecursively (child : String → T → T → Except MergeError T)
    (earlier later : List (String × T)) : Except MergeError (List (String × T)) := do
  let out ← mergeKept child later earlier []
  return mergeNew earlier later out

/-- Merging a node into another at a place. -/
abbrev Step (T : Type) := List String → T → T → Except MergeError T

/-- A map with another merged into it, by what merges their values. -/
def mergeMaps (below : Step T) (path : List String) (earlier later : T) : Except MergeError T := do
  let out ← mergeMapsRecursively (fun key => below (path ++ [key])) ((entries earlier).getD [])
    ((entries later).getD [])
  return withEntries later out

/-- A map with each map of a list folded into it. An item is merged as its mode merges a
map into a map, one level further down, its values two. -/
def absorbListOfMaps (mode : MergeMode) (below : Step T) (path : List String) :
    T → List T → Except MergeError T
  | result, [] => .ok result
  | result, item :: rest =>
    if isMap item then do
      let folded ← mergeMaps below path result item
      absorbListOfMaps mode below path folded rest
    else .error (.kind (render path) .map (kind item) mode)

/-- Recursive maps, wholesale list replacement. A map is never overwritten by a scalar,
nor a scalar by a map. -/
def mergeSubstitute (one two : Step T) (path : List String) (earlier later : T) :
    Except MergeError T :=
  match entries earlier, entries later, items later with
  | none, none, _ => .ok later
  | some _, some _, _ => mergeMaps one path earlier later
  | some _, none, some laterItems => absorbListOfMaps .substitute two path earlier laterItems
  | _, _, _ => .error (.kind (render path) (kind earlier) (kind later) .substitute)

/-- Whether a list being built already holds a value equal to an item. -/
def held (built : List T) (item : T) : Bool := built.any fun v => value v == value item

/-- A list with the later's items that are no maps and not held yet, behind. -/
def pushUnique : List T → List T → List T
  | built, [] => built
  | built, item :: rest =>
    if !isMap item && !held built item then pushUnique (built ++ [item]) rest
    else pushUnique built rest

/-- The later's map at a position, when the map built there shares a key with it. -/
def partner (later : List T) (item : T) (at_ : ℕ) : Option T :=
  (later[at_]?).filter fun l => isMap l && isMap item && sharesAKey item l

/-- Each item from a position on, with the later's map there merged in where they share
a key. -/
def mergePositions (merge : String → T → T → Except MergeError T) (later : List T) :
    ℕ → List T → Except MergeError (List T)
  | _, [] => .ok []
  | at_, item :: rest => do
    let merged ←
      match partner later item at_ with
      | some l => merge (toString at_) item l
      | none => .ok item
    let rest ← mergePositions merge later (at_ + 1) rest
    return merged :: rest

/-- The later's maps that have no partner in what is built. -/
def leftOver (built later : List T) : List T :=
  (later.zipIdx.filter fun (l, at_) =>
    isMap l && !((built[at_]?).any fun item => (partner later item at_).isSome)).map Prod.fst

/-- Lists extended with unique items: those that are no maps first, then the maps, which
with `mergelists` are merged by position where a key overlaps. -/
def unionLists (options : MergeOptions) (below : Step T) (path : List String)
    (earlier later : List T) : Except MergeError (List T) :=
  if options.mergelists then do
    let merged ← mergePositions (fun at_ => mergeMaps below (path ++ [at_])) later 0
      (pushUnique earlier later)
    return merged ++ leftOver (pushUnique earlier later) later
  else .ok (pushUnique earlier later ++ later.filter isMap)

/-- Recursive maps, lists extended with unique items. A null is replaced by anything. -/
def mergeDeep (options : MergeOptions) (one two : Step T) (path : List String)
    (earlier later : T) : Except MergeError T :=
  if kind earlier = .null then .ok later
  else
    match entries earlier, items earlier, entries later, items later with
    | _, _, none, none => .ok later
    | _, some earlierItems, _, some laterItems => do
      let out ← unionLists options two path earlierItems laterItems
      return withItems later out
    | some _, _, some _, _ => mergeMaps one path earlier later
    | some _, _, _, some laterItems => absorbListOfMaps .deep two path earlier laterItems
    | _, _, _, _ => .error (.kind (render path) (kind earlier) (kind later) .deep)

/-- One merge step, by the mode in force at the place. `one` merges a level down, `two`
two. -/
def mergeStep (ctx : Context) (levels : ℕ) (one two : Step T) : Step T := fun path earlier later =>
  if kind later = .absent then .ok earlier
  else if kind earlier = .absent then .ok later
  else
    match ctx.modeAt path with
    | .simple => mergeSimple levels earlier later
    | .substitute => mergeSubstitute one two path earlier later
    | .deep => mergeDeep ctx.options one two path earlier later

/-- Merging past the last level. -/
def tooDeep : Step T := fun _ _ _ => .error (.build .tooDeep)

/-- Two nodes merged, when so many levels are left. -/
def mergeValue (ctx : Context) : ℕ → Step T
  | 0 => tooDeep
  | 1 => mergeStep ctx 1 tooDeep tooDeep
  | levels + 2 => mergeStep ctx (levels + 2) (mergeValue ctx (levels + 1)) (mergeValue ctx levels)

end Merge

/-- A later value merged into an earlier one: `MergeMode::merge_with`. -/
def mergeWith (ctx : Context) (earlier later : Value) : Except MergeError Value :=
  mergeValue ctx maxDepth [] earlier later

end Guatiao.Merge
