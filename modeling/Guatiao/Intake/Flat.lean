import Guatiao.Intake.Path
import Guatiao.Lib.SortedMap
import Guatiao.Schema.Read

/-!
# Projecting a value onto a flat store

A value is written one entry per scalar leaf, under the path of the leaf, and a tagged field's
discriminant under the field's own key. Reading back rebuilds what the schema declares from the
entries at or under the field's key. Both walks follow the schema's kinds and stop at the same
depth.
-/

namespace Guatiao.Intake

open Lib Schema

/-- A flat store: texts under keys, in the order of the keys. -/
abbrev Store := SortedMap Text Text

/-- `path[key]`, quoted if it would otherwise read as a position. -/
def keyed (path key : Text) : Text := path ++ (Segment.key key).display

/-- `path[3]`. -/
def indexed (path : Text) (at_ : ℕ) : Text := path ++ (Segment.index at_).display

/-- `path.name`, or `path[na.me]` when the name would not read back as one segment. -/
def named (path name : Text) : Text := if isBareName name then path ++ '.' :: name else keyed path name

/-- How the store spells a top-level field's own key. -/
def rootPath (name : Text) : Text := if isBareName name then name else keyed [] name

/-- Whether a text starts a segment behind another. -/
def opens (rest : Text) : Bool := rest.head? == some '.' || rest.head? == some '['

/-- Whether a key is a path itself or something inside it. -/
def atOrUnder (key path : Text) : Bool :=
  key == path || (path.isPrefixOf key && opens (key.drop path.length))

/-- What stands for bytes that are no character. -/
def replacement : Char := Char.ofNat 0xFFFD

/-- One character off the front of some bytes and how many it took. A broken one takes as many
bytes as could still have started a right one. -/
def lossyChar (bytes : List UInt8) : Char × ℕ :=
  let byte := fun i => ((bytes[i]?).map UInt8.toNat).getD 0
  let within := fun i low high => decide (low ≤ byte i ∧ byte i ≤ high)
  let lead := byte 0
  let second :=
    if lead = 0xE0 then within 1 0xA0 0xBF
    else if lead = 0xED then within 1 0x80 0x9F
    else if lead = 0xF0 then within 1 0x90 0xBF
    else if lead = 0xF4 then within 1 0x80 0x8F
    else within 1 0x80 0xBF
  if lead < 0x80 then (Char.ofNat lead, 1)
  else if lead < 0xC2 ∨ 0xF4 < lead then (replacement, 1)
  else if !second then (replacement, 1)
  else if lead < 0xE0 then (Char.ofNat (lead % 32 * 64 + byte 1 % 64), 2)
  else if !within 2 0x80 0xBF then (replacement, 2)
  else if lead < 0xF0 then
    (Char.ofNat (lead % 16 * 4096 + byte 1 % 64 * 64 + byte 2 % 64), 3)
  else if !within 3 0x80 0xBF then (replacement, 3)
  else (Char.ofNat (lead % 8 * 262144 + byte 1 % 64 * 4096 + byte 2 % 64 * 64 + byte 3 % 64), 4)

/-- The characters of some bytes, and at most so many. -/
def lossyFrom : ℕ → List UInt8 → Text
  | 0, _ => []
  | _ + 1, [] => []
  | fuel + 1, bytes => (lossyChar bytes).1 :: lossyFrom fuel (bytes.drop (lossyChar bytes).2)

/-- Bytes as text: `String::from_utf8_lossy`. -/
def utf8Lossy (bytes : List UInt8) : Text := lossyFrom bytes.length bytes

/-- The text of a scalar, none for anything else. -/
def scalarText : Value → Option Text
  | .bool b => some (toString b).toList
  | .number n => some n.text.toList
  | .string text => some text.toList
  | .bytes data => some (utf8Lossy data)
  | _ => none

/-- A place still to be walked: where it is stored, its kind, its value. -/
structure Frame where
  path : Text
  kind : Kind
  value : Value

/-- The members of a map that fields declare, in the order of the declarations. -/
def members (path : Text) (map : List Entry) (fields : List FieldRef) : List Frame :=
  fields.filterMap fun member =>
    (AssocList.get member.key map).map fun v => ⟨named path member.key.toList, member.kind, v⟩

/-- The arm a variant's map selects. -/
def selected (kind : Kind) (tag : String) (map : List Entry) : Option (String × ArmRef) :=
  let chosen := ((AssocList.get tag map).bind Value.asStr).getD ""
  (kind.arms.find? fun a => a.value == chosen).map fun arm => (chosen, arm)

/-- One node: what it writes at its own path, and what it contains, in the order it is pushed.
None when the value does not fit the kind. -/
def visit (path : Text) (kind : Kind) (value : Value) : Option (Option Text × List Frame) :=
  match kind with
  | .variant tag _ =>
    value.asMap.bind fun map =>
      -- The discriminant goes under the field's own key.
      (selected kind tag map).map fun p => (some p.1.toList, members path map p.2.fields)
  | .map _ => value.asMap.map fun map => (none, members path map kind.fields)
  | .mapOf _ =>
    value.asMap.map fun map =>
      (none, map.map fun e => ⟨keyed path e.1.toList, kind.values, e.2⟩)
  | .list _ =>
    value.asList.map fun list =>
      (none, list.mapIdx fun at_ v => ⟨indexed path at_, kind.items, v⟩)
  | .tuple _ =>
    value.asList.map fun list =>
      (none, (list.zip kind.positions).mapIdx fun at_ p => ⟨indexed path at_, p.2, p.1⟩)
  | _ => (scalarText value).map fun text => (some text, [])

/-- The store with what a node writes. -/
def Store.put (path : Text) (text : Option Text) (store : Store) : Store :=
  match text with
  | some text => store.insert path text
  | none => store

/-- A frame, and what it pushes behind it: the frame pushed last is walked first, and all of it
before the next. Answers whether the walk stayed above the bound, with so many levels left. -/
def walk : ℕ → Frame → Store → Store × Bool
  | 0, _, store => (store, false)
  | left + 1, frame, store =>
    match visit frame.path frame.kind frame.value with
    | none => (store, true)
    | some (text, frames) =>
      frames.foldr
        (fun f acc =>
          let below := walk left f acc.1
          (below.1, acc.2 && below.2))
        (Store.put frame.path text store, true)

/-- Removes every entry at or under a path. -/
def clearUnder (store : Store) (path : Text) : Store := store.retain fun key => !atOrUnder key path

/-- Writes a value into flat storage, one entry per scalar leaf, and answers whether it fits. -/
def flatten (field : FieldRef) (value : Value) (store : Store) : Store × Bool :=
  let root := rootPath field.key.toList
  let cleared := clearUnder store root
  match visit root field.kind value with
  | none => (cleared, false)
  | some _ => walk maxDepth ⟨root, field.kind, value⟩ cleared

/-- Whether the entries from a prefix on start with one that has the prefix. -/
def startsUnder (store : Store) (start : Text) : Bool :=
  ((store.fromKey start).head?.map fun e => start.isPrefixOf e.1).getD false

/-- Whether anything is stored at or under a path. -/
def holds (store : Store) (path : Text) : Bool :=
  (store.get path).isSome || ['.', '['].any fun opener => startsUnder store (path ++ [opener])

/-- One step below a path, as the store spells it. -/
inductive Step
  /-- A name or a key that is no position. -/
  | named (key : Text)
  /-- A position, or a key that reads as one. -/
  | index (at_ : ℕ)
  deriving DecidableEq

/-- A segment as a step. -/
def Step.ofSegment : Segment → Step
  | .field name => .named name
  | .key key => .named key
  | .index at_ => .index at_

/-- The first segment of what follows a prefix and how much spells it, when all of it reads as
the path's continuation. -/
def firstStep (rest : Text) : Option (Step × ℕ) :=
  (spelled rest true).bind fun segments => segments.head?.map fun p => (.ofSegment p.1, p.2)

/-- The steps under a path, each with the prefix that spells it, an entry's step for every entry
in the order of the store. -/
def steps (store : Store) (path : Text) : List (Step × Text) :=
  ['.', '['].flatMap fun opener =>
    (store.scan (path ++ [opener]) fun key => (path ++ [opener]).isPrefixOf key).filterMap fun e =>
      (firstStep (e.1.drop path.length)).map fun p => (p.1, e.1.take (path.length + p.2))

/-- A list with one more step, unless one is spelled that way already. -/
def addOnce (out : List (Step × Text)) (next : Step × Text) : List (Step × Text) :=
  if out.any fun p => p.2 == next.2 then out else out ++ [next]

/-- The distinct next steps under a path, once for each spelling. -/
def children (store : Store) (path : Text) : List (Step × Text) :=
  (steps store path).foldl addOnce []

/-- A step as the key of an open map, where a position is a key like any other. -/
def Step.key : Step → Text
  | .named key => key
  | .index at_ => (toString at_).toList

/-- The keys steps name, each with its spellings, in the order they are found. -/
def spellings (steps : List (Step × Text)) : List (Text × List Text) :=
  steps.foldl (fun keys p => AssocList.set p.1.key ((AssocList.get p.1.key keys).getD [] ++ [p.2]) keys) []

/-- The members of a map that are found, stored in turn. -/
def setFound {α : Type} (key : α → String) (found : α → Option Value) (all : List α)
    (map : List Entry) : List Entry :=
  all.foldl
    (fun map a =>
      match found a with
      | some v => AssocList.set (key a) v map
      | none => map)
    map

/-- A tuple's elements from a position on, up to the first with nothing stored; none when one that
is stored cannot be rebuilt. -/
def positionsFrom (store : Store) (path : Text) (below : Text → Kind → Option Value) :
    ℕ → List Kind → Option (List Value)
  | _, [] => some []
  | index, position :: rest =>
    if holds store (indexed path index) then
      (below (indexed path index) position).bind fun v =>
        (positionsFrom store path below (index + 1) rest).map (v :: ·)
    else some []

/-- A map's value, absent when it holds nothing. -/
def mapUnlessEmpty (map : List Entry) : Option Value := if map.isEmpty then none else some (.map map)

/-- A list's value, absent when it holds nothing. -/
def listUnlessEmpty (list : List Value) : Option Value :=
  if list.isEmpty then none else some (.list list)

/-- One node of what is read back, with so many levels left. -/
def rebuild (store : Store) : ℕ → Text → Kind → Option Value
  | 0, _, _ => none
  | left + 1, path, kind =>
    let member := fun (f : FieldRef) => rebuild store left (named path f.key.toList) f.kind
    match kind with
    | .variant tag _ =>
      (store.get path).bind fun chosen =>
        (kind.arms.find? fun a => a.value.toList == chosen).map fun arm =>
          -- The discriminant goes in first.
          .map (setFound FieldRef.key member arm.fields [(tag, .string (.ofList chosen))])
    | .map _ => mapUnlessEmpty (setFound FieldRef.key member kind.fields [])
    | .mapOf _ =>
      let found := fun (p : Text × List Text) =>
        let written := keyed path p.1
        ((written :: p.2.filter (· != written)).filter (holds store)).findSome? fun at_ =>
          rebuild store left at_ kind.values
      mapUnlessEmpty
        (setFound (fun p => .ofList p.1) found (spellings (children store path)) [])
    | .list _ =>
      let positions := (children store path).filterMap fun p =>
        match p.1 with
        | .index at_ => some at_
        | .named _ => none
      -- Positions are taken in order and closed up.
      listUnlessEmpty ((positions.mergeSort (· ≤ ·)).dedup.filterMap fun at_ =>
        rebuild store left (indexed path at_) kind.items)
    | .tuple _ =>
      (positionsFrom store path (rebuild store left) 0 kind.positions).bind listUnlessEmpty
    | _ => (store.get path).map fun text => .string (.ofList text)

/-- Reads a value back out of flat storage, rebuilding what the schema declares. -/
def unflatten (field : FieldRef) (store : Store) : Option Value :=
  let root := rootPath field.key.toList
  if holds store root then rebuild store maxDepth root field.kind else none

end Guatiao.Intake
