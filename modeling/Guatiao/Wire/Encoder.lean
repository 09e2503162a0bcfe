import Guatiao.Visit.TreeSink
import Guatiao.Wire.Encode
import Guatiao.Wire.Keys

/-!
# Writing events as wire bytes

The streaming encoder writes each event as it comes. A count promised is written when
its container begins; else one byte is reserved, and the count put there when the
container ends, moving what follows it when it needs more than one.
-/

namespace Guatiao.Wire

open Lib Visit

/-- A map's keys, as ranges of the output, and their hashes once it counts, or was
promised, more than `LINEAR`. -/
structure Keys where
  ranges : List (ℕ × ℕ)
  hashes : Option KeySet
  keyed : Bool

/-- A container being written: where its count is, what was promised, how many values
have been begun, and a map's keys. -/
structure Written where
  offset : ℕ
  promised : Option ℕ
  written : ℕ
  map : Option Keys

/-- The streaming encoder: what it has written, the containers open, innermost first,
and whether a whole value was written at the top. -/
structure Encoder where
  out : List UInt8
  stack : List Written
  done : Bool
  seeds : Seeded

namespace Encoder

/-- Appends to `out`. -/
def new (seeds : Seeded) (out : List UInt8) : Encoder := ⟨out, [], false, seeds⟩

/-- Whether one whole value was written and every container closed. -/
def isComplete (e : Encoder) : Bool := e.done && e.stack.isEmpty

/-- Before a value: a key must have come first in a map, and only one value is written
at the top. -/
def valueHere (e : Encoder) : Except ValueError Encoder :=
  match e.stack with
  | [] => if e.done then .error .wrongKind else .ok e
  | top :: below =>
    if top.map.any fun keys => !keys.keyed then .error .wrongKind
    else
      let top := { top with
        map := top.map.map fun keys => { keys with keyed := false }
        written := top.written + 1 }
      if top.promised.any fun n => n < top.written then .error .wrongKind
      else .ok { e with stack := top :: below }

/-- After a value: at the top, the walk is over. -/
def valueDone (e : Encoder) : Encoder :=
  if e.stack.isEmpty then { e with done := true } else e

/-- Bytes at the end of the output. -/
def push (e : Encoder) (bytes : List UInt8) : Encoder := { e with out := e.out ++ bytes }

/-- A value without elements: its tag, and its body behind the body's length. -/
def leaf (e : Encoder) (tag : Tag) (body : Option (List UInt8)) : Except ValueError Encoder := do
  let e ← e.valueHere
  .ok ((e.push [tag.toByte]).push ((body.map putBytes).getD [])).valueDone

/-- A container begins: its tag, and its count or a byte reserved for it. -/
def begin (e : Encoder) (tag : Tag) (len : Option ℕ) (map : Bool) :
    Except ValueError Encoder := do
  let e ← e.valueHere
  let e := e.push [tag.toByte]
  let opened : Written := ⟨e.out.length, len, 0, if map then some ⟨[], none, false⟩ else none⟩
  let e := e.push ((len.map putLen).getD [0])
  .ok { e with stack := opened :: e.stack }

/-- The count put where one byte was reserved for it. -/
def putCount (out : List UInt8) (offset count : ℕ) : List UInt8 :=
  match putLen count with
  | [one] => out.set offset one
  | bytes => out.take offset ++ bytes ++ out.drop (offset + 1)

/-- A container ends. -/
def finish (e : Encoder) (map : Bool) : Except ValueError Encoder :=
  match e.stack with
  | [] => .error .wrongKind
  | top :: below =>
    let fits := match top.map with
      | some keys => map && !keys.keyed
      | none => !map
    if !fits then .error .wrongKind
    else
      match top.promised with
      | some n =>
        if n ≠ top.written then .error .wrongKind else .ok { e with stack := below }.valueDone
      | none =>
        .ok { e with stack := below, out := putCount e.out top.offset top.written }.valueDone

/-- The bytes of a range of the output. -/
def slice (out : List UInt8) (range : ℕ × ℕ) : List UInt8 := (out.drop range.1).take range.2

/-- Whether a map has a key among those it has, and its hashes with the key's. A hash
seen before is a repeat only if the key itself is. -/
def seen (out : List UInt8) (keys : Keys) (bytes : List UInt8) : Bool × Option KeySet :=
  let same := keys.ranges.any fun range => slice out range == bytes
  match keys.hashes with
  | some set =>
    let (new, set) := set.insert bytes
    (!new && same, some set)
  | none => (same, none)

/-- The hashes of a map's keys, made from its ranges when it first counts, or was
promised, more than `LINEAR`. -/
def hashed (seeds : Seeded) (out : List UInt8) (promised : Option ℕ) (ranges : List (ℕ × ℕ)) :
    Option KeySet → Option KeySet
  | some set => some set
  | none =>
    let held := ranges.length
    let left := (promised.map fun n => n - held).getD 0
    if LINEAR < held + left then
      some (ranges.foldl (fun set range => (set.insert (slice out range)).2) (KeySet.new seeds))
    else none

/-- A map's next key. -/
def key (e : Encoder) (text : String) : Except ValueError Encoder :=
  match e.stack with
  | ⟨offset, promised, written, some keys⟩ :: below =>
    if keys.keyed then .error .wrongKind
    else
      let bytes := asBytes text
      match seen e.out keys bytes with
      | (true, _) => .error .duplicateKey
      | (false, hashes) =>
        let e := e.push (putLen bytes.length)
        let ranges := keys.ranges ++ [(e.out.length, bytes.length)]
        let e := e.push bytes
        let hashes := hashed e.seeds e.out promised ranges hashes
        .ok { e with stack := ⟨offset, promised, written, some ⟨ranges, hashes, true⟩⟩ :: below }
  | _ => .error .wrongKind

/-- One event. -/
def on (e : Encoder) : Event → Except ValueError Encoder
  | .absent => e.leaf .absent none
  | .null => e.leaf .null none
  | .bool b => do
    let e ← e.valueHere
    .ok ((e.push [Tag.bool.toByte]).push [if b then 1 else 0]).valueDone
  | .number text =>
    if isNumber text then e.leaf .number (some (asBytes text)) else .error .notANumber
  | .string text => e.leaf .string (some (asBytes text))
  | .bytes data => e.leaf .bytes (some data)
  | .listBegin len => e.begin .list len false
  | .listEnd => e.finish false
  | .mapBegin len => e.begin .map len true
  | .key text => e.key text
  | .mapEnd => e.finish true

/-- Events one after the other, up to the first refused. -/
def feed (e : Encoder) : List Event → Except ValueError Encoder
  | [] => .ok e
  | event :: rest => do
    let e ← e.on event
    e.feed rest

/-- The bytes before a container's elements: its tag and its count, or the byte reserved
for it. -/
def headBytes (tag : Tag) (promised : Option ℕ) : List UInt8 :=
  tag.toByte :: (promised.map putLen).getD [0]

/-- The bytes of a key whose value is due. -/
def pendingBytes (key : Option String) : List UInt8 :=
  (key.map fun k => putBytes (asBytes k)).getD []

/-- The keys kept for a map: where each is in the output, and hashes that answer for
them all. -/
def Holds (out : List UInt8) (keys : Keys) (names : List String) : Prop :=
  List.Forall₂ (fun range name => range.1 + range.2 ≤ out.length ∧ slice out range = asBytes name)
    keys.ranges names ∧ ∀ set ∈ keys.hashes, KeySet.Covers set names

/-- The output over `base` holds the half given containers, innermost first, each where
the encoder keeps its count and its keys. A container is busy while the value begun in
it is not whole: the value is counted, and its key no longer due. -/
inductive Lays (base : List UInt8) : Bool → List Part → List Written → List UInt8 → Prop
  | top (busy : Bool) : Lays base busy [] [] base
  | list {parts : List Part} {below : List Written} {out full : List UInt8} (busy : Bool)
      (promised : Option ℕ) (items : List Value) (hbelow : Lays base true parts below out)
      (hfull : full = out ++ headBytes .list promised ++ wireItems items) :
      Lays base busy (.list promised items :: parts)
        (⟨out.length + 1, promised, items.length + busy.toNat, none⟩ :: below) full
  | map {parts : List Part} {below : List Written} {out full : List UInt8} (busy : Bool)
      (promised : Option ℕ) (entries : List Entry) (key : Option String) (keys : Keys)
      (hbelow : Lays base true parts below out)
      (hfull : full = out ++ headBytes .map promised ++ wireEntries entries ++ pendingBytes key)
      (hkeys : Holds full keys (AssocList.keys entries ++ key.toList))
      (hkeyed : keys.keyed = (key.isSome && !busy)) (hbusy : busy = true → key.isSome = true) :
      Lays base busy (.map promised entries key :: parts)
        (⟨out.length + 1, promised, entries.length + busy.toNat, some keys⟩ :: below) full

/-- The encoder has written what the draft has been given. -/
def Encodes (base : List UInt8) (e : Encoder) (d : Draft) : Prop :=
  match d.done with
  | none => e.done = false ∧ Lays base false d.stack e.stack e.out
  | some v => e.done = true ∧ d.stack = [] ∧ e.stack = [] ∧ e.out = base ++ wire v

/-- Both accept and go on alike, or both refuse. -/
def Alike (base : List UInt8) : Except ValueError Encoder → Option Draft → Prop
  | .ok e, some d => Encodes base e d
  | .error _, none => True
  | _, _ => False

variable {base : List UInt8} {e : Encoder} {d : Draft}

variable {out : List UInt8} {keys : Keys} {names : List String} {v : Value} {seeds : Seeded}
   {ranges : List (ℕ × ℕ)}

theorem slice_append {more : List UInt8} {range : ℕ × ℕ}
    (h : range.1 + range.2 ≤ out.length) : slice (out ++ more) range = slice out range := by
  unfold slice
  rw [List.drop_append_of_le_length (by omega), List.take_append_of_le_length]
  rw [List.length_drop]
  omega

theorem Holds.append
    (h : Holds out keys names) (more : List UInt8) : Holds (out ++ more) keys names := by
  refine ⟨h.1.imp fun range name ⟨hle, hslice⟩ => ⟨?_, ?_⟩, h.2⟩
  · rw [List.length_append]
    omega
  · rw [slice_append hle, hslice]

theorem room_iff (promised : Option ℕ) (given : ℕ) :
    (promised.any fun n => n < given + 1) = false ↔ Draft.Room promised given := by
  cases promised with
  | none => simp [Draft.Room]
  | some n =>
    rw [Option.any_some, decide_eq_false_iff_not, Nat.not_lt]
    constructor
    · intro h m hm
      cases hm
      exact h
    · exact fun h => h n rfl

/-- A value begun where one may come makes its container busy. -/
theorem valueHere_alike (h : Encodes base e d) :
    (d.Ready ∧ d.done = none ∧ ∃ stack, e.valueHere = .ok { e with stack := stack, done := false } ∧
      Lays base true d.stack stack e.out) ∨
    (¬d.Ready ∧ ∃ error, e.valueHere = .error error) := by
  obtain ⟨out, stack, done, seeds⟩ := e
  obtain ⟨parts, whole⟩ := d
  cases whole with
  | some v =>
    obtain ⟨rfl, rfl, rfl, rfl⟩ := h
    exact .inr ⟨by simp [Draft.Ready], _, rfl⟩
  | none =>
    obtain ⟨rfl, hlays⟩ := h
    cases hlays with
    | top => exact .inl ⟨rfl, rfl, [], rfl, .top true⟩
    | @list parts below inner _ _ promised items hbelow hfull =>
      have hroom := room_iff promised items.length
      by_cases hready : Draft.Room promised items.length
      · refine .inl ⟨hready, rfl, _, ?_, .list true promised items hbelow hfull⟩
        simp only [valueHere, Option.any_none, Bool.false_eq_true, if_false, Bool.toNat_false,
          Nat.add_zero, hroom.mpr hready, Option.map_none, Bool.toNat_true]
      · refine .inr ⟨hready, .wrongKind, ?_⟩
        rw [← hroom, Bool.not_eq_false] at hready
        simp only [valueHere, Option.any_none, Bool.false_eq_true, if_false, Bool.toNat_false,
          Nat.add_zero, hready, if_true]
    | @map parts below inner _ _ promised entries key keys hbelow hfull hkeys hkeyed =>
      have hroom := room_iff promised entries.length
      cases key with
      | none =>
        refine .inr ⟨fun hready => Bool.false_ne_true hready.1, .wrongKind, ?_⟩
        simp [valueHere, hkeyed]
      | some key =>
        by_cases hready : Draft.Room promised entries.length
        · refine .inl ⟨⟨rfl, hready⟩, rfl, _, ?_,
            .map true promised entries (some key) { keys with keyed := false } hbelow hfull hkeys
              rfl fun _ => rfl⟩
          simp only [valueHere, Option.any_some, hkeyed, Option.isSome_some, Bool.not_false,
            Bool.and_self, Bool.not_true, Bool.false_eq_true, if_false, Bool.toNat_false,
            Nat.add_zero, hroom.mpr hready, Option.map_some, Bool.toNat_true]
        · refine .inr ⟨fun h => hready h.2, .wrongKind, ?_⟩
          rw [← hroom, Bool.not_eq_false] at hready
          simp only [valueHere, Option.any_some, hkeyed, Option.isSome_some, Bool.not_false,
            Bool.and_self, Bool.not_true, Bool.false_eq_true, if_false, Bool.toNat_false,
            Nat.add_zero, hready, if_true]

theorem placed {parts : List Part} {stack : List Written}
    (h : Lays base true parts stack out) (v : Value) (seeds : Seeded) :
    Encodes base (valueDone ⟨out ++ wire v, stack, false, seeds⟩) (Draft.put ⟨parts, none⟩ v) := by
  cases h with
  | top => exact ⟨rfl, rfl, rfl, rfl⟩
  | @list parts below inner _ _ promised items hbelow hfull =>
    refine ⟨rfl, ?_⟩
    have hfull' : out ++ wire v =
        inner ++ headBytes .list promised ++ wireItems (items ++ [v]) := by
      simp [hfull, wireItems_append, wireItems]
    have h := Lays.list false promised (items ++ [v]) hbelow hfull'
    simpa [valueDone, Draft.put] using h
  | @map parts below inner _ _ promised entries key keys hbelow hfull hkeys hkeyed hbusy =>
    obtain ⟨k, rfl⟩ := Option.isSome_iff_exists.mp (hbusy rfl)
    refine ⟨rfl, ?_⟩
    have hholds := hkeys.append (wire v)
    have hfull' : out ++ wire v =
        inner ++ headBytes .map promised ++ wireEntries (entries ++ [(k, v)]) ++
          pendingBytes none := by
      simp [hfull, wireEntries_append, wireEntries, pendingBytes]
    have h := Lays.map false promised (entries ++ [(k, v)]) none keys hbelow hfull'
      (by simpa using hholds) (by simpa using hkeyed) (by simp)
    simpa [valueDone, Draft.put] using h

theorem leaf_alike (h : Encodes base e d) {step : Except ValueError Encoder}
    (hstep : step = e.valueHere.map fun e => (e.push (wire v)).valueDone) :
    Alike base step (d.leaf v) := by
  rw [hstep]
  rcases valueHere_alike h with ⟨hready, hdone, stack, hhere, hlays⟩ | ⟨hready, error, hhere⟩
  · rw [Draft.leaf, if_pos hready, hhere]
    obtain ⟨parts, whole⟩ := d
    cases hdone
    exact placed hlays v _
  · rw [Draft.leaf, if_neg hready, hhere]
    trivial

theorem begin_alike (h : Encodes base e d) (len : Option ℕ) :
    Alike base (e.begin .list len false) (d.begin (.list len [])) ∧
      Alike base (e.begin .map len true) (d.begin (.map len [] none)) := by
  rcases valueHere_alike h with ⟨hready, hdone, stack, hhere, hlays⟩ | ⟨hready, error, hhere⟩
  · simp only [Draft.begin, if_pos hready, Encoder.begin, hhere, Bind.bind, Except.bind]
    obtain ⟨parts, whole⟩ := d
    cases hdone
    constructor
    · refine ⟨rfl, ?_⟩
      have h := Lays.list false len [] hlays rfl
      simpa [wireItems, headBytes, push] using h
    · refine ⟨rfl, ?_⟩
      have h := Lays.map false len [] none ⟨[], none, false⟩ hlays rfl
        (by simp [Holds]) rfl (by simp)
      simpa [wireEntries, headBytes, push, pendingBytes] using h
  · simp only [Draft.begin, if_neg hready, Encoder.begin, hhere, Bind.bind, Except.bind]
    exact ⟨trivial, trivial⟩

theorem putCount_reserved (out rest : List UInt8) (tag : UInt8) (count : ℕ) :
    putCount (out ++ tag :: 0 :: rest) (out.length + 1) count =
      out ++ tag :: (putLen count ++ rest) := by
  have hsplit : out ++ tag :: 0 :: rest = (out ++ [tag]) ++ 0 :: rest := by simp
  have hlength : out.length + 1 = (out ++ [tag]).length := by simp
  unfold putCount
  rw [hsplit, hlength]
  split
  · next one hone =>
    rw [hone, List.set_append_right _ _ (Nat.le_refl _), Nat.sub_self]
    simp
  · rw [List.take_left, List.drop_length_add_append]
    simp

/-- What a container that ends has written: its count is the one promised, or is put at
its reserved byte. -/
theorem ended {parts : List Part} {below : List Written} {body : List UInt8}
    {tag : Tag} {promised : Option ℕ} {count : ℕ} {map : Option Keys} {m : Bool}
    (hbelow : Lays base true parts below out) (hv : wire v = tag.toByte :: (putLen count ++ body))
    (hfits : (match map with
      | some keys => m && !keys.keyed
      | none => !m) = true) :
    Alike base
      (finish ⟨out ++ headBytes tag promised ++ body,
        ⟨out.length + 1, promised, count, map⟩ :: below, false, seeds⟩ m)
      (if Draft.Met promised count then some (Draft.put ⟨parts, none⟩ v) else none) := by
  have hplaced := placed hbelow v seeds
  rw [hv] at hplaced
  simp only [finish, hfits, Bool.not_true, Bool.false_eq_true, if_false]
  cases promised with
  | none =>
    rw [if_pos (by simp [Draft.Met])]
    have hcount := putCount_reserved out body tag.toByte count
    simp only [headBytes, Option.map_none, Option.getD_none, List.append_assoc, List.cons_append,
      List.nil_append, hcount]
    exact hplaced
  | some n =>
    by_cases hmet : n = count
    · subst hmet
      rw [if_pos (by simp [Draft.Met])]
      simp only [headBytes, Option.map_some, Option.getD_some, List.append_assoc,
        List.cons_append, ne_eq, not_true_eq_false, if_false]
      exact hplaced
    · rw [if_neg (by simpa [Draft.Met] using hmet)]
      simp only [ne_eq, hmet, not_false_eq_true, if_true]
      trivial

theorem finish_alike (h : Encodes base e d) :
    Alike base (e.finish false) (d.step .listEnd) ∧
      Alike base (e.finish true) (d.step .mapEnd) := by
  obtain ⟨out, stack, done, seeds⟩ := e
  obtain ⟨parts, whole⟩ := d
  cases whole with
  | some v =>
    obtain ⟨rfl, rfl, rfl, rfl⟩ := h
    exact ⟨trivial, trivial⟩
  | none =>
    obtain ⟨rfl, hlays⟩ := h
    cases hlays with
    | top => exact ⟨trivial, trivial⟩
    | list _ promised items hbelow hfull =>
      subst hfull
      exact ⟨ended hbelow (by simp [wire]) rfl, trivial⟩
    | map _ promised entries key keys hbelow hfull hkeys hkeyed =>
      refine ⟨trivial, ?_⟩
      cases key with
      | some k => simp [finish, hkeyed, Draft.step, Alike]
      | none =>
        simp only [pendingBytes, Option.map_none, Option.getD_none, List.append_nil] at hfull
        subst hfull
        exact ended hbelow (by simp [wire]) (by simp [hkeyed])

theorem any_slice (h : List.Forall₂ (fun range name => range.1 + range.2 ≤ out.length ∧
      slice out range = asBytes name) ranges names) (text : String) :
    (ranges.any fun range => slice out range == asBytes text) = true ↔ text ∈ names := by
  induction h with
  | nil => simp
  | cons hhead _ ih =>
    obtain ⟨-, hslice⟩ := hhead
    simp only [List.any_cons, Bool.or_eq_true, beq_iff_eq, hslice, ih, List.mem_cons]
    constructor
    · rintro (heq | hmem)
      · exact .inl (asBytes_inj heq).symm
      · exact .inr hmem
    · rintro (rfl | hmem)
      · exact .inl rfl
      · exact .inr hmem

/-- Where the keys of a map are, the ranges spell them. -/
private def Ranges (out : List UInt8) : List (ℕ × ℕ) → List String → Prop :=
  List.Forall₂ fun range name =>
    range.1 + range.2 ≤ out.length ∧ slice out range = asBytes name

theorem seen_fst (h : Holds out keys names) (text : String) :
    (seen out keys (asBytes text)).1 = true ↔ text ∈ names := by
  have hsame := any_slice h.1 text
  unfold seen
  cases hhashes : keys.hashes with
  | none => exact hsame
  | some set =>
    have hcovers := h.2 set hhashes
    dsimp only
    rw [hcovers.repeated_iff text _ hsame]
    exact hsame

theorem seen_snd (h : Holds out keys names) (text : String) :
    ∀ set ∈ (seen out keys (asBytes text)).2, KeySet.Covers set (names ++ [text]) := by
  unfold seen
  cases hhashes : keys.hashes with
  | none => simp
  | some set =>
    rintro _ ⟨⟩
    exact (h.2 set hhashes).insert text

theorem covers_ranges {set : KeySet} {before : List String}
    (hset : set.Covers before) (h : Ranges out ranges names) :
    (ranges.foldl (fun set range => (set.insert (slice out range)).2) set).Covers
      (before ++ names) := by
  induction h generalizing set before with
  | nil => simpa using hset
  | @cons range name ranges names hhead _ ih =>
    have h := ih (hset.insert name)
    rw [List.foldl_cons, hhead.2]
    simpa using h

theorem hashed_covers {promised : Option ℕ} {hashes : Option KeySet}
    (h : Ranges out ranges names) (hhashes : ∀ set ∈ hashes, KeySet.Covers set names) :
    ∀ set ∈ hashed seeds out promised ranges hashes, KeySet.Covers set names := by
  intro set hset
  unfold hashed at hset
  cases hashes with
  | some set' =>
    cases hset
    exact hhashes set rfl
  | none =>
    dsimp only at hset
    split at hset
    · cases hset
      exact covers_ranges (KeySet.new_covers seeds) h
    · cases hset

theorem Holds.add {text : String} {hashes : Option KeySet} (h : Holds out keys names)
    (hseen : seen out keys (asBytes text) = (false, hashes)) (seeds : Seeded) (promised : Option ℕ) :
    let before := out ++ putLen (asBytes text).length
    let full := before ++ asBytes text
    let ranges := keys.ranges ++ [(before.length, (asBytes text).length)]
    Holds full ⟨ranges, hashed seeds full promised ranges hashes, true⟩ (names ++ [text]) := by
  intro before full ranges
  have hranges : Ranges full ranges (names ++ [text]) := by
    have hold := (h.append (putLen (asBytes text).length ++ asBytes text)).1
    refine List.rel_append (by simpa [full, before] using hold) (.cons ⟨?_, ?_⟩ .nil)
    · simp [full]
    · simp [full, slice]
  have hsnd := seen_snd h text
  rw [hseen] at hsnd
  exact ⟨hranges, hashed_covers hranges hsnd⟩

theorem key_alike (h : Encodes base e d) (text : String) :
    Alike base (e.key text) (d.step (.key text)) := by
  obtain ⟨out, stack, done, seeds⟩ := e
  obtain ⟨parts, whole⟩ := d
  cases whole with
  | some v =>
    obtain ⟨rfl, rfl, rfl, rfl⟩ := h
    trivial
  | none =>
    obtain ⟨rfl, hlays⟩ := h
    cases hlays with
    | top => trivial
    | list => trivial
    | @map parts below inner _ _ promised entries key keys hbelow hfull hkeys hkeyed =>
      cases key with
      | some k => simp [Encoder.key, hkeyed, Draft.step, Alike]
      | none =>
        simp only [Option.toList_none, List.append_nil] at hkeys
        have hfst := seen_fst hkeys text
        simp only [Encoder.key, hkeyed, Option.isSome_none, Bool.false_and, Bool.false_eq_true,
          if_false, Draft.step]
        rcases hseen : seen out keys (asBytes text) with ⟨_ | _, hashes⟩
        · rw [hseen] at hfst
          rw [if_neg (by rw [← hfst]; simp)]
          have hadd := hkeys.add hseen seeds promised
          dsimp only at hfull
          exact ⟨rfl, .map false promised entries (some text) _ hbelow
            (by simp [hfull, pendingBytes, push, putBytes]) hadd rfl (by simp)⟩
        · rw [hseen] at hfst
          rw [if_pos (hfst.mp rfl)]
          trivial

theorem leaf_step (tag : Tag) (body : Option (List UInt8))
    (hv : wire v = tag.toByte :: (body.map putBytes).getD []) :
    e.leaf tag body = e.valueHere.map fun e => (e.push (wire v)).valueDone := by
  unfold leaf
  cases e.valueHere with
  | error error => rfl
  | ok e' => simp [Bind.bind, Except.bind, Except.map, push, hv]

theorem on_alike (h : Encodes base e d) (event : Event) :
    Alike base (e.on event) (d.step event) := by
  cases event with
  | absent => exact leaf_alike h (leaf_step .absent none rfl)
  | null => exact leaf_alike h (leaf_step .null none rfl)
  | bool b =>
    refine leaf_alike h ?_
    unfold on
    cases e.valueHere with
    | error error => rfl
    | ok e' => simp [Bind.bind, Except.bind, Except.map, push, wire]
  | number text =>
    cases hnew : Number.new text with
    | none =>
      have hbad : isNumber text = false := by
        rw [← Number.new_isSome, hnew]
        rfl
      simp only [on, hbad, Draft.step, hnew, Option.bind_none]
      trivial
    | some n =>
      have hgood : isNumber text = true := by
        rw [← Number.new_isSome, hnew]
        rfl
      simp only [on, hgood, if_true, Draft.step, hnew, Option.bind_some]
      refine leaf_alike h (leaf_step .number _ ?_)
      rw [← Number.text_of_new hnew]
      rfl
  | string text => exact leaf_alike h (leaf_step .string (some (asBytes text)) rfl)
  | bytes data => exact leaf_alike h (leaf_step .bytes (some data) rfl)
  | listBegin len => exact (begin_alike h len).1
  | listEnd => exact (finish_alike h).1
  | mapBegin len => exact (begin_alike h len).2
  | key text => exact key_alike h text
  | mapEnd => exact (finish_alike h).2

theorem feed_alike (h : Encodes base e d) (events : List Event) :
    Alike base (e.feed events) (d.run events) := by
  induction events generalizing e d with
  | nil => exact h
  | cons event rest ih =>
    have hon := on_alike h event
    simp only [feed, Draft.run, Bind.bind, Except.bind]
    cases he : e.on event with
    | error error =>
      rw [he] at hon
      cases hd : d.step event with
      | none => trivial
      | some d' =>
        rw [hd] at hon
        exact hon.elim
    | ok e' =>
      rw [he] at hon
      cases hd : d.step event with
      | none =>
        rw [hd] at hon
        exact hon.elim
      | some d' =>
        rw [hd] at hon
        exact ih hon

theorem complete_iff {events : List Event} {e : Encoder} (hfeed : (new seeds out).feed events = .ok e) :
    (e.isComplete = true ↔ ∃ v, Spells events v) ∧
      ∀ v, Spells events v → e.out = out ++ wire v := by
  have hnew : Encodes out (new seeds out) .new := ⟨rfl, .top false⟩
  have halike := feed_alike hnew events
  rw [hfeed] at halike
  cases hrun : Draft.new.run events with
  | none =>
    rw [hrun] at halike
    exact halike.elim
  | some d =>
    rw [hrun] at halike
    obtain ⟨parts, whole⟩ := d
    cases whole with
    | none =>
      obtain ⟨hdone, -⟩ := halike
      have hno : ∀ v, ¬Spells events v := by
        intro v hv
        rw [Draft.run_eq_done.mpr hv] at hrun
        cases hrun
      exact ⟨by simp [isComplete, hdone, hno], fun v hv => absurd hv (hno v)⟩
    | some w =>
      obtain ⟨hdone, rfl, hstack, hout⟩ := halike
      refine ⟨?_, ?_⟩
      · simp only [isComplete, hdone, hstack, List.isEmpty_nil, Bool.and_self, true_iff]
        exact ⟨w, Draft.run_eq_done.mp hrun⟩
      · intro v hv
        rw [Draft.run_eq_done.mpr hv] at hrun
        cases hrun
        exact hout

end Encoder

/-- The streaming encoder is the tree sink and the tree encoder: it accepts every event
and is complete exactly when the events are one well formed value, and then it has
written the encoding of the tree the same events build. -/
theorem encoder_equiv (seeds : Seeded) (out : List UInt8) (events : List Event) :
    ((∃ e, (Encoder.new seeds out).feed events = .ok e ∧ e.isComplete = true) ↔
        ∃ v, Spells events v) ∧
      ∀ e, (Encoder.new seeds out).feed events = .ok e → e.isComplete = true →
        ∃ v, TreeSink.build events = .ok v ∧ e.out = encode v out := by
  refine ⟨⟨?_, ?_⟩, ?_⟩
  · rintro ⟨e, hfeed, hcomplete⟩
    exact (Encoder.complete_iff hfeed).1.mp hcomplete
  · rintro ⟨v, hv⟩
    have hnew : Encoder.Encodes out (.new seeds out) .new := ⟨rfl, .top false⟩
    have halike := Encoder.feed_alike hnew events
    rw [Draft.run_eq_done.mpr hv] at halike
    cases hfeed : (Encoder.new seeds out).feed events with
    | error error =>
      rw [hfeed] at halike
      exact halike.elim
    | ok e => exact ⟨e, rfl, (Encoder.complete_iff hfeed).1.mpr ⟨v, hv⟩⟩
  · intro e hfeed hcomplete
    have hspec := Encoder.complete_iff hfeed
    obtain ⟨v, hv⟩ := hspec.1.mp hcomplete
    exact ⟨v, TreeSink.build_spells hv, by rw [encode_eq, hspec.2 v hv]⟩

/-- The events of a map of no promised length holding a list of a promised one. -/
def sampleEvents : List Event :=
  [.mapBegin none, .key "a", .listBegin (some 2), .null, .number "1.10", .listEnd, .mapEnd]

/-- The value the sample's events spell. -/
def sampleValue : Value := .map [("a", .list [.null, .number ⟨"1.10", by decide⟩])]

theorem encoder_equiv_sample :
    Spells sampleEvents sampleValue ∧
      ∃ e, (Encoder.new ⟨1, 2⟩ [9]).feed sampleEvents = .ok e ∧
        ∃ v, TreeSink.build sampleEvents = .ok v ∧ e.out = encode v [9] := by
  have hitems : SpellsItems ([.null] ++ ([.number "1.10"] ++ []))
      [.null, .number ⟨"1.10", by decide⟩] :=
    .cons _ _ _ _ .null (.cons _ _ _ _ (.number ⟨"1.10", by decide⟩) .nil)
  have hentries := SpellsEntries.cons "a" _ [] _ []
    (.list (some 2) _ _ hitems fun n hn => by cases hn; rfl) .nil
  have hspells : Spells sampleEvents sampleValue :=
    .map none _ _ hentries (fun n hn => by cases hn) (by decide)
  obtain ⟨e, hfeed, hcomplete⟩ :=
    (encoder_equiv ⟨1, 2⟩ [9] sampleEvents).1.mpr ⟨sampleValue, hspells⟩
  exact ⟨hspells, e, hfeed, (encoder_equiv ⟨1, 2⟩ [9] sampleEvents).2 e hfeed hcomplete⟩

end Guatiao.Wire
