import Guatiao.Lib.Results
import Guatiao.Remote.Args
import Guatiao.Value.Convert

/-!
# A kind as data

A kind's description is read from a value and written back as one. The reader takes a type's text
through the scalars, the trees and the rest, in that order; the writer leaves out what is at the
reader's default.
-/

namespace Guatiao.Library.Description

open Lib Remote
open AssocList (get set)

structure ArgDescription where
  name : String
  ty : ArgType

structure SlotDescription where
  name : String
  required : Bool
  fallible : Bool
  args : List ArgDescription
  answer : Option AnswerType
  sensitive : Bool
  doc : Option String

structure KindDescription where
  name : String
  floorHash : UInt32
  object : Bool
  doc : Option String
  slots : List SlotDescription

/-- Where a value is not a description, and what was wrong. -/
structure DescriptionError where
  at_ : String
  why : String

abbrev Read := Except DescriptionError

variable (map : List Entry) (at_ : String)

def under (key : String) : String := if at_ = "" then key else s!"{at_}.{key}"

/-- One item of what is listed. -/
def item (i : ℕ) : String := s!"{at_}[{i}]"

def mapAt : Value → Read (List Entry)
  | .map map => .ok map
  | _ => .error ⟨at_, "is not a map"⟩

def text (key : String) : Read String :=
  match get key map with
  | none => .error ⟨under at_ key, "is missing"⟩
  | some (.string "") => .error ⟨under at_ key, "is empty"⟩
  | some (.string text) => .ok text
  | some _ => .error ⟨under at_ key, "is not text"⟩

def flag (key : String) (default : Option Bool) : Read Bool :=
  match get key map, default with
  | none, some default => .ok default
  | none, none => .error ⟨under at_ key, "is missing"⟩
  | some (.bool b), _ => .ok b
  | some _, _ => .error ⟨under at_ key, "is not a bool"⟩

def doc : Read (Option String) :=
  match get "doc" map with
  | none => .ok none
  | some (.string text) => .ok (some text)
  | some _ => .error ⟨under at_ "doc", "is not text"⟩

def listAt (key : String) : Read (List Value) :=
  match get key map with
  | none => .error ⟨under at_ key, "is missing"⟩
  | some (.list items) => .ok items
  | some _ => .error ⟨under at_ key, "is not a list"⟩

def scalarNamed : String → Option Scalar
  | "bool" => some .bool
  | "i8" => some .i8
  | "i16" => some .i16
  | "i32" => some .i32
  | "i64" => some .i64
  | "i128" => some .i128
  | "isize" => some .isize
  | "u8" => some .u8
  | "u16" => some .u16
  | "u32" => some .u32
  | "u64" => some .u64
  | "u128" => some .u128
  | "usize" => some .usize
  | "f32" => some .f32
  | "f64" => some .f64
  | _ => none

def treeOf : String → Option Tree
  | "value" => some .value
  | "map" => some .map
  | "list" => some .list
  | _ => none

def passOf : Read Pass := do
  match ← text map at_ "pass" with
  | "borrowed" => .ok .borrowed
  | "taken" => .ok .taken
  | "lent" => .ok .lent
  | other => .error ⟨under at_ "pass", s!"is `{other}`, not borrowed, taken or lent"⟩

def notNullable : DescriptionError :=
  ⟨under at_ "nullable", "is set on something other than a borrowed value"⟩

/-- The type an argument's text names: a scalar first, then a tree, then the rest. -/
def argType (ty : String) (nullable : Bool) : Read ArgType :=
  match scalarNamed ty, treeOf ty with
  | some scalar, _ => .ok (.scalar scalar)
  | none, some tree => do
    let pass ← passOf map at_
    if nullable && (tree ≠ .value || pass ≠ .borrowed) then .error (notNullable at_)
    else .ok (.tree tree pass nullable)
  | none, none =>
    match ty with
    | "str" => .ok .str
    | "bytes" => .ok .bytes
    | "bytes_mut" => .ok .bytesMut
    | "object" => do
      let kind ← text map at_ "kind"
      let pass ← passOf map at_
      if pass = .borrowed then
        .error ⟨under at_ "pass", "is borrowed: an object is taken or lent"⟩
      else .ok (.object kind pass)
    | other => .error ⟨under at_ "type", s!"is `{other}`, which no argument is"⟩

def isTree : ArgType → Bool
  | .tree .. => true
  | _ => false

def arg (v : Value) : Read ArgDescription := do
  let map ← mapAt at_ v
  let name ← text map at_ "name"
  let ty ← text map at_ "type"
  let nullable ← flag map at_ "nullable" (some false)
  let ty ← argType map at_ ty nullable
  if nullable && !isTree ty then .error (notNullable at_) else .ok ⟨name, ty⟩

def answer (v : Value) : Read AnswerType := do
  let map ← mapAt at_ v
  let ty ← text map at_ "type"
  match scalarNamed ty, treeOf ty with
  | some scalar, _ => .ok (.scalar scalar)
  | none, some tree => .ok (.tree tree)
  | none, none =>
    match ty with
    | "text" => .ok .text
    | "object" => do .ok (.object (← text map at_ "kind"))
    | other => .error ⟨under at_ "type", s!"is `{other}`, which no answer is"⟩

/-- The arguments of a slot, from the `i`th on. -/
def argsFrom : ℕ → List Value → Read (List ArgDescription)
  | _, [] => .ok []
  | i, v :: rest => do
    let first ← arg (item (under at_ "args") i) v
    .ok (first :: (← argsFrom (i + 1) rest))

def answered : Read (Option AnswerType) :=
  match get "answer" map with
  | none => .ok none
  | some v => (answer (under at_ "answer") v).map some

def slot (v : Value) : Read SlotDescription := do
  let map ← mapAt at_ v
  let name ← text map at_ "name"
  let required ← flag map at_ "required" none
  let fallible ← flag map at_ "fallible" none
  let args ← argsFrom at_ 0 (← listAt map at_ "args")
  let answer ← answered map at_
  let sensitive ← flag map at_ "sensitive" (some false)
  .ok ⟨name, required, fallible, args, answer, sensitive, ← doc map at_⟩

def fallibleOnly : String :=
  "is `object`, which crosses on a fallible slot only: its table is checked where it arrives"

/-- What a slot read at `here` is refused for, behind the slots that are known. -/
def refusal (known : List SlotDescription) (s : SlotDescription) (here : String) (object : Bool) :
    Option DescriptionError :=
  let named j := item s!"{here}.args" j
  let typed (p : ArgDescription → Bool) (why : String) := (s.args.findIdx? p).map fun j =>
    (⟨named j ++ ".type", why⟩ : DescriptionError)
  let second name := s!"names `{name}` a second time"
  let guarded (c : Bool) (e : Option DescriptionError) := if c then e else none
  ((s.args.zipIdx.find? fun (a, j) => (s.args.take j).any (·.name = a.name)).map fun (a, j) =>
      ⟨named j, second a.name⟩) <|>
  guarded (!object) (typed (·.ty = .bytesMut)
    "is `bytes_mut`, the caller's bytes written in place, which cross on an object kind only") <|>
  guarded (!s.fallible) (typed (fun a => a.ty matches .object ..) fallibleOnly <|>
    guarded (s.answer matches some (.object _)) (some ⟨s!"{here}.answer.type", fallibleOnly⟩)) <|>
  guarded (s.name = "header")
    (some ⟨here, "names `header`: the table's first field is its `header`"⟩) <|>
  guarded (known.any (·.name = s.name)) (some ⟨here, second s.name⟩) <|>
  guarded (object && s.name = "destroy")
    (some ⟨here, "names `destroy`, which an object kind's table holds before its slots"⟩)

/-- The slots from the `i`th on, behind those that are known. -/
def slotsFrom (object : Bool) : ℕ → List SlotDescription → List Value → Read (List SlotDescription)
  | _, slots, [] => .ok slots
  | i, slots, v :: rest => do
    let here := item (under at_ "slots") i
    let slot ← slot here v
    match refusal slots slot here object with
    | some e => .error e
    | none => slotsFrom object (i + 1) (slots ++ [slot]) rest

def slotsOf (object : Bool) : Read (List SlotDescription) := do
  let listed ← listAt map at_ "slots"
  if listed = [] then
    .error ⟨under at_ "slots",
      "is empty: a kind needs at least one slot, and an empty table serves nothing"⟩
  else slotsFrom at_ object 0 [] listed

def floorHash : Read UInt32 :=
  match get "floor_hash" map with
  | none => .error ⟨under at_ "floor_hash", "is missing"⟩
  | some v => ((IntType.u32.fromValue v).map fun z => UInt32.ofNat z.toNat).mapError fun _ =>
    ⟨under at_ "floor_hash", "is not a u32"⟩

def read (v : Value) : Read KindDescription := do
  let map ← mapAt at_ v
  let name ← text map at_ "name"
  let floorHash ← floorHash map at_
  let object ← flag map at_ "object" none
  let slots ← slotsOf map at_ object
  .ok ⟨name, floorHash, object, ← doc map at_, slots⟩

def fromValue (v : Value) : Read KindDescription := read "" v

def scalarName : Scalar → String
  | .bool => "bool"
  | .i8 => "i8"
  | .i16 => "i16"
  | .i32 => "i32"
  | .i64 => "i64"
  | .i128 => "i128"
  | .isize => "isize"
  | .u8 => "u8"
  | .u16 => "u16"
  | .u32 => "u32"
  | .u64 => "u64"
  | .u128 => "u128"
  | .usize => "usize"
  | .f32 => "f32"
  | .f64 => "f64"

def treeName : Tree → String
  | .value => "value"
  | .map => "map"
  | .list => "list"

def passName : Pass → String
  | .borrowed => "borrowed"
  | .taken => "taken"
  | .lent => "lent"

/-- Text behind the key, where there is any. -/
def putDoc (doc : Option String) (map : List Entry) : List Entry :=
  doc.elim map fun doc => set "doc" (.string doc) map

def argValue (a : ArgDescription) : Value :=
  let put key text := set key (Value.string text)
  let named := put "name" a.name []
  .map <| match a.ty with
    | .scalar scalar => put "type" (scalarName scalar) named
    | .str => put "type" "str" named
    | .bytes => put "type" "bytes" named
    | .bytesMut => put "type" "bytes_mut" named
    | .tree tree pass nullable =>
      let map := put "pass" (passName pass) (put "type" (treeName tree) named)
      if nullable then set "nullable" (.bool true) map else map
    | .object kind pass =>
      put "pass" (passName pass) (put "kind" kind (put "type" "object" named))

def answerValue : AnswerType → Value
  | .scalar scalar => .map (set "type" (.string (scalarName scalar)) [])
  | .text => .map (set "type" (.string "text") [])
  | .tree tree => .map (set "type" (.string (treeName tree)) [])
  | .object kind => .map (set "kind" (.string kind) (set "type" (.string "object") []))

def slotValue (s : SlotDescription) : Value :=
  let map := set "name" (.string s.name) []
  let map := set "required" (.bool s.required) map
  let map := set "fallible" (.bool s.fallible) map
  let map := set "args" (.list (s.args.map argValue)) map
  let map := s.answer.elim map fun answer => set "answer" (answerValue answer) map
  let map := if s.sensitive then set "sensitive" (.bool true) map else map
  .map (putDoc s.doc map)

/-- The kind as its description is written, by an allocator that has room. -/
def toValue (k : KindDescription) : Value :=
  let map := set "name" (.string k.name) []
  let map := set "floor_hash" (.number (.ofInt k.floorHash.toNat)) map
  let map := set "object" (.bool k.object) map
  .map (set "slots" (.list (k.slots.map slotValue)) (putDoc k.doc map))

theorem treeOf_name (tree : Tree) : treeOf (treeName tree) = some tree := by
  cases tree <;> rfl

theorem scalarNamed_treeName (tree : Tree) : scalarNamed (treeName tree) = none := by
  cases tree <;> rfl

variable {map : List Entry} {at_ : String}

theorem text_eq_ok {key s : String} :
    text map at_ key = .ok s ↔ get key map = some (.string s) ∧ s ≠ "" := by
  unfold text
  split <;> simp_all
  exact fun h => h ▸ ‹_›

/-- A nullable argument is a borrowed value, and an object that is passed is not borrowed. -/
def SoundType : ArgType → Prop
  | .tree tree pass nullable => nullable = true → tree = .value ∧ pass = .borrowed
  | .object kind pass => kind ≠ "" ∧ pass ≠ .borrowed
  | _ => True

def SoundAnswer : AnswerType → Prop
  | .object kind => kind ≠ ""
  | _ => True

def ArgDescription.Sound (a : ArgDescription) : Prop := a.name ≠ "" ∧ SoundType a.ty

def SlotDescription.Sound (s : SlotDescription) : Prop :=
  s.name ≠ "" ∧ (∀ a ∈ s.args, a.Sound) ∧ ∀ answer ∈ s.answer, SoundAnswer answer

theorem arg_sound {v : Value} {a : ArgDescription} (h : arg at_ v = .ok a) : a.Sound := by
  obtain ⟨map, -, h⟩ := bind_eq_ok h
  obtain ⟨name, hname, h⟩ := bind_eq_ok h
  obtain ⟨ty, -, h⟩ := bind_eq_ok h
  obtain ⟨nullable, -, h⟩ := bind_eq_ok h
  obtain ⟨type, htype, h⟩ := bind_eq_ok h
  obtain ⟨-, hname⟩ := text_eq_ok.mp hname
  split at h
  · cases h
  · cases h
    refine ⟨hname, ?_⟩
    unfold argType at htype
    split at htype
    · cases htype
      trivial
    · obtain ⟨pass, -, htype⟩ := bind_eq_ok htype
      split at htype
      · cases htype
      · next hallowed =>
        cases htype
        simpa [SoundType] using hallowed
    · split at htype
      · cases htype
        trivial
      · cases htype
        trivial
      · cases htype
        trivial
      · obtain ⟨kind, hkind, htype⟩ := bind_eq_ok htype
        obtain ⟨pass, -, htype⟩ := bind_eq_ok htype
        split at htype
        · cases htype
        · cases htype
          exact ⟨(text_eq_ok.mp hkind).2, ‹_›⟩
      · cases htype

theorem answer_sound {v : Value} {a : AnswerType} (h : answer at_ v = .ok a) : SoundAnswer a := by
  obtain ⟨map, -, h⟩ := bind_eq_ok h
  obtain ⟨ty, -, h⟩ := bind_eq_ok h
  split at h
  · cases h
    trivial
  · cases h
    trivial
  · split at h
    · cases h
      trivial
    · obtain ⟨kind, hkind, h⟩ := bind_eq_ok h
      cases h
      exact (text_eq_ok.mp hkind).2
    · cases h

theorem argsFrom_sound {i : ℕ} {vs : List Value} {args : List ArgDescription}
    (h : argsFrom at_ i vs = .ok args) : ∀ a ∈ args, a.Sound := by
  induction vs generalizing i args with
  | nil =>
    cases h
    exact nofun
  | cons v vs ih =>
    obtain ⟨first, hfirst, h⟩ := bind_eq_ok h
    obtain ⟨rest, hrest, h⟩ := bind_eq_ok h
    cases h
    exact List.forall_mem_cons.mpr ⟨arg_sound hfirst, ih hrest⟩

theorem slot_sound {v : Value} {s : SlotDescription} (h : slot at_ v = .ok s) : s.Sound := by
  obtain ⟨map, -, h⟩ := bind_eq_ok h
  obtain ⟨name, hname, h⟩ := bind_eq_ok h
  obtain ⟨required, -, h⟩ := bind_eq_ok h
  obtain ⟨fallible, -, h⟩ := bind_eq_ok h
  obtain ⟨items, -, h⟩ := bind_eq_ok h
  obtain ⟨args, hargs, h⟩ := bind_eq_ok h
  obtain ⟨answered, hanswer, h⟩ := bind_eq_ok h
  obtain ⟨sensitive, -, h⟩ := bind_eq_ok h
  obtain ⟨doc, -, h⟩ := bind_eq_ok h
  cases h
  refine ⟨(text_eq_ok.mp hname).2, argsFrom_sound hargs, fun a ha => ?_⟩
  cases ha
  unfold answered at hanswer
  split at hanswer
  · cases hanswer
  · obtain ⟨b, hb, hab⟩ := map_eq_ok.mp hanswer
    cases hab
    exact answer_sound hb

/-- A map that gives an argument's type, and is silent where the reader's default is the type's. -/
def SpellsType (map : List Entry) : ArgType → Prop
  | .scalar scalar => get "type" map = some (.string (scalarName scalar)) ∧ get "nullable" map = none
  | .str => get "type" map = some (.string "str") ∧ get "nullable" map = none
  | .bytes => get "type" map = some (.string "bytes") ∧ get "nullable" map = none
  | .bytesMut => get "type" map = some (.string "bytes_mut") ∧ get "nullable" map = none
  | .tree tree pass nullable =>
    get "type" map = some (.string (treeName tree)) ∧ get "pass" map = some (.string (passName pass)) ∧
      get "nullable" map = if nullable then some (.bool true) else none
  | .object kind pass =>
    get "type" map = some (.string "object") ∧ get "kind" map = some (.string kind) ∧
      get "pass" map = some (.string (passName pass)) ∧ get "nullable" map = none

def SpellsArg (a : ArgDescription) (v : Value) : Prop :=
  ∃ map, v = .map map ∧ get "name" map = some (.string a.name) ∧ SpellsType map a.ty

def SpellsAnswer (a : AnswerType) (v : Value) : Prop :=
  ∃ map, v = .map map ∧ match a with
    | .scalar scalar => get "type" map = some (.string (scalarName scalar))
    | .text => get "type" map = some (.string "text")
    | .tree tree => get "type" map = some (.string (treeName tree))
    | .object kind =>
      get "type" map = some (.string "object") ∧ get "kind" map = some (.string kind)

def SpellsSlot (s : SlotDescription) (v : Value) : Prop :=
  ∃ map args, v = .map map ∧ get "name" map = some (.string s.name) ∧
    get "required" map = some (.bool s.required) ∧ get "fallible" map = some (.bool s.fallible) ∧
    get "args" map = some (.list args) ∧ List.Forall₂ SpellsArg s.args args ∧
    Option.Rel SpellsAnswer s.answer (get "answer" map) ∧
    get "sensitive" map = (if s.sensitive then some (.bool true) else none) ∧
    get "doc" map = s.doc.map .string

/-- A value that gives every part of a kind in its place, what it leaves out being what the reader
takes for it. -/
def Spells (k : KindDescription) (v : Value) : Prop :=
  ∃ map slots, v = .map map ∧ get "name" map = some (.string k.name) ∧
    get "floor_hash" map = some (.number (.ofInt k.floorHash.toNat)) ∧
    get "object" map = some (.bool k.object) ∧ get "doc" map = k.doc.map .string ∧
    get "slots" map = some (.list slots) ∧ List.Forall₂ SpellsSlot k.slots slots

theorem spells_argValue (a : ArgDescription) : SpellsArg a (argValue a) := by
  obtain ⟨name, ty⟩ := a
  refine ⟨_, rfl, ?_⟩
  cases ty with
  | tree tree pass nullable => cases nullable <;> exact ⟨rfl, rfl, rfl, rfl⟩
  | object kind pass => exact ⟨rfl, rfl, rfl, rfl, rfl⟩
  | _ => exact ⟨rfl, rfl, rfl⟩

theorem spells_answerValue (a : AnswerType) : SpellsAnswer a (answerValue a) := by
  cases a with
  | object kind => exact ⟨_, rfl, rfl, rfl⟩
  | _ => exact ⟨_, rfl, rfl⟩

theorem spells_slotValue (s : SlotDescription) : SpellsSlot s (slotValue s) := by
  obtain ⟨name, required, fallible, args, answer, sensitive, doc⟩ := s
  refine ⟨_, args.map argValue, rfl, ?_⟩
  have hargs : List.Forall₂ SpellsArg args (args.map argValue) :=
    List.forall₂_map_right_iff.mpr (List.forall₂_same.mpr fun a _ => spells_argValue a)
  cases answer <;> cases sensitive <;> cases doc <;>
    refine ⟨rfl, rfl, rfl, rfl, hargs, ?_, rfl, rfl⟩ <;>
      first | exact .none | exact .some (spells_answerValue _)

theorem spells_toValue (k : KindDescription) : Spells k (toValue k) := by
  obtain ⟨name, floorHash, object, doc, slots⟩ := k
  refine ⟨_, slots.map slotValue, rfl, ?_⟩
  have hslots : List.Forall₂ SpellsSlot slots (slots.map slotValue) :=
    List.forall₂_map_right_iff.mpr (List.forall₂_same.mpr fun s _ => spells_slotValue s)
  cases doc <;> exact ⟨rfl, rfl, rfl, rfl, rfl, hslots⟩

theorem text_of_get {key s : String} (h : get key map = some (.string s)) (hs : s ≠ "") :
    text map at_ key = .ok s :=
  text_eq_ok.mpr ⟨h, hs⟩

theorem flag_of_get {key : String} {b : Bool} {default : Option Bool}
    (h : get key map = some (.bool b)) : flag map at_ key default = .ok b := by
  simp [flag, h]

theorem flag_of_mark {key : String} {b : Bool}
    (h : get key map = if b then some (.bool true) else none) :
    flag map at_ key (some false) = .ok b := by
  cases b <;> simp [flag, h]

theorem doc_of_get {text : Option String} (h : get "doc" map = text.map .string) :
    doc map at_ = .ok text := by
  cases text <;> simp [doc, h]

theorem listAt_of_get {key : String} {items : List Value} (h : get key map = some (.list items)) :
    listAt map at_ key = .ok items := by
  simp [listAt, h]

theorem passOf_of_get {pass : Pass} (h : get "pass" map = some (.string (passName pass))) :
    passOf map at_ = .ok pass := by
  rw [passOf, text_of_get h (by cases pass <;> decide)]
  cases pass <;> rfl

theorem argType_of_spells {ty : ArgType} (h : SpellsType map ty) (hsound : SoundType ty) :
    ∃ text nullable, get "type" map = some (.string text) ∧ text ≠ "" ∧
      (get "nullable" map = if nullable then some (.bool true) else none) ∧
      (∀ at_, argType map at_ text nullable = .ok ty) ∧ (nullable && !isTree ty) = false := by
  cases ty with
  | scalar scalar =>
    refine ⟨_, false, h.1, by cases scalar <;> decide, h.2, fun _ => ?_, rfl⟩
    cases scalar <;> rfl
  | str => exact ⟨_, false, h.1, by decide, h.2, fun _ => rfl, rfl⟩
  | bytes => exact ⟨_, false, h.1, by decide, h.2, fun _ => rfl, rfl⟩
  | bytesMut => exact ⟨_, false, h.1, by decide, h.2, fun _ => rfl, rfl⟩
  | tree tree pass nullable =>
    obtain ⟨hty, hpass, hnullable⟩ := h
    refine ⟨_, nullable, hty, by cases tree <;> decide, hnullable, fun _ => ?_, by simp [isTree]⟩
    simp only [argType, scalarNamed_treeName, treeOf_name, passOf_of_get hpass]
    exact if_neg (by simpa [SoundType] using hsound)
  | object kind pass =>
    obtain ⟨hty, hkind, hpass, hnullable⟩ := h
    refine ⟨_, false, hty, by decide, hnullable, fun at_ => ?_, rfl⟩
    change (text map at_ "kind" >>= _) = _
    rw [text_of_get hkind hsound.1]
    change (passOf map at_ >>= _) = _
    rw [passOf_of_get hpass]
    exact if_neg hsound.2

theorem arg_of_spells {a : ArgDescription} {v : Value} (h : SpellsArg a v) (hsound : a.Sound) :
    arg at_ v = .ok a := by
  obtain ⟨map, rfl, hname, hty⟩ := h
  obtain ⟨ty, nullable, hget, hty, hnullable, htype, hmark⟩ := argType_of_spells hty hsound.2
  simp only [arg, mapAt, text_of_get hname hsound.1, text_of_get hget hty, flag_of_mark hnullable, htype,
    hmark, bind, Except.bind]
  rfl

theorem answer_of_spells {a : AnswerType} {v : Value} (h : SpellsAnswer a v) (hsound : SoundAnswer a) :
    answer at_ v = .ok a := by
  obtain ⟨map, rfl, h⟩ := h
  change (text map at_ "type" >>= _) = _
  cases a with
  | scalar scalar =>
    rw [text_of_get h (by cases scalar <;> decide)]
    cases scalar <;> rfl
  | text =>
    rw [text_of_get h (by decide)]
    rfl
  | tree tree =>
    rw [text_of_get h (by cases tree <;> decide)]
    cases tree <;> rfl
  | object kind =>
    rw [text_of_get h.1 (by decide)]
    change (text map at_ "kind" >>= _) = _
    rw [text_of_get h.2 hsound]
    rfl

theorem argsFrom_of_spells {i : ℕ} {args : List ArgDescription} {vs : List Value}
    (h : List.Forall₂ SpellsArg args vs) (hsound : ∀ a ∈ args, a.Sound) :
    argsFrom at_ i vs = .ok args := by
  induction h generalizing i with
  | nil => rfl
  | cons hfirst _ ih =>
    obtain ⟨hsound, hrest⟩ := List.forall_mem_cons.mp hsound
    rw [argsFrom, arg_of_spells hfirst hsound, ih hrest]
    rfl

theorem answered_of_spells {a : Option AnswerType} (h : Option.Rel SpellsAnswer a (get "answer" map))
    (hsound : ∀ answer ∈ a, SoundAnswer answer) : answered map at_ = .ok a := by
  unfold answered
  cases a with
  | none => 
    cases hget : get "answer" map with
    | none => rfl
    | some v => rw [hget] at h; cases h
  | some a =>
    cases hget : get "answer" map with
    | none => rw [hget] at h; cases h
    | some v =>
      rw [hget] at h
      cases h with
      | some h => simp [answer_of_spells h (hsound a rfl)]

theorem slot_of_spells {s : SlotDescription} {v : Value} (h : SpellsSlot s v) (hsound : s.Sound) :
    slot at_ v = .ok s := by
  obtain ⟨map, args, rfl, hname, hrequired, hfallible, hlist, hargs, hanswer, hsensitive, hdoc⟩ := h
  simp only [slot, mapAt, text_of_get hname hsound.1, flag_of_get hrequired, flag_of_get hfallible,
    listAt_of_get hlist, argsFrom_of_spells hargs hsound.2.1, answered_of_spells hanswer hsound.2.2,
    flag_of_mark hsensitive, doc_of_get hdoc, bind, Except.bind]

theorem slotsFrom_of_spells {object : Bool} {i : ℕ} {known slots : List SlotDescription}
    {vs : List Value} (h : slotsFrom at_ object i known vs = .ok slots) :
    ∃ more, slots = known ++ more ∧ (more = [] → vs = []) ∧ ∀ ws, List.Forall₂ SpellsSlot more ws →
      slotsFrom at_ object i known ws = .ok slots := by
  induction vs generalizing i known with
  | nil =>
    cases h
    refine ⟨[], (List.append_nil _).symm, fun _ => rfl, fun ws hws => ?_⟩
    cases hws
    rfl
  | cons v vs ih =>
    obtain ⟨slot, hslot, h⟩ := bind_eq_ok h
    split at h
    · cases h
    · next hkept =>
      obtain ⟨more, hmore, -, hagain⟩ := ih h
      refine ⟨slot :: more, by simpa using hmore, nofun, fun ws hws => ?_⟩
      cases hws with
      | cons hfirst hrest =>
        rw [slotsFrom, slot_of_spells hfirst (slot_sound hslot)]
        simp only [bind, Except.bind, hkept]
        exact hagain _ hrest

theorem floorHash_of_get {n : UInt32} (h : get "floor_hash" map = some (.number (.ofInt n.toNat))) :
    floorHash map at_ = .ok n := by
  have hholds : IntType.u32.Holds n.toNat := ⟨by simp [IntType.least, IntType.signed],
    by have := n.toNat_lt; simp [IntType.most, IntType.signed, IntType.bits]; omega⟩
  have hplain : IntType.notWritten (toString (n.toNat : ℤ)) = false := by
    rw [IntType.notWritten, asBytes_toString, if_neg (by omega), List.nil_append, List.any_eq_false]
    intro b hb
    have hdigit := List.all_eq_true.mp (all_isDigit_repr _) b hb
    simp only [Bool.or_eq_true, beq_iff_eq]
    rintro ((rfl | rfl) | rfl) <;> cases hdigit
  have hread : IntType.u32.fromValue (.number (.ofInt n.toNat)) = .ok n.toNat := by
    change IntType.u32.ofText (toString (n.toNat : ℤ)) = _
    rw [IntType.ofText, hplain, IntType.parse_toString hholds]
    rfl
  simp [floorHash, h, hread]

/-- A description that is read is written as a value that gives every part of it and is read as it. -/
theorem fromValue_toValue {v : Value} {k : KindDescription} (h : fromValue v = .ok k) :
    fromValue (toValue k) = .ok k ∧ Spells k (toValue k) := by
  have hspells := spells_toValue k
  refine ⟨?_, hspells⟩
  obtain ⟨written, items, heq, hname, hhash, hobject, hdoc, hitems, hslots⟩ := hspells
  obtain ⟨map, -, h⟩ := bind_eq_ok h
  obtain ⟨name, htext, h⟩ := bind_eq_ok h
  obtain ⟨hash, -, h⟩ := bind_eq_ok h
  obtain ⟨object, -, h⟩ := bind_eq_ok h
  obtain ⟨slots, hread, h⟩ := bind_eq_ok h
  obtain ⟨doc, -, h⟩ := bind_eq_ok h
  cases h
  obtain ⟨listed, -, hread⟩ := bind_eq_ok hread
  split at hread
  · cases hread
  · next hne =>
    obtain ⟨_, rfl, hsome, hagain⟩ := slotsFrom_of_spells hread
    have hitems_ne : items ≠ [] := by
      rintro rfl
      exact hne (hsome (List.forall₂_nil_right_iff.mp hslots))
    rw [heq]
    simp only [fromValue, read, mapAt, text_of_get hname (text_eq_ok.mp htext).2,
      floorHash_of_get hhash, flag_of_get hobject, slotsOf, listAt_of_get hitems, if_neg hitems_ne,
      hagain items hslots, doc_of_get hdoc, bind, Except.bind]

/-- A kind of one slot, which takes a value that may be null. -/
theorem description_round_trip_greeter :
    fromValue (toValue ⟨"greeter", 7, false, none,
      [⟨"greet", true, true, [⟨"name", .tree .value .borrowed true⟩], some .text, false, none⟩]⟩) =
        .ok ⟨"greeter", 7, false, none,
          [⟨"greet", true, true, [⟨"name", .tree .value .borrowed true⟩], some .text, false, none⟩]⟩ :=
  (fromValue_toValue (v := .map [
    ("slots", .list [.map [("fallible", .bool true), ("name", .string "greet"),
      ("args", .list [.map [("name", .string "name"), ("type", .string "value"),
        ("pass", .string "borrowed"), ("nullable", .bool true)]]),
      ("required", .bool true), ("answer", .map [("type", .string "text")])]]),
    ("name", .string "greeter"), ("floor_hash", .number (.ofInt 7)), ("object", .bool false)]) rfl).1

end Guatiao.Library.Description
