import Guatiao.Lib.Results
import Guatiao.Remote.Args
import Guatiao.Value.Convert

/-!
# Kinds described, and what crosses their slots

A tree is named by the block that holds it, so that it can be said who owns it; the copy of a tree
is another block. An object is its table, size and `ctx`. A float is given by its bits, and its
arithmetic is a parameter.
-/

namespace Guatiao.Table

open Remote (Scalar Tree Pass ArgType AnswerType)

/-- A status: any code is one. -/
structure Status where
  code : UInt32
  deriving DecidableEq

namespace Status

def ok : Status := ⟨0⟩
def badValue : Status := ⟨7⟩
def alloc : Status := ⟨8⟩
def wrongKind : Status := ⟨9⟩
def notFound : Status := ⟨10⟩
def null : Status := ⟨11⟩
def unsupported : Status := ⟨13⟩
def internal : Status := ⟨100⟩

end Status

/-- Why a call across a kind failed, as a provider states it. -/
structure ProviderError where
  status : Status
  message : String
  deriving DecidableEq

def ProviderError.ofStatus (status : Status) : ProviderError := ⟨status, ""⟩

/-- The error a shim's out-pointer holds before it is written. -/
def ProviderError.none : ProviderError := ⟨.ok, ""⟩

/-- Why storage or content was refused, as an error: it never says it succeeded. -/
structure Refusal where
  error : ProviderError
  failed : error.status ≠ .ok

/-- An allocator: this side's own, its wiping one, or another. -/
inductive Alloc
  | rust | wiping | other (n : ℕ)
  deriving DecidableEq

/-- The storage of a tree: one somebody made, a copy made of another, or a node built for an answer
that was no tree. -/
inductive Block
  | own (n : ℕ)
  | copy (of : Block)
  | built
  deriving DecidableEq

/-- A tree held in memory: its storage, the allocators its parts record, whether every key of its
own is text, and what it holds. -/
structure Node (α : Type) where
  block : Block
  allocs : List Alloc
  keysAreText : Bool
  held : α

/-- A map's entries. -/
abbrev Entries := List Entry

/-- The allocator the tree records, or this side's own. -/
def Node.home {α : Type} (n : Node α) : Alloc := n.allocs.headD .rust

/-- `Value::from`: the node takes over the container's storage. -/
def Node.value {α : Type} (wrap : α → Value) (n : Node α) : Node Value :=
  { n with held := wrap n.held }

/-- `Map::try_from`: a map whose keys are text. -/
def Node.map? (n : Node Value) : Option (Node Entries) :=
  if n.keysAreText then n.held.asMap.map fun entries => { n with held := entries } else none

/-- `List::try_from`. -/
def Node.list? (n : Node Value) : Option (Node (List Value)) :=
  n.held.asList.map fun items => { n with held := items }

/-- An object handed through a slot: its table, size and `ctx`. -/
structure ObjectRaw where
  table : ℕ
  size : ℕ
  ctx : ℕ
  deriving DecidableEq

def ObjectRaw.null : ObjectRaw := ⟨0, 0, 0⟩

/-- What has one owner at a time. -/
inductive Owned
  | tree (b : Block)
  | object (o : ObjectRaw)
  deriving DecidableEq

/-- What a description says of an argument's type that its reader checks. -/
def ArgTypeOk : ArgType → Prop
  | .tree tree pass nullable => nullable = true → tree = .value ∧ pass = .borrowed
  | .object _ pass => pass ≠ .borrowed
  | _ => True

/-- One slot, in table order, as the reader of a description takes it. -/
structure SlotDescription where
  name : String
  required : Bool
  fallible : Bool
  args : List ArgType
  answer : Option AnswerType
  sensitive : Bool
  /-- A null is for a borrowed value, and an object is taken or lent. -/
  wellFormed : ∀ ty ∈ args, ArgTypeOk ty

/-- A kind, described. -/
structure KindDescription where
  name : String
  floorHash : UInt32
  /-- Whether it is an object kind: `destroy` stands first in its table. -/
  object : Bool
  slots : List SlotDescription

/-- `sizeof` a table's header, and of a pointer. -/
def headerSize : ℕ := 8

def pointerSize : ℕ := 8

namespace KindDescription

/-- Where a slot sits in the table, in words after the header. -/
def wordOf (kind : KindDescription) (index : ℕ) : ℕ := index + kind.object.toNat

/-- `sizeof` the whole table. -/
def size (kind : KindDescription) : ℕ :=
  headerSize + (kind.slots.length + kind.object.toNat) * pointerSize

/-- The smallest table a caller accepts. -/
def floor (kind : KindDescription) : ℕ := kind.size

end KindDescription

/-- The integer type of a scalar that is one. -/
def intType? : Scalar → Option IntType
  | .i8 => some .i8
  | .i16 => some .i16
  | .i32 => some .i32
  | .i64 => some .i64
  | .isize => some .isize
  | .u8 => some .u8
  | .u16 => some .u16
  | .u32 => some .u32
  | .u64 => some .u64
  | .usize => some .usize
  | _ => none

def scalarName : Scalar → String
  | .bool => "bool"
  | .i8 => "i8"
  | .i16 => "i16"
  | .i32 => "i32"
  | .i64 => "i64"
  | .i128 => "i128"
  | .isize => "isize"
  | .u8 => "u8"
  | .u16 => "u16"
  | .u32 => "u32"
  | .u64 => "u64"
  | .u128 => "u128"
  | .usize => "usize"
  | .f32 => "f32"
  | .f64 => "f64"

/-- One argument a caller passes or a handler receives. -/
inductive Arg
  | bool (b : Bool)
  | int (n : ℤ)
  | uint (n : ℕ)
  | float (bits : UInt64)
  | str (text : String)
  | bytes (data : List UInt8)
  /-- The caller's bytes, to write into. -/
  | buffer (data : List UInt8)
  | value (v : Option (Node Value))
  | map (m : Node Entries)
  | list (l : Node (List Value))
  | takenValue (v : Node Value)
  | takenMap (m : Node Entries)
  | takenList (l : Node (List Value))
  | lentValue (v : Node Value)
  | lentMap (m : Node Entries)
  | lentList (l : Node (List Value))
  | object (o : ObjectRaw)
  | lentObject (o : ObjectRaw)

/-- What an argument hands over. -/
def Arg.handed : Arg → List Owned
  | .takenValue v => [.tree v.block]
  | .takenMap m => [.tree m.block]
  | .takenList l => [.tree l.block]
  | .object o => [.object o]
  | _ => []

/-- What a slot's handler answers, or what a caller got back. -/
inductive Answer
  | nothing
  | bool (b : Bool)
  | int (n : ℤ)
  | uint (n : ℕ)
  | float (bits : UInt64)
  | text (text : String)
  | value (v : Node Value)
  | map (m : Node Entries)
  | list (l : Node (List Value))
  | object (o : ObjectRaw)

namespace Answer

def what : Answer → String
  | .nothing => "nothing"
  | .bool _ => "a bool"
  | .int _ => "an integer"
  | .uint _ => "an unsigned integer"
  | .float _ => "a float"
  | .text _ => "text"
  | .value _ => "a value"
  | .map _ => "a map"
  | .list _ => "a list"
  | .object _ => "an object"

/-- What an answer hands over. -/
def handed : Answer → List Owned
  | .value v => [.tree v.block]
  | .map m => [.tree m.block]
  | .list l => [.tree l.block]
  | .object o => [.object o]
  | _ => []

end Answer

/-- What is done in a call that its owner could tell. -/
inductive Event
  /-- The handler is called. -/
  | served (ctx slot : ℕ) (args : List Arg)
  /-- Storage is made. -/
  | made (b : Block)
  /-- A tree is freed, or an object destroyed. -/
  | released (o : Owned)

/-- What a handler comes to. -/
inductive Outcome
  | answered (r : Except ProviderError Answer)
  | panicked

/-- How moving what a lent tree was left with into its home goes, and whether a key of its own that
is not text was written into it. -/
structure Left where
  moved : Except Refusal Unit
  badKey : Bool

/-- The arithmetic of floats, on their bits. -/
structure Floats where
  ofInt : ℤ → UInt64
  narrow : UInt64 → UInt32
  widen : UInt32 → UInt64
  toNumber : UInt64 → Except Refusal Number
  fromValue : Value → Option UInt64

/-- What a call meets: the handler, what it leaves in each lent tree, and the allocators. -/
structure World where
  floats : Floats
  call : ℕ → ℕ → List Arg → Outcome
  left : ℕ → Left
  /-- Why an allocator refuses the copy of a tree, where it does. -/
  refuses : Block → Alloc → Option Refusal
  /-- Whether this side's allocator takes an error's message. -/
  movesMessage : Bool

end Guatiao.Table
