import Guatiao.Lib.Widths
import Guatiao.Remote.Codec
import Guatiao.Wire.EncodeOf

/-!
# A call's arguments and a reply's answer

Both are typed by the slot's description: nothing on the wire repeats what both sides know. A last
text or bytes argument that is large is sent from where it lies, and a large tree answered likewise.
-/

namespace Guatiao.Remote

open Lib

/-- A scalar argument or answer, under its Rust name. -/
inductive Scalar
  | bool | i8 | i16 | i32 | i64 | i128 | isize | u8 | u16 | u32 | u64 | u128 | usize | f32 | f64
  deriving DecidableEq

/-- Which tree an argument or answer is. -/
inductive Tree
  | value | map | list
  deriving DecidableEq

/-- How a tree or an object argument crosses. -/
inductive Pass
  | borrowed | taken | lent
  deriving DecidableEq

/-- What one argument is. -/
inductive ArgType
  | scalar (s : Scalar)
  | str
  | bytes
  /-- The caller's bytes to write into. -/
  | bytesMut
  | tree (tree : Tree) (pass : Pass) (nullable : Bool)
  | object (kind : String) (pass : Pass)
  deriving DecidableEq

/-- What a slot answers. -/
inductive AnswerType
  | scalar (s : Scalar)
  | text
  | tree (tree : Tree)
  | object (kind : String)
  deriving DecidableEq

/-- A slot, as far as a call of it crosses: its arguments' types and its answer's. -/
structure SlotDescription where
  args : List ArgType
  answer : Option AnswerType

/-- An object argument or answer as it crosses: whose numbering its id is in. -/
inductive ObjectRef
  /-- An object the sender holds. -/
  | senders (id : UInt64)
  /-- An object of the receiver's own, passed back. -/
  | receivers (id : UInt64)
  deriving DecidableEq

def ObjectRef.code : ObjectRef → UInt64
  | .senders id => id <<< 1
  | .receivers id => id <<< 1 ||| 1

def ObjectRef.fromCode (code : UInt64) : ObjectRef :=
  if code &&& 1 = 0 then .senders (code >>> 1) else .receivers (code >>> 1)

/-- One argument a caller passes. Integers and are widened, given by their bits. -/
inductive Arg (O : Type)
  | bool (b : Bool)
  | int (n : Int64)
  | uint (n : UInt64)
  | float (f : UInt64)
  | str (text : String)
  | bytes (data : List UInt8)
  /-- The caller's buffer, to write into. -/
  | buffer (data : List UInt8)
  | value (v : Option Value)
  | map (entries : List Entry)
  | list (items : List Value)
  | takenValue (v : Value)
  | takenMap (entries : List Entry)
  | takenList (items : List Value)
  | lentValue (v : Value)
  | lentMap (entries : List Entry)
  | lentList (items : List Value)
  | object (o : O)
  | lentObject (o : O)

/-- An argument as the receiver read it. -/
inductive Decoded
  | bool (b : Bool)
  | int (n : Int64)
  | uint (n : UInt64)
  | float (f : UInt64)
  | str (text : String)
  | bytes (data : List UInt8)
  /-- The caller's buffer to write into, as long as it was. -/
  | buffer (data : List UInt8)
  /-- A value; none for a nullable one that was absent. -/
  | value (v : Option Value)
  | map (entries : List Entry)
  | list (items : List Value)
  | object (ref : ObjectRef)

/-- What a slot answers. -/
inductive Answer (O : Type)
  | nothing
  | bool (b : Bool)
  | int (n : Int64)
  | uint (n : UInt64)
  | float (f : UInt64)
  | text (text : String)
  | value (v : Value)
  | map (entries : List Entry)
  | list (items : List Value)
  | object (o : O)

/-- The largest out-buffer a caller may ask a callee to fill. -/
def MAX_BUFFER : ℕ := 64 <<< 20

/-- The size from which a last text or bytes argument, or a tree answered, is sent from where it
lies. -/
def TAIL : ℕ := 64 <<< 10

def mismatch (i : ℕ) (what : String) : ProtocolError :=
  .value s!"argument {i} is not {what}, which the slot takes"

/-- An integer as a scalar's type holds it, where it does. -/
def putScalarInt (s : Scalar) (n : ℤ) : Option (List UInt8) :=
  match s with
  | .i8 | .i16 | .i32 | .i64 | .isize =>
    if -2 ^ 63 ≤ n ∧ n < 2 ^ 63 then some (putInt (.ofInt n)) else none
  | .u8 | .u16 | .u32 | .u64 | .usize =>
    if 0 ≤ n ∧ n < 2 ^ 64 then some (putUint (.ofNat n.toNat)) else none
  | _ => none

variable (seeds : Wire.Seeded) {O : Type}

def putScalarFloat (s : Scalar) (f : UInt64) : Option (List UInt8) :=
  match s with
  | .f32 => some (leBytes 4 (narrow f).toNat)
  | .f64 => some (leBytes 8 f.toNat)
  | _ => none

/-- A map, a list or anything else that walks, with no length before it. -/
def putWalkBare (out : List UInt8) (v : Value) : Except ProtocolError (List UInt8) :=
  match Wire.encodeOf seeds v out with
  | .ok out => .ok out
  | .error e => .error (.value e.words)

/-- A map, a list or anything else that walks, behind its length. -/
def putWalk (out : List UInt8) (v : Value) : Except ProtocolError (List UInt8) := do
  let written ← putWalkBare seeds out v
  .ok (behindLength written out.length)

def typeName : ArgType → String
  | .scalar _ => "a scalar of the slot's type"
  | .str => "text"
  | .bytes => "bytes"
  | .bytesMut => "a buffer"
  | .tree .. => "a tree"
  | .object .. => "an object"

/-- Appends what an argument's type holds of it, where it does. -/
def orMismatch (i : ℕ) (ty : ArgType) (out : List UInt8) :
    Option (List UInt8) → Except ProtocolError (List UInt8)
  | some bytes => .ok (out ++ bytes)
  | none => .error (mismatch i (typeName ty))

/-- Appends one argument, at its position, as its type says; `ref` is the reference the caller gave
an object there. -/
def putArg (i : ℕ) (ty : ArgType) (arg : Arg O) (ref : Option ObjectRef) (out : List UInt8) :
    Except ProtocolError (List UInt8) :=
  match ty, arg with
  | .scalar .bool, .bool b => .ok (out ++ [if b then 1 else 0])
  | .scalar s, .int n => orMismatch i (.scalar s) out (putScalarInt s n.toInt)
  | .scalar s, .uint n => orMismatch i (.scalar s) out (putScalarInt s n.toNat)
  | .scalar s, .float f => orMismatch i (.scalar s) out (putScalarFloat s f)
  | .str, .str text => .ok (putText out text)
  | .bytes, .bytes data => .ok (putBytes out data)
  | .bytesMut, .buffer data => .ok (out ++ putUint (.ofNat data.length))
  | .tree .., .value none => .ok (putValue out .absent)
  | .tree .., .value (some v) => .ok (putValue out v)
  | .tree .., .takenValue v => .ok (putValue out v)
  | .tree .., .lentValue v => .ok (putValue out v)
  | .tree .., .map entries => putWalk seeds out (.map entries)
  | .tree .., .takenMap entries => putWalk seeds out (.map entries)
  | .tree .., .lentMap entries => putWalk seeds out (.map entries)
  | .tree .., .list items => putWalk seeds out (.list items)
  | .tree .., .takenList items => putWalk seeds out (.list items)
  | .tree .., .lentList items => putWalk seeds out (.list items)
  | .object .., _ =>
    match ref with
    | some r => .ok (out ++ putUint r.code)
    | none => .error (mismatch i "an object")
  | _, _ => .error (mismatch i (typeName ty))

/-- The loop over the arguments and the types they are matched with. -/
def putArgs (refs : List (Option ObjectRef)) :
    ℕ → List (Arg O × ArgType) → List UInt8 → Except ProtocolError (List UInt8)
  | _, [], out => .ok out
  | i, (arg, ty) :: rest, out => do
    let out ← putArg seeds i ty arg refs[i]?.join out
    putArgs refs (i + 1) rest out

def sameCount (slot : SlotDescription) (args : List (Arg O)) : Except ProtocolError Unit :=
  if args.length ≠ slot.args.length then
    .error (.value s!"{args.length} arguments for a slot that takes {slot.args.length}")
  else .ok ()

/-- Appends the arguments as the slot types them. -/
def encodeArgs (slot : SlotDescription) (args : List (Arg O)) (refs : List (Option ObjectRef))
    (out : List UInt8) : Except ProtocolError (List UInt8) := do
  sameCount slot args
  putArgs seeds refs 0 (args.zip slot.args) out

/-- The bytes of a last argument that is text or bytes and large. -/
def tailOf (slot : SlotDescription) (args : List (Arg O)) : Option (List UInt8) :=
  match slot.args.getLast?, args.getLast? with
  | some .str, some (.str text) => if TAIL ≤ (asBytes text).length then some (asBytes text) else none
  | some .bytes, some (.bytes data) => if TAIL ≤ data.length then some data else none
  | _, _ => none

/-- Appends the arguments, but leaves out a large last one after its length: the bytes to send from
where they lie, and what was written. -/
def encodeArgsTail (slot : SlotDescription) (args : List (Arg O)) (refs : List (Option ObjectRef))
    (out : List UInt8) : Except ProtocolError (Option (List UInt8) × List UInt8) := do
  sameCount slot args
  match tailOf slot args with
  | none => do
    let out ← putArgs seeds refs 0 (args.zip slot.args) out
    .ok (none, out)
  | some tail => do
    let out ← putArgs seeds refs 0 (args.dropLast.zip slot.args) out
    .ok (some tail, out ++ putUint (.ofNat tail.length))

/-- Whether an argument of a type is written back after the answer. -/
def writtenBack : ArgType → Bool
  | .bytesMut => true
  | .tree _ .lent _ => true
  | _ => false

/-- Appends what a call wrote into its lent trees and buffers, in order. -/
def encodeWritebacks : ℕ → List (ArgType × Decoded) → List UInt8 → Except ProtocolError (List UInt8)
  | _, [], out => .ok out
  | i, (ty, arg) :: rest, out =>
    if writtenBack ty then do
      let out ← match arg with
        | .value (some v) => .ok (putValue out v)
        | .map entries => putWalk seeds out (.map entries)
        | .list items => putWalk seeds out (.list items)
        | .buffer data => .ok (putBytes out data)
        | _ => .error (mismatch i "a tree or buffer to write back")
      encodeWritebacks (i + 1) rest out
    else encodeWritebacks (i + 1) rest out

def wrongAnswer (what : String) : ProtocolError := .value s!"the callee answered {what}"

/-- Appends what a slot's answer holds of what was answered, where it does. -/
def orWrong (out : List UInt8) : Option (List UInt8) → Except ProtocolError (List UInt8)
  | some bytes => .ok (out ++ bytes)
  | none => .error (wrongAnswer "something its slot does not")

/-- Appends a slot's answer. An object answered is registered by `exported`, which gives its
reference. -/
def encodeAnswer (slot : SlotDescription) (answer : Answer O) (out : List UInt8)
    (exported : O → ObjectRef) : Except ProtocolError (List UInt8) :=
  match slot.answer, answer with
  | none, .nothing => .ok out
  | none, _ => .error (wrongAnswer "something for a slot that answers nothing")
  | some (.scalar .bool), .bool b => .ok (out ++ [if b then 1 else 0])
  | some (.scalar s), .int n => orWrong out (putScalarInt s n.toInt)
  | some (.scalar s), .uint n => orWrong out (putScalarInt s n.toNat)
  | some (.scalar s), .float f => orWrong out (putScalarFloat s f)
  | some .text, .text text => .ok (putText out text)
  | some (.tree _), .value v => .ok (putValue out v)
  | some (.tree _), .map entries => putWalk seeds out (.map entries)
  | some (.tree _), .list items => putWalk seeds out (.list items)
  | some (.object _), .object o => .ok (out ++ putUint (exported o).code)
  | some _, _ => .error (wrongAnswer "something its slot does not")

/-- Appends a slot's answer, but leaves a large tree, for a slot that writes nothing back, behind
what was written without its length: where it starts, and what was written. -/
def encodeAnswerTail (slot : SlotDescription) (answer : Answer O) (out : List UInt8)
    (exported : O → ObjectRef) : Except ProtocolError (Option ℕ × List UInt8) :=
  let whole : Except ProtocolError (Option ℕ × List UInt8) := do
    let out ← encodeAnswer seeds slot answer out exported
    .ok (none, out)
  let bare (written : List UInt8) : Option ℕ × List UInt8 :=
    if TAIL ≤ written.length - out.length then (some out.length, written)
    else (none, behindLength written out.length)
  match slot.answer with
  | some (.tree _) =>
    if slot.args.any writtenBack then whole
    else
      match answer with
      | .value v => .ok (bare (Wire.encode v out))
      | .map entries => (putWalkBare seeds out (.map entries)).map bare
      | .list items => (putWalkBare seeds out (.list items)).map bare
      | _ => whole
  | _ => whole

namespace Reader

def float32 : Field UInt32 := fun r => (fixed 4 r).map fun p => (.ofNat (leNat p.1.toList), p.2)

def float64 : Field UInt64 := fun r => (fixed 8 r).map fun p => (.ofNat (leNat p.1.toList), p.2)

def scalar (s : Scalar) : Field Decoded := fun r =>
  match s with
  | .bool => do
    let (b, r') ← byte r
    if b = 0 then .ok (.bool false, r')
    else if b = 1 then .ok (.bool true, r')
    else .error (.field r.pos "a bool")
  | .i8 | .i16 | .i32 | .i64 | .isize => (int r).map fun p => (.int p.1, p.2)
  | .u8 | .u16 | .u32 | .u64 | .usize => (uint r).map fun p => (.uint p.1, p.2)
  | .f32 => (float32 r).map fun p => (.float (widen p.1), p.2)
  | .f64 => (float64 r).map fun p => (.float p.1, p.2)
  | .i128 | .u128 => .error (.field r.pos "a scalar these tables carry")

end Reader

/-- A value as the tree it is read as. -/
def treeOf (tree : Tree) (nullable : Bool) (v : Value) (offset : ℕ) : Except ProtocolError Decoded :=
  match tree, v with
  | .map, .map entries => .ok (.map entries)
  | .map, _ => .error (.field offset "a map")
  | .list, .list items => .ok (.list items)
  | .list, _ => .error (.field offset "a list")
  | .value, .absent => .ok (.value (if nullable then none else some .absent))
  | .value, v => .ok (.value (some v))

/-- Reads one argument as its type says. -/
def getArg (ty : ArgType) : Field Decoded := fun r =>
  match ty with
  | .scalar s => Reader.scalar s r
  | .str => (Reader.text r).map fun p => (.str p.1, p.2)
  | .bytes => (Reader.bytes r).map fun p => (.bytes p.1, p.2)
  | .bytesMut => do
    let (n, r') ← Reader.uint r
    if n.toNat ≤ MAX_BUFFER then .ok (.buffer (List.replicate n.toNat 0), r')
    else .error (.field r.pos "a buffer length within the link's limit")
  | .tree tree _ nullable => do
    let (v, r') ← Reader.value seeds r
    let decoded ← treeOf tree nullable v r.pos
    .ok (decoded, r')
  | .object .. => (Reader.uint r).map fun p => (.object (.fromCode p.1), p.2)

/-- The loop over the arguments' types. -/
def getArgs : List ArgType → Field (List Decoded)
  | [], r => .ok ([], r)
  | ty :: rest, r => do
    let (arg, r) ← getArg seeds ty r
    let (args, r) ← getArgs rest r
    .ok (arg :: args, r)

/-- Reads a CALL's arguments as the slot types them. -/
def decodeArgs (slot : SlotDescription) (bytes : List UInt8) : Except ProtocolError (List Decoded) := do
  let (args, r) ← getArgs seeds slot.args (.start bytes)
  Reader.finish r
  .ok args

/-- A scalar or a tree, as an answer. -/
def Decoded.answer : Decoded → Answer O
  | .bool b => .bool b
  | .int n => .int n
  | .uint n => .uint n
  | .float f => .float f
  | .map entries => .map entries
  | .list items => .list items
  | .value v => .value (v.getD .absent)
  -- A scalar reads as a scalar, and a tree as a tree.
  | _ => .nothing

/-- Reads a slot's answer. An object answered is turned into the caller's handle by `object`. -/
def getAnswer (object : String → ObjectRef → Except ProtocolError O) (ty : Option AnswerType)
    (r : Reader) : Except ProtocolError (Answer O × Reader) :=
  match ty with
  | none => .ok (.nothing, r)
  | some (.scalar s) => (Reader.scalar s r).map fun p => (p.1.answer, p.2)
  | some .text => (Reader.text r).map fun p => (.text p.1, p.2)
  | some (.tree tree) => do
    let (v, r') ← Reader.value seeds r
    let decoded ← treeOf tree false v r.pos
    .ok (decoded.answer, r')
  | some (.object kind) => do
    let (code, r) ← Reader.uint r
    let o ← object kind (.fromCode code)
    .ok (.object o, r)

/-- Writes what the callee wrote back into one of the caller's arguments. -/
def getWriteback (ty : ArgType) (arg : Arg O) (r : Reader) :
    Except ProtocolError (Arg O × Reader) :=
  match ty, arg with
  | .tree _ .lent _, .lentValue _ => (Reader.value seeds r).map fun p => (.lentValue p.1, p.2)
  | .tree _ .lent _, .lentMap _ => do
    let (v, r') ← Reader.value seeds r
    match v with
    | .map entries => .ok (.lentMap entries, r')
    | _ => .error (.field r.pos "the lent map written back")
  | .tree _ .lent _, .lentList _ => do
    let (v, r') ← Reader.value seeds r
    match v with
    | .list items => .ok (.lentList items, r')
    | _ => .error (.field r.pos "the lent list written back")
  | .bytesMut, .buffer data => do
    let (written, r) ← Reader.bytes r
    let n := min written.length data.length
    .ok (.buffer (written.take n ++ data.drop n), r)
  | _, arg => .ok (arg, r)

/-- The loop over the caller's arguments. -/
def getWritebacks : List ArgType → List (Arg O) → Reader → Except ProtocolError (List (Arg O) × Reader)
  | ty :: types, arg :: args, r => do
    let (arg, r) ← getWriteback seeds ty arg r
    let (args, r) ← getWritebacks types args r
    .ok (arg :: args, r)
  | _, args, r => .ok (args, r)

/-- Reads a REPLY's answer, then writes what the callee wrote back into the caller's lent trees and
buffers. -/
def decodeAnswer (slot : SlotDescription) (body : List UInt8) (args : List (Arg O))
    (object : String → ObjectRef → Except ProtocolError O) :
    Except ProtocolError (Answer O × List (Arg O)) := do
  let (answer, r) ← getAnswer seeds object slot.answer (.start body)
  let (args, r) ← getWritebacks seeds slot.args args r
  Reader.finish r
  .ok (answer, args)

end Guatiao.Remote
