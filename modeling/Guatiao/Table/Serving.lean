import Guatiao.Table.Slots

/-!
# The served side of a run-time table

A call's arguments arrive as cells, read by the position the slot's description gives them. A read
of a cell as what it does not hold is undefined, and the whole call with it. Arguments handed over
are read before anything else, so that a refusal releases them.
-/

namespace Guatiao.Table

open Remote (Scalar Tree Pass ArgType AnswerType)

/-- What a pointer addresses. -/
inductive Pointer
  | null
  /-- Nothing that is read: a `ctx`. -/
  | address (n : ℕ)
  | value (v : Node Value)
  | map (m : Node Entries)
  | list (l : Node (List Value))
  | object (o : ObjectRaw)
  /-- The out slot, and the allocator a carrier there records. -/
  | out (carried : Option Alloc)
  | err

/-- One argument's storage for a call. -/
inductive Cell
  | int (t : IntType) (n : ℤ)
  | f32 (bits : UInt32)
  | f64 (bits : UInt64)
  | str (data : List UInt8)
  | bytes (data : List UInt8)
  | bytesMut (data : List UInt8)
  | ptr (p : Pointer)
  | object (o : ObjectRaw)

namespace Cell

def int? (t : IntType) : Cell → Option ℤ
  | .int t' n => if t' = t then some n else none
  | _ => none

def f32? : Cell → Option UInt32
  | .f32 bits => some bits
  | _ => none

def f64? : Cell → Option UInt64
  | .f64 bits => some bits
  | _ => none

def str? : Cell → Option (List UInt8)
  | .str data => some data
  | _ => none

def bytes? : Cell → Option (List UInt8)
  | .bytes data => some data
  | _ => none

def bytesMut? : Cell → Option (List UInt8)
  | .bytesMut data => some data
  | _ => none

def ptr? : Cell → Option Pointer
  | .ptr p => some p
  | _ => none

def object? : Cell → Option ObjectRaw
  | .object o => some o
  | _ => none

end Cell

namespace Pointer

/-- The value addressed, if one is; undefined where the pointer addresses something else. -/
def value? : Pointer → Option (Option (Node Value))
  | .null => some none
  | .value v => some (some v)
  | _ => none

def map? : Pointer → Option (Option (Node Entries))
  | .null => some none
  | .map m => some (some m)
  | _ => none

def list? : Pointer → Option (Option (Node (List Value)))
  | .null => some none
  | .list l => some (some l)
  | _ => none

def object? : Pointer → Option (Option ObjectRaw)
  | .null => some none
  | .object o => some (some o)
  | _ => none

def address? : Pointer → Option ℕ
  | .null => some 0
  | .address n => some n
  | _ => none

/-- The out slot addressed, and what its carrier records. -/
def out? : Pointer → Option (Option (Option Alloc))
  | .null => some none
  | .out carried => some (some carried)
  | _ => none

/-- Whether there is an error slot. -/
def err? : Pointer → Option Bool
  | .null => some false
  | .err => some true
  | _ => none

end Pointer

/-- A tree that must be there. -/
def present {α : Type} : Option α → Except ProviderError α
  | none => .error (.ofStatus .null)
  | some tree => .ok tree

/-- A map that must be there, its keys checked. -/
def presentMap : Option (Node Entries) → Except ProviderError (Node Entries)
  | none => .error (.ofStatus .null)
  | some m => if m.keysAreText then .ok m else .error (.ofStatus .badValue)

/-- One argument as its description says; undefined where the cell holds something else. -/
def readArg (floats : Floats) (ty : ArgType) (cell : Cell) : Option (Except ProviderError Arg) :=
  match ty with
  | .scalar .bool => (cell.int? .u8).map fun n => .ok (.bool (n ≠ 0))
  | .scalar .f32 => cell.f32?.map fun bits => .ok (.float (floats.widen bits))
  | .scalar .f64 => cell.f64?.map fun bits => .ok (.float bits)
  | .scalar s =>
    match intType? s with
    | some t => (cell.int? t).map fun n => .ok (if t.signed then .int n else .uint n.toNat)
    | none => some (.error (.ofStatus .unsupported))
  | .str =>
    cell.str?.map fun data =>
      match fromUtf8 data with
      | some text => .ok (.str text)
      | none => .error ⟨.badValue, "an argument is not UTF-8"⟩
  | .bytes => cell.bytes?.map fun data => .ok (.bytes data)
  | .bytesMut => cell.bytesMut?.map fun data => .ok (.buffer data)
  | .tree .value .borrowed true =>
    (cell.ptr?.bind Pointer.value?).map fun v => .ok (.value v)
  | .tree .value .borrowed false =>
    (cell.ptr?.bind Pointer.value?).map fun v => (present v).map fun v => .value (some v)
  | .tree .map .borrowed _ => (cell.ptr?.bind Pointer.map?).map fun m => (presentMap m).map .map
  | .tree .list .borrowed _ => (cell.ptr?.bind Pointer.list?).map fun l => (present l).map .list
  | .tree .value .lent _ => (cell.ptr?.bind Pointer.value?).map fun v => (present v).map .lentValue
  | .tree .map .lent _ => (cell.ptr?.bind Pointer.map?).map fun m => (presentMap m).map .lentMap
  | .tree .list .lent _ => (cell.ptr?.bind Pointer.list?).map fun l => (present l).map .lentList
  -- Taken trees were read before anything else.
  | .tree _ .taken _ => some (.error (.ofStatus .internal))
  | .object _ .lent =>
    (cell.ptr?.bind Pointer.object?).map fun o =>
      match o with
      | some o => .ok (.lentObject o)
      | none => .error ⟨.null, "no object was lent"⟩
  | .object _ _ => some (.error (.ofStatus .internal))

/-- Whether an argument is handed over: read before anything else, so an early refusal frees it. -/
def isTaken : ArgType → Bool
  | .tree _ .taken _ => true
  | .object _ .taken => true
  | _ => false

/-- Takes ownership of a handed-over argument. A map its keys refuse is freed here. -/
def takeArg (ty : ArgType) (cell : Cell) : Option (Except ProviderError Arg × List Event) :=
  match ty with
  | .tree .value _ _ =>
    (cell.ptr?.bind Pointer.value?).map fun v => ((present v).map .takenValue, [])
  | .tree .map _ _ =>
    (cell.ptr?.bind Pointer.map?).map fun m =>
      match m with
      | none => (.error (.ofStatus .null), [])
      | some m =>
        if m.keysAreText then (.ok (.takenMap m), [])
        else (.error (.ofStatus .badValue), [.released (.tree m.block)])
  | .tree .list _ _ =>
    (cell.ptr?.bind Pointer.list?).map fun l => ((present l).map .takenList, [])
  | _ => cell.object?.map fun o => (.ok (.object o), [])

/-- The arguments handed over, each at its position, and the first refusal of one. -/
structure Taken where
  taken : List (Option Arg)
  refused : Option ProviderError
  events : List Event

/-- The loop that takes what is handed over. -/
def takeAll : List (ArgType × Cell) → Option Taken
  | [] => some ⟨[], none, []⟩
  | (ty, cell) :: rest =>
    if isTaken ty then
      (takeArg ty cell).bind fun one =>
        (takeAll rest).map fun later =>
          match one.1 with
          | .ok arg => ⟨some arg :: later.taken, later.refused, one.2 ++ later.events⟩
          | .error e => ⟨none :: later.taken, some e, one.2 ++ later.events⟩
    else (takeAll rest).map fun later => ⟨none :: later.taken, later.refused, later.events⟩

/-- The loop that reads every argument, the ones taken where they were taken. -/
def readAll (floats : Floats) :
    List ((ArgType × Cell) × Option Arg) → Option (Except ProviderError (List Arg))
  | [] => some (.ok [])
  | (_, some arg) :: rest => (readAll floats rest).map fun later => later.map (arg :: ·)
  | ((ty, cell), none) :: rest =>
    (readArg floats ty cell).bind fun one =>
      match one with
      | .error e => some (.error e)
      | .ok arg => (readAll floats rest).map fun later => later.map (arg :: ·)

/-- What some arguments hand over, released. -/
def releaseAll (args : List Arg) : List Event := (args.flatMap Arg.handed).map .released

/-- What is written through a slot's `out`. -/
inductive Out
  | nothing
  | bool (b : Bool)
  | int (t : IntType) (n : ℤ)
  | f32 (bits : UInt32)
  | f64 (bits : UInt64)
  | text (text : String) (alloc : Alloc)
  | value (v : Node Value)
  | map (m : Node Entries)
  | list (l : Node (List Value))
  | object (o : ObjectRaw)

/-- A slot's answer written: what came of it, what `out` holds now, and what was done. -/
structure Written where
  result : Except ProviderError Status
  out : Option Out
  events : List Event

/-- Writes through an out-pointer, refusing null. -/
def writeOut (out : Option (Option Alloc)) (v : Out) : Except ProviderError Status × Option Out :=
  match out with
  | none => (.ok .null, none)
  | some _ => (.ok .ok, some v)

def wrong (answer : Answer) (want : String) : ProviderError :=
  ⟨.wrongKind, s!"the provider answered {answer.what} where the kind answers {want}"⟩

def outOfRange (scalar : Scalar) : ProviderError :=
  ⟨.badValue, s!"the provider's answer does not fit `{scalarName scalar}`"⟩

/-- The answer as an integer type's, from whatever number or value it holds. -/
def number (t : IntType) (scalar : Scalar) : Answer → Except ProviderError ℤ
  | .int n => (t.tryFrom n).elim (.error (outOfRange scalar)) .ok
  | .uint n => (t.tryFrom n).elim (.error (outOfRange scalar)) .ok
  | .value v => (t.fromValue v.held).mapError fun _ => outOfRange scalar
  | other => .error (wrong other (scalarName scalar))

/-- The answer as a float, from whatever number or value it holds. -/
def float (floats : Floats) (scalar : Scalar) : Answer → Except ProviderError UInt64
  | .float bits => .ok bits
  | .int n => .ok (floats.ofInt n)
  | .uint n => .ok (floats.ofInt n)
  | .value v => (floats.fromValue v.held).elim (.error (outOfRange scalar)) .ok
  | other => .error (wrong other "a float")

/-- What a scalar slot's `out` is written with. -/
def scalarOut (floats : Floats) (scalar : Scalar) (a : Answer) : Except ProviderError Out :=
  match scalar with
  | .bool =>
    match a with
    | .bool b => .ok (.bool b)
    | .value v =>
      match v.held with
      | .bool b => .ok (.bool b)
      | _ => .error (outOfRange .bool)
    | other => .error (wrong other "a bool")
  | .f32 => (float floats .f32 a).map fun bits => .f32 (floats.narrow bits)
  | .f64 => (float floats .f64 a).map .f64
  | _ =>
    match intType? scalar with
    | some t => (number t scalar a).map (.int t)
    | none => .error (.ofStatus .unsupported)

/-- The answer as text. -/
def text : Answer → Except ProviderError String
  | .text t => .ok t
  | .value v =>
    match v.held with
    | .string t => .ok t
    | _ => .error (wrong (.value v) "text")
  | other => .error (wrong other "text")

/-- What a text slot's `out` is written with: a sensitive slot's in the wiping allocator. -/
def textOut (sensitive : Bool) (a : Answer) : Except ProviderError Out :=
  (text a).map fun t => .text t (if sensitive then .wiping else .rust)

/-- A tree moved where its caller asked: unchanged when everything in it records that allocator,
otherwise copied there and the original freed. -/
def moved (w : World) {α : Type} (n : Node α) (home : Alloc) :
    Except ProviderError (Node α) × List Event :=
  if n.allocs.all (· = home) then (.ok n, [])
  else
    match w.refuses n.block home with
    | some refusal => (.error refusal.error, [.released (.tree n.block)])
    | none =>
      (.ok { n with block := .copy n.block, allocs := [home] },
        [.made (.copy n.block), .released (.tree n.block)])

/-- A map's keys are checked before it is moved. -/
def movedMap (w : World) (m : Node Entries) (home : Alloc) :
    Except ProviderError (Node Entries) × List Event :=
  if m.keysAreText then moved w m home
  else (.error ⟨.badValue, ValueError.notUtf8.words⟩, [.released (.tree m.block)])

/-- The allocator an answer is built in: the one the caller's carrier names, or the fallback. -/
def returnAllocOr (carried : Option Alloc) (fallback : Alloc) : Alloc := carried.getD fallback

/-- A tree written through `out` once it is where the caller asked. -/
def writeTree {α : Type} (out : Option (Option Alloc)) (fallback : Alloc) (n : Node α)
    (move : Node α → Alloc → Except ProviderError (Node α) × List Event) (wrap : Node α → Out) :
    Written :=
  match out with
  | none => ⟨.ok .null, none, [.released (.tree n.block)]⟩
  | some carried =>
    match move n (returnAllocOr carried fallback) with
    | (.ok n, events) => ⟨.ok .ok, some (wrap n), events⟩
    | (.error e, events) => ⟨.error e, none, events⟩

/-- A node built for an answer that is no tree. -/
def built (allocs : List Alloc) (v : Value) : Node Value := ⟨.built, allocs, true, v⟩

/-- The value an answer is, and what was made for it. -/
def asValue (floats : Floats) : Answer → Except ProviderError (Node Value × List Event)
  | .value v => .ok (v, [])
  | .map m => .ok (m.value .map, [])
  | .list l => .ok (l.value .list, [])
  | .bool b => .ok (built [] (.bool b), [.made .built])
  | .int n => .ok (built [.rust] (.number (.ofInt n)), [.made .built])
  | .uint n => .ok (built [.rust] (.number (.ofInt n)), [.made .built])
  | .float bits =>
    match floats.toNumber bits with
    | .ok n => .ok (built [.rust] (.number n), [.made .built])
    | .error refusal => .error refusal.error
  | .text t => .ok (built [.rust] (.string t), [.made .built])
  | other => .error (wrong other "a value")

/-- What is written where an answer is consumed whole by the conversion. -/
def writeConverted (out : Option (Option Alloc)) (a : Answer) (v : Except ProviderError Out) :
    Written :=
  match v with
  | .ok v => ⟨(writeOut out v).1, (writeOut out v).2, a.handed.map .released⟩
  | .error e => ⟨.error e, none, a.handed.map .released⟩

/-- Writes what a handler answered through `out`, as the slot describes its answer. -/
def writeAnswer (w : World) (ty : Option AnswerType) (sensitive : Bool) (a : Answer)
    (out : Option (Option Alloc)) : Written :=
  -- Where a sensitive slot's answer goes when its caller named nothing.
  let fallback := if sensitive then Alloc.wiping else Alloc.rust
  match ty with
  | none => ⟨.ok .ok, none, a.handed.map .released⟩
  | some (.scalar scalar) => writeConverted out a (scalarOut w.floats scalar a)
  | some .text => writeConverted out a (textOut sensitive a)
  | some (.tree .map) =>
    match a with
    | .map m => writeTree out fallback m (movedMap w) .map
    | .value v =>
      match v.map? with
      | some m => writeTree out fallback m (movedMap w) .map
      | none => ⟨.error ⟨.wrongKind, "the provider answered a value that is not a map where the kind answers a map"⟩, none, [.released (.tree v.block)]⟩
    | other => ⟨.error (wrong other "a map"), none, other.handed.map .released⟩
  | some (.tree .list) =>
    match a with
    | .list l => writeTree out fallback l (moved w) .list
    | .value v =>
      match v.list? with
      | some l => writeTree out fallback l (moved w) .list
      | none => ⟨.error ⟨.wrongKind, "the provider answered a value that is not a list where the kind answers a list"⟩, none, [.released (.tree v.block)]⟩
    | other => ⟨.error (wrong other "a list"), none, other.handed.map .released⟩
  | some (.tree .value) =>
    match asValue w.floats a with
    | .ok (v, events) =>
      let written := writeTree out fallback v (moved w) .value
      { written with events := events ++ written.events }
    | .error e => ⟨.error e, none, a.handed.map .released⟩
  | some (.object _) =>
    match a with
    | .object o =>
      match out with
      -- Dropped: destroyed, since nobody can receive it.
      | none => ⟨.ok .null, none, [.released (.object o)]⟩
      | some _ => ⟨.ok .ok, some (.object o), []⟩
    | other => ⟨.error (wrong other "an object"), none, other.handed.map .released⟩

/-- A call dispatched: its status, what `out` and `err` hold now, and what was done. -/
structure Dispatched where
  status : Status
  out : Option Out
  err : Option ProviderError
  events : List Event

/-- Answers an error, through `err` where the slot can fail and as its status alone where not. -/
def answerError (s : SlotDescription) (e : ProviderError) (err : Bool) (events : List Event) :
    Dispatched :=
  -- An error that says OK would read as an answer never written.
  let e := if e.status = .ok then { e with status := .internal } else e
  ⟨e.status, none, if s.fallible && err then some e else none, events⟩

/-- Writes what a handler answered through `out`, or its error through `err`. -/
def answer (w : World) (s : SlotDescription) (answered : Except ProviderError Answer)
    (out : Option (Option Alloc)) (err : Bool) (events : List Event) : Dispatched :=
  match answered with
  | .error e => answerError s e err events
  | .ok a =>
    let written := writeAnswer w s.answer s.sensitive a out
    match written.result with
    | .ok status => ⟨status, written.out, none, events ++ written.events⟩
    | .error e => answerError s e err (events ++ written.events)

/-- What runs behind the catch: takes what is handed over, reads the rest, calls the handler and
writes the answer or the error. -/
def caught (w : World) (s : SlotDescription) (slot ctx : ℕ) (out : Option (Option Alloc))
    (err : Bool) (held : List Cell) : Option Dispatched := do
  let t ← takeAll (s.args.zip held)
  -- What was taken is dropped by a refusal.
  let refused e := answer w s (.error e) out err (t.events ++ releaseAll (t.taken.filterMap id))
  match t.refused with
  | some e => some (refused e)
  | none =>
    match ← readAll w.floats ((s.args.zip held).zip t.taken) with
    | .error e => some (refused e)
    | .ok args =>
      match w.call ctx slot args with
      -- A panic stops at the slot.
      | .panicked => some ⟨.internal, none, none, t.events ++ [.served ctx slot args]⟩
      | .answered r => some (answer w s r out err (t.events ++ [.served ctx slot args]))

/-- One served slot called: its `ctx`, `out` and `err` are read by their positions, then the rest.
Undefined where a cell is not what the slot's description says. -/
def dispatch (w : World) (kind : KindDescription) (slot : ℕ) (cells : List Cell) :
    Option Dispatched := do
  let s ← kind.slots[slot]?
  let n := s.args.length
  let ctx ← (← (← cells[0]?).ptr?).address?
  let out ← if s.answer.isSome then (← (← cells[1 + n]?).ptr?).out? else some none
  let err ←
    if s.fallible then (← (← cells[1 + n + s.answer.isSome.toNat]?).ptr?).err? else some false
  let held := (cells.drop 1).take n
  if held.length < n then none else caught w s slot ctx out err held

end Guatiao.Table
