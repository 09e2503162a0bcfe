import Guatiao.Table.Serving

/-!
# The calling side of a run-time table

A caller lays every argument's storage out before any address is taken, calls the table's word for
the slot, gives up what it handed over, settles what it lent and wraps the answer. The call itself
passes each cell unchanged.
-/

namespace Guatiao.Table

open Remote (Scalar Tree Pass ArgType AnswerType)

/-- Why a table could not be built from a description. -/
inductive TableError
  | unsupported (what : String)
  | missingRequired (slot : String)
  deriving DecidableEq

/-- Which slot a table's word is. -/
inductive Role
  | slot (index : ℕ)
  | destroy
  deriving DecidableEq

/-- A kind's table whose slots call one handler: its header, then a word for each slot. -/
structure ServedTable where
  structSize : UInt32
  floorHash : UInt32
  words : List (Option Role)

def scalarType (s : Scalar) : Except TableError Unit :=
  match s with
  | .i128 | .u128 => .error (.unsupported s!"`{scalarName s}`")
  | _ => .ok ()

/-- Whether a slot has a C signature: no scalar of 128 bits crosses. -/
def signature (s : SlotDescription) : Except TableError Unit := do
  s.args.forM fun ty =>
    match ty with
    | .scalar scalar => scalarType scalar
    | _ => .ok ()
  match s.answer with
  | some (.scalar scalar) => scalarType scalar
  | _ => .ok ()

/-- The words that are made, each with where it goes: a slot left out stays null, so that a caller
runs the kind's default for it, and a required one is refused. -/
def makeWords (kind : KindDescription) (implemented : SlotDescription → Bool) :
    List (SlotDescription × ℕ) → Except TableError (List (ℕ × Role))
  | [] => .ok []
  | (s, i) :: rest => do
    signature s
    if implemented s then
      let later ← makeWords kind implemented rest
      .ok ((kind.wordOf i, .slot i) :: later)
    else if s.required then .error (.missingRequired s.name)
    else makeWords kind implemented rest

/-- Builds a kind's table. -/
def ServedTable.new (kind : KindDescription) (implemented : SlotDescription → Bool) :
    Except TableError ServedTable := do
  let made ← makeWords kind implemented kind.slots.zipIdx
  let made := (if kind.object then [(0, Role.destroy)] else []) ++ made
  let words := List.replicate (kind.slots.length + kind.object.toNat) none
  .ok ⟨.ofNat kind.size, kind.floorHash,
    made.foldl (fun words m => words.set m.1 (some m.2)) words⟩

def mismatch (i : ℕ) (want : String) : ProviderError :=
  ⟨.wrongKind, s!"argument {i} is not {want}"⟩

def narrow (t : IntType) (i : ℕ) (s : Scalar) : Arg → Except ProviderError ℤ
  | .int n => (t.tryFrom n).elim (.error ⟨.badValue, s!"argument {i} does not fit `{scalarName s}`"⟩) .ok
  | .uint n => (t.tryFrom n).elim (.error ⟨.badValue, s!"argument {i} does not fit `{scalarName s}`"⟩) .ok
  | _ => .error (mismatch i "a number")

/-- What a tree or object argument becomes for the call, and what is done after it. -/
inductive Pending
  | nothing
  | moved (v : Node Value)
  | movedMap (m : Node Entries)
  | movedList (l : Node (List Value))
  | object (o : ObjectRaw)
  | lentValue (v : Node Value) (home : Alloc)
  | lentMap (m : Node Entries) (home : Alloc)
  | lentList (l : Node (List Value)) (home : Alloc)

/-- What is dropped with it when the call never happens. -/
def Pending.handed : Pending → List Owned
  | .moved v => [.tree v.block]
  | .movedMap m => [.tree m.block]
  | .movedList l => [.tree l.block]
  | .object o => [.object o]
  | _ => []

/-- A number as a float. -/
def layFloat (floats : Floats) (i : ℕ) : Arg → Except ProviderError UInt64
  | .float bits => .ok bits
  | .int n => .ok (floats.ofInt n)
  | .uint n => .ok (floats.ofInt n)
  | _ => .error (mismatch i "a number")

/-- An integer, a flag or a float in the storage of its scalar. -/
def layScalar (floats : Floats) (i : ℕ) (s : Scalar) (arg : Arg) : Except ProviderError Cell :=
  match s with
  | .bool =>
    match arg with
    | .bool b => .ok (.int .u8 b.toNat)
    | _ => .error (mismatch i "a bool")
  | .f32 => (layFloat floats i arg).map fun bits => .f32 (floats.narrow bits)
  | .f64 => (layFloat floats i arg).map .f64
  | _ =>
    match intType? s with
    | some t => (narrow t i s arg).map (.int t)
    | none => .error (.ofStatus .unsupported)

/-- A tree's storage: its address comes once nothing moves it again. -/
def layTree (i : ℕ) (tree : Tree) (pass : Pass) (nullable : Bool) (arg : Arg) :
    Except ProviderError (Cell × Pending) :=
  match tree, pass, arg with
  | .value, .borrowed, .value none =>
    if nullable then .ok (.ptr .null, .nothing) else .error (mismatch i "a value")
  | .value, .borrowed, .value (some v) => .ok (.ptr (.value v), .nothing)
  | .map, .borrowed, .map m => .ok (.ptr (.map m), .nothing)
  | .list, .borrowed, .list l => .ok (.ptr (.list l), .nothing)
  | .value, .taken, .takenValue v => .ok (.ptr .null, .moved v)
  | .map, .taken, .takenMap m => .ok (.ptr .null, .movedMap m)
  | .list, .taken, .takenList l => .ok (.ptr .null, .movedList l)
  | .value, .lent, .lentValue v => .ok (.ptr .null, .lentValue v v.home)
  | .map, .lent, .lentMap m => .ok (.ptr .null, .lentMap m m.home)
  | .list, .lent, .lentList l => .ok (.ptr .null, .lentList l l.home)
  | _, _, _ => .error (mismatch i "the tree the slot takes")

/-- One argument's storage, and what is done with it after the call. -/
def lay (floats : Floats) (i : ℕ) (ty : ArgType) (arg : Arg) :
    Except ProviderError (Cell × Pending) :=
  match ty, arg with
  | .scalar s, arg => (layScalar floats i s arg).map fun cell => (cell, .nothing)
  | .str, .str text => .ok (.str (asBytes text), .nothing)
  | .bytes, .bytes data => .ok (.bytes data, .nothing)
  | .bytesMut, .buffer data => .ok (.bytesMut data, .nothing)
  | .tree tree pass nullable, arg => layTree i tree pass nullable arg
  | .object _ .taken, .object o => .ok (.object o, .object o)
  -- Whatever the passing mode: a lent object is laid out for a slot that takes one over, too.
  | .object _ _, .lentObject o => .ok (.ptr (.object o), .nothing)
  | _, _ => .error (mismatch i "what the slot takes")

/-- The loop over the arguments and what they are described as. -/
def layAll (floats : Floats) :
    ℕ → List (ArgType × Arg) → Except ProviderError (List (Cell × Pending))
  | _, [] => .ok []
  | i, (ty, arg) :: rest => do
    let one ← lay floats i ty arg
    let later ← layAll floats (i + 1) rest
    .ok (one :: later)

/-- A tree's address, now that nothing moves it again. -/
def place : Cell × Pending → Cell
  | (_, .moved v) => .ptr (.value v)
  | (_, .movedMap m) => .ptr (.map m)
  | (_, .movedList l) => .ptr (.list l)
  | (_, .lentValue v _) => .ptr (.value v)
  | (_, .lentMap m _) => .ptr (.map m)
  | (_, .lentList l _) => .ptr (.list l)
  | (cell, _) => cell

/-- An empty node of a carrier: it owns nothing. -/
def carrier {α : Type} (home : Alloc) (held : α) : Node α := ⟨.built, [home], true, held⟩

/-- The storage a call's answer lands in. -/
def Out.forAnswer (ty : Option AnswerType) (home : Alloc) : Except ProviderError Out :=
  match ty with
  | none => .ok .nothing
  | some (.scalar .bool) => .ok (.bool false)
  | some (.scalar .f32) => .ok (.f32 0)
  | some (.scalar .f64) => .ok (.f64 0)
  | some (.scalar s) => (intType? s).elim (.error (.ofStatus .unsupported)) fun t => .ok (.int t 0)
  | some .text => .ok (.text "" .rust)
  | some (.tree .value) => .ok (.value (carrier home .absent))
  | some (.tree .map) => .ok (.map (carrier home []))
  | some (.tree .list) => .ok (.list (carrier home []))
  | some (.object _) => .ok (.object .null)

/-- The allocator a carrier in the answer's storage records. -/
def Out.carried : Out → Option Alloc
  | .value v => v.allocs.head?
  | .map m => m.allocs.head?
  | .list l => l.allocs.head?
  | _ => none

/-- The out slot's argument, for a slot that answers. -/
def Out.address : Out → List Cell
  | .nothing => []
  | out => [.ptr (.out out.carried)]

/-- What dropping the storage frees. An object in it is plain data. -/
def Out.dropped : Out → List Owned
  | .value v => [.tree v.block]
  | .map m => [.tree m.block]
  | .list l => [.tree l.block]
  | _ => []

/-- An answer, or why it has none, from a tree moved home. -/
def wrapped {α : Type} (wrap : Node α → Answer) (r : Except ProviderError (Node α) × List Event) :
    Except ProviderError Answer × List Event :=
  (r.1.map wrap, r.2)

/-- The answer the storage holds. -/
def Out.intoAnswer (w : World) (home : Alloc) : Out → Except ProviderError Answer × List Event
  | .nothing => (.ok .nothing, [])
  | .bool b => (.ok (.bool b), [])
  | .int t n => (.ok (if t.signed then .int n else .uint n.toNat), [])
  | .f32 bits => (.ok (.float (w.floats.widen bits)), [])
  | .f64 bits => (.ok (.float bits), [])
  | .text t alloc =>
    -- A sensitive slot's text stays a value in the wiping allocator.
    if home = .wiping then
      let r := wrapped .value (moved w (built [alloc] (.string t)) home)
      (r.1, .made .built :: r.2)
    else (.ok (.text t), [])
  | .value v => wrapped .value (moved w v home)
  | .map m => wrapped .map (movedMap w m home)
  | .list l => wrapped .list (moved w l home)
  | .object o => (.ok (.object o), [])

/-- What a lent tree is left as, settled into its home. -/
def Pending.settle (w : World) (i : ℕ) : Pending → Except ProviderError Unit
  | .lentValue _ _ | .lentList _ _ => (w.left i).moved.mapError Refusal.error
  | .lentMap _ _ =>
    if (w.left i).badKey then
      .error ⟨.badValue, "the provider wrote a key that is not UTF-8 into the map it was lent; the entry was removed"⟩
    else (w.left i).moved.mapError Refusal.error
  | _ => .ok ()

/-- The loop that settles what was lent: every one, and the first refusal kept. -/
def settleAll (w : World) : ℕ → List Pending → Except ProviderError Unit
  | _, [] => .ok ()
  | i, p :: rest =>
    match p.settle w i with
    | .ok _ => settleAll w (i + 1) rest
    | .error e => .error e

/-- The error a proxy hands back: what the shim wrote, or one built from the status. -/
def takeErr (movesMessage : Bool) (written : ProviderError) (status : Status) : ProviderError :=
  if written.status = .ok then .ofStatus status
  else if movesMessage then written
  else .ofStatus written.status

/-- What a call came to, and what was done in it. -/
structure Called where
  result : Except ProviderError Answer
  events : List Event

def miscounted (s : SlotDescription) (given : ℕ) : ProviderError :=
  ⟨.badValue, s!"`{s.name}` takes {s.args.length} arguments, and {given} were given"⟩

def noSlot : ProviderError := ⟨.notFound, "the kind has no such slot"⟩

def undersized (kind : KindDescription) (declared : ℕ) : ProviderError :=
  ⟨.wrongKind, s!"the table is {declared} bytes, smaller than the {kind.floor} bytes of the kind's"⟩

def unfilled (s : SlotDescription) : ProviderError :=
  ⟨.unsupported, s!"the table does not fill `{s.name}`"⟩

/-- A call refused before it is made: what it would have handed over is released. -/
def refuse (e : ProviderError) (handed : List Owned) : Option Called :=
  some ⟨.error e, handed.map .released⟩

/-- What a slot's refusal is told as: with its message where the slot can fail. -/
def errorOf (w : World) (s : SlotDescription) (d : Dispatched) : ProviderError :=
  if s.fallible then takeErr w.movesMessage (d.err.getD .none) d.status else .ofStatus d.status

/-- What a call that was made comes to. -/
def finish (w : World) (s : SlotDescription) (home : Alloc) (out : Out) (pending : List Pending)
    (d : Dispatched) : Called :=
  let settled := settleAll w 0 pending
  if d.status ≠ .ok then ⟨.error (errorOf w s d), d.events⟩
  else
    let out := d.out.getD out
    match settled with
    | .error e => ⟨.error e, d.events ++ out.dropped.map .released⟩
    | .ok _ =>
      let answered := out.intoAnswer w home
      ⟨answered.1, d.events ++ answered.2⟩

/-- Calls a slot of a table of a kind. Undefined where the callee reads a cell as what it does not
hold. -/
def callRaw (w : World) (kind : KindDescription) (table : ServedTable) (size ctx slot : ℕ)
    (args : List Arg) : Option Called :=
  let handed := args.flatMap Arg.handed
  match kind.slots[slot]? with
  | none => refuse noSlot handed
  | some s =>
    if size < headerSize then refuse ⟨.null, "no table"⟩ handed
    else if table.floorHash ≠ kind.floorHash then
      refuse ⟨.wrongKind, "the table was not built for this kind"⟩ handed
    else
      -- The table's own size and the one given: the smaller covers every slot, or it is refused.
      let declared := min table.structSize.toNat size
      if declared < kind.floor then
        refuse (undersized kind declared) handed
      else
        match table.words[kind.wordOf slot]?.join with
        | some (.slot index) =>
          if args.length ≠ s.args.length then
            refuse (miscounted s args.length) handed
          else
            match layAll w.floats 0 (s.args.zip args) with
            | .error e => refuse e handed
            | .ok laid =>
              let home := if s.sensitive then Alloc.wiping else Alloc.rust
              match Out.forAnswer s.answer home with
              | .error e => refuse e (laid.flatMap fun l => l.2.handed)
              | .ok out =>
                let cells := Cell.ptr (.address ctx) :: laid.map place ++ out.address ++
                  (if s.fallible then [.ptr .err] else [])
                (dispatch w kind index cells).map (finish w s home out (laid.map Prod.snd))
        -- No caller reaches a `destroy` as a slot.
        | some .destroy => none
        | none => refuse (unfilled s) handed

end Guatiao.Table
