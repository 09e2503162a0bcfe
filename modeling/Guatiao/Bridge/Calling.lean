import Guatiao.Table.Balanced

/-!
# A library's code calling a host's object

A script calls a slot of what one of its handles holds, with handles among the arguments. Each
argument is prepared in turn, an object taken out of its handle; then all cross to the call, what is
handed over taken out of what was prepared; and whatever ends the call, an object still there goes
back to its handle.
-/

namespace Guatiao.Bridge

open Remote (Pass ArgType)
open Table

/-- What a script's handle on a host's object calls. -/
inductive Held
  /-- A provider's table, held loaded. -/
  | provider (remote : ObjectRaw)
  /-- An object handed over, until it is handed on or closed. -/
  | object (o : Option ObjectRaw)
  /-- An object lent for a call that may have returned. -/
  | lent (lend : ℕ)

/-- A handle of a script's: what it holds, and of which kind. -/
structure Handle where
  kind : KindDescription
  held : Held

/-- Every handle a script has. -/
abbrev Handles := ℕ → Handle

/-- What a script's call meets: the callee's side of it, the host's tables by address, the objects
lent for calls that have not returned, and how what was lent is written back. -/
structure Host where
  world : World
  tables : ℕ → Option ServedTable
  lends : ℕ → Option ObjectRaw
  writeBack : Except ProviderError Unit

/-- One argument of a slot a library calls, held while the call runs. An object is held with the
handle it came out of. -/
inductive PreparedArg
  | bool (b : Bool)
  | int (n : ℤ)
  | uint (n : ℕ)
  | float (bits : UInt64)
  | str (text : String)
  | bytes (data : List UInt8)
  | buffer (data : List UInt8)
  | value (v : Option (Node Value))
  | map (m : Node Entries)
  | list (l : Node (List Value))
  | takenValue (v : Option (Node Value))
  | takenMap (m : Option (Node Entries))
  | takenList (l : Option (Node (List Value)))
  | lentValue (v : Node Value)
  | lentMap (m : Node Entries)
  | lentList (l : Node (List Value))
  /-- An object handed over. -/
  | object (o : Option ObjectRaw) (home : ℕ)
  /-- An object this side owns, lent for the call and put back after. -/
  | lentOwned (o : Option ObjectRaw) (home : ℕ)
  /-- A lent object passed on. -/
  | lentPassed (lend : ℕ)

namespace PreparedArg

/-- An argument that is no object. -/
def isPlain : PreparedArg → Bool
  | .object .. | .lentOwned .. | .lentPassed _ => false
  | _ => true

/-- The object an argument holds, with its handle. -/
def out : PreparedArg → Option (ℕ × ObjectRaw)
  | .object (some o) home | .lentOwned (some o) home => some (home, o)
  | _ => none

/-- The object an argument hands over, with its handle. -/
def handedOver : PreparedArg → Option (ℕ × ObjectRaw)
  | .object (some o) home => some (home, o)
  | _ => none

/-- What was handed over when nothing is left of it. -/
def emptied {α : Type} (held : α) : Node α := ⟨.built, [], true, held⟩

/-- An argument as the call takes it, and what is left of it. -/
def cross (lends : ℕ → Option ObjectRaw) : PreparedArg → Arg × PreparedArg
  | .bool b => (.bool b, .bool b)
  | .int n => (.int n, .int n)
  | .uint n => (.uint n, .uint n)
  | .float bits => (.float bits, .float bits)
  | .str text => (.str text, .str text)
  | .bytes data => (.bytes data, .bytes data)
  | .buffer data => (.buffer data, .buffer data)
  | .value v => (.value v, .value v)
  | .map m => (.map m, .map m)
  | .list l => (.list l, .list l)
  | .takenValue v => (.takenValue (v.getD (emptied .null)), .takenValue none)
  | .takenMap m => (.takenMap (m.getD (emptied [])), .takenMap none)
  | .takenList l => (.takenList (l.getD (emptied [])), .takenList none)
  | .lentValue v => (.lentValue v, .lentValue v)
  | .lentMap m => (.lentMap m, .lentMap m)
  | .lentList l => (.lentList l, .lentList l)
  | .object (some o) home => (.object o, .object none home)
  | .object none home => (.value none, .object none home)
  | .lentOwned (some o) home => (.lentObject o, .lentOwned (some o) home)
  | .lentOwned none home => (.value none, .lentOwned none home)
  | .lentPassed lend => ((lends lend).elim (.value none) .lentObject, .lentPassed lend)

end PreparedArg

/-- What a script gives as an argument: a handle, or what its engine reads as one of a type. -/
inductive Given
  | handle (h : ℕ)
  | plain (read : ArgType → Except String { p : PreparedArg // p.isPlain = true })

/-- A handle as an argument of an object of a kind: its object taken out, or a lent one passed on. -/
def argument (handles : Handles) (h : ℕ) (kind : String) (pass : Pass) (what : String) :
    Except String (PreparedArg × Handles) :=
  let held := (handles h).kind.name
  if held ≠ kind then .error s!"{what} is a `{kind}`, not a `{held}`"
  else
    match (handles h).held, pass with
    | .object (some taken), pass =>
      .ok (if pass = .taken then .object (some taken) h else .lentOwned (some taken) h,
        Function.update handles h { handles h with held := .object none })
    | .object none, _ => .error s!"{what} was already handed over"
    | .lent lend, .lent => .ok (.lentPassed lend, handles)
    | .lent _, _ => .error s!"{what} was lent to this call, and cannot be handed over"
    | .provider _, _ => .error s!"{what} is a provider, not an object"

/-- One argument of a slot, of its type. -/
def prepare (handles : Handles) (ty : ArgType) (given : Given) (what : String) :
    Except String (PreparedArg × Handles) :=
  match ty, given with
  | .object kind pass, .handle h => argument handles h kind pass what
  | .object kind _, .plain _ => .error s!"{what} is an object of `{kind}` (a handle)"
  | ty, .plain read => (read ty).map fun p => (p.1, handles)
  | _, .handle _ => .error s!"{what} is no object"

/-- The arguments prepared so far, the handles by then, and why one was refused. -/
structure PreparedArgs where
  args : List PreparedArg
  handles : Handles
  refused : Option String

/-- Every argument prepared in turn, to the first that is refused. -/
def prepareAll (s : SlotDescription) (handles : Handles) : ℕ → List (ArgType × Given) → PreparedArgs
  | _, [] => ⟨[], handles, none⟩
  | i, (ty, given) :: rest =>
    match prepare handles ty given s!"`{s.name}`'s argument {i}" with
    | .error why => ⟨[], handles, some why⟩
    | .ok (arg, handles) =>
      let later := prepareAll s handles (i + 1) rest
      { later with args := arg :: later.args }

/-- An object put back in a handle, unless that holds no object of its own: then it is destroyed. -/
def putBack (handles : Handles) (h : ℕ) (o : ObjectRaw) : Handles × List ObjectRaw :=
  match (handles h).held with
  | .object _ => (Function.update handles h { handles h with held := .object (some o) }, [])
  | _ => (handles, [o])

/-- What was prepared, dropped: each object still there goes back to its handle. -/
def giveBack : List PreparedArg → Handles → Handles × List ObjectRaw
  | [], handles => (handles, [])
  | arg :: rest, handles =>
    match arg.out with
    | some (home, o) =>
      let one := putBack handles home o
      let later := giveBack rest one.1
      (later.1, one.2 ++ later.2)
    | none => giveBack rest handles

/-- A slot of a table at an address called, with what it takes. -/
def Host.callAt (host : Host) (kind : KindDescription) (o : ObjectRaw) (slot : ℕ) (args : List Arg) :
    Option Called :=
  match host.tables o.table with
  | some table => callRaw host.world kind table o.size o.ctx slot args
  | none => refuse ⟨.null, "no table"⟩ (args.flatMap Arg.handed)

/-- `GUATIAO_ERR_GONE`. -/
def gone (message : String) : ProviderError := ⟨⟨12⟩, message⟩

/-- What a handle calls, when it is there. -/
def Held.callee (host : Host) : Held → Except ProviderError ObjectRaw
  | .provider remote => .ok remote
  | .object (some o) => .ok o
  | .object none => .error (gone "the object was handed over or closed")
  | .lent lend => (host.lends lend).elim
      (.error (gone "the object was lent for a call that has returned")) .ok

/-- A slot of what a handle holds called: what it was given is dropped when nothing is there. -/
def Held.call (host : Host) (kind : KindDescription) (slot : ℕ) (args : List Arg) (held : Held) :
    Option Called :=
  match held.callee host with
  | .ok o => host.callAt kind o slot args
  | .error e => refuse e (args.flatMap Arg.handed)

/-- What a script's call came to: what it answered, its handles after it, and what was done. -/
structure Run where
  result : Except ProviderError Answer
  handles : Handles
  events : List Event

/-- An error of a script's own. -/
def badValue (why : String) : ProviderError := ⟨.badValue, why⟩

/-- What was lent written back: a refusal takes the answer's place. -/
def written (writeBack : Except ProviderError Unit) (called : Called) : Called :=
  match writeBack with
  | .ok _ => called
  | .error e => ⟨.error e, called.events ++ (ownedOf Answer.handed called.result).map .released⟩

/-- A script calls a slot of what one of its handles holds. -/
def callSlot (host : Host) (handles : Handles) (me slot : ℕ) (given : List Given) : Option Run :=
  let kind := (handles me).kind
  match kind.slots[slot]? with
  | none => some ⟨.error noSlot, handles, []⟩
  | some s =>
    if given.length ≠ s.args.length then
      some ⟨.error (badValue s!"`{s.name}` of `{kind.name}` takes {s.args.length} arguments, not {given.length}"), handles, []⟩
    else
      let prepared := prepareAll s handles 0 (s.args.zip given)
      match prepared.refused with
      | some why =>
        let back := giveBack prepared.args prepared.handles
        some ⟨.error (badValue why), back.1, back.2.map fun o => .released (.object o)⟩
      | none =>
        let crossed := prepared.args.map (PreparedArg.cross host.lends)
        ((prepared.handles me).held.call host kind slot (crossed.map Prod.fst)).map fun called =>
          let called := written host.writeBack called
          let back := giveBack (crossed.map Prod.snd) prepared.handles
          ⟨called.result, back.1, called.events ++ back.2.map fun o => .released (.object o)⟩

end Guatiao.Bridge

/-!
## Whether a call is made

A call is made once something is there to call, with a table that answers the slot, and every
argument has the shape its type takes. Any other call is refused before it is made, and what it was
to hand over is destroyed.
-/

namespace Guatiao.Bridge

open Remote (Pass ArgType)
open Table
open Lib (Ledger)

/-- The objects among what is owned. -/
def objectsIn (owned : List Owned) : List ObjectRaw :=
  owned.filterMap fun
    | .object o => some o
    | .tree _ => none

@[simp] theorem objectsIn_nil : objectsIn [] = [] := rfl

@[simp] theorem objectsIn_append (owned owned' : List Owned) :
    objectsIn (owned ++ owned') = objectsIn owned ++ objectsIn owned' := List.filterMap_append

/-- A table answers a slot of a kind: built for it, as large as it, and with the slot filled. -/
structure Answers (table : ServedTable) (kind : KindDescription) (size slot : ℕ) : Prop where
  hash : table.floorHash = kind.floorHash
  large : kind.floor ≤ min table.structSize.toNat size
  filled : (table.words[kind.wordOf slot]?.join).isSome

/-- A call is made: what is called is there, its table answers the slot, and the arguments have the
shapes it takes. -/
def Reached (host : Host) (kind : KindDescription) (slot : ℕ) (args : List Arg) (held : Held) :
    Prop :=
  ∃ o table s, held.callee host = .ok o ∧ host.tables o.table = some table ∧
    kind.slots[slot]? = some s ∧ Answers table kind o.size slot ∧ List.Forall₂ Accepted s.args args

/-- A table under the hash of a kind is one built for it. -/
def Host.Tells (host : Host) (kind : KindDescription) : Prop :=
  ∀ a table, host.tables a = some table → table.floorHash = kind.floorHash →
    ∃ implemented, ServedTable.new kind implemented = .ok table

/-- How a call that is made ends: what was handed over was dropped where it was read, or is the
handler's, and then no object is released that the handler did not answer. -/
inductive Ended (w : World) (args : List Arg) : Called → Prop
  | dropped {e : ProviderError} {gone : List Owned} (h : gone.Perm (args.flatMap Arg.handed)) :
      Ended w args ⟨.error e, gone.map .released⟩
  | served {called : Called} {ctx slot : ℕ} {seen : List Arg}
      (hserved : servedIn called.events = [(ctx, slot, seen)])
      (hseen : seen.flatMap Arg.handed = args.flatMap Arg.handed)
      (hbooks : (objectsIn (releasedIn called.events ++ ownedOf Answer.handed called.result)).Subperm
        (objectsIn (answeredIn w called.events))) :
      Ended w args called

section Call

variable {w : World} {kind : KindDescription} {implemented : SlotDescription → Bool}
  {table : ServedTable} {size ctx slot : ℕ} {s : SlotDescription} {args : List Arg}

variable (w ctx args) in
theorem callRaw_large (hnew : ServedTable.new kind implemented = .ok table)
    (hlarge : kind.floor ≤ size) :
    callRaw w kind table size ctx slot args = callRaw w kind table kind.size ctx slot args := by
  obtain ⟨hstruct, -⟩ := new_header hnew
  rw [KindDescription.floor] at hlarge
  have hfit : table.structSize.toNat ≤ kind.size := by
    rw [hstruct, UInt32.toNat_ofNat']
    exact Nat.mod_le _ _
  have hheader : headerSize ≤ kind.size := Nat.le_add_right ..
  have hdeclared : min table.structSize.toNat size = min table.structSize.toNat kind.size := by
    omega
  simp only [callRaw, hdeclared, if_neg (Nat.not_lt.mpr hheader),
    if_neg (Nat.not_lt.mpr (hheader.trans hlarge))]

variable (w table ctx args) in
theorem callRaw_undersized (hsmall : size < kind.floor) :
    ∃ e, callRaw w kind table size ctx slot args = refuse e (args.flatMap Arg.handed) := by
  have hmin : min table.structSize.toNat size < kind.floor := by omega
  unfold callRaw
  split
  · exact ⟨_, rfl⟩
  · split
    · exact ⟨_, rfl⟩
    · split
      · exact ⟨_, rfl⟩
      · exact ⟨_, if_pos hmin⟩

variable (w size ctx args) in
theorem callRaw_wrongKind (hhash : table.floorHash ≠ kind.floorHash) :
    ∃ e, callRaw w kind table size ctx slot args = refuse e (args.flatMap Arg.handed) := by
  unfold callRaw
  split
  · exact ⟨_, rfl⟩
  · split
    · exact ⟨_, rfl⟩
    · exact ⟨_, rfl⟩

/-- A table built for a kind answers the slots that are implemented, where its header can say its
size. -/
theorem answers_new (hnew : ServedTable.new kind implemented = .ok table)
    (hs : kind.slots[slot]? = some s) :
    Answers table kind size slot ↔
      implemented s = true ∧ kind.size < 2 ^ 32 ∧ kind.floor ≤ size := by
  obtain ⟨hstruct, hhash⟩ := new_header hnew
  have hword := new_word hnew hs
  have htoNat : table.structSize.toNat = kind.size % 2 ^ 32 := by
    rw [hstruct, UInt32.toNat_ofNat']
  constructor
  · rintro ⟨-, hlarge, hfilled⟩
    rw [htoNat, KindDescription.floor] at hlarge
    have hmod := Nat.mod_lt kind.size (Nat.two_pow_pos 32)
    refine ⟨?_, by omega, by rw [KindDescription.floor]; omega⟩
    by_contra himp
    rw [hword, if_neg himp] at hfilled
    cases hfilled
  · rintro ⟨himp, hsize, hlarge⟩
    rw [KindDescription.floor] at hlarge
    refine ⟨hhash, ?_, by rw [hword, if_pos himp]; rfl⟩
    rw [htoNat, Nat.mod_eq_of_lt hsize, KindDescription.floor]
    omega

theorem objects_finish {out : Out} {pending : List Pending} {seen : List Arg}
    (hout : Out.forAnswer s.answer s.home = .ok out)
    (hsettle : (∃ u, settleAll w 0 pending = .ok u) ↔ SettlesAll w args)
    (hseen : seen.flatMap Arg.handed = args.flatMap Arg.handed) :
    let called := finish w s s.home out pending (reply w s slot ctx s.outSlot s.fallible seen)
    (objectsIn (releasedIn called.events ++ ownedOf Answer.handed called.result)).Subperm
      (objectsIn (answeredIn w called.events)) := by
  intro called
  have hserved : servedIn called.events = [(ctx, slot, seen)] := by
    rw [servedIn_finish, servedIn_reply]
  have hanswered : answeredIn w called.events = (w.call ctx slot seen).handed := by
    simp [answeredIn, hserved]
  by_cases hbalanced : Balanced w args called
  · have hbooks := (balanced_served hseen hserved).mp hbalanced
    have hmade : objectsIn (ledger called.events).made = [] := by
      refine List.filterMap_eq_nil_iff.mpr ?_
      intro o ho
      obtain ⟨event, -, hevent⟩ := List.mem_filterMap.mp ho
      cases event <;> cases hevent
      rfl
    have hperm : (objectsIn _).Perm (objectsIn _) := List.Perm.filterMap _ hbooks
    rw [objectsIn_append (w.call ctx slot seen).handed, hmade, List.append_nil] at hperm
    rw [hanswered]
    exact hperm.subperm
  · have hlost : AnswersObject s (w.call ctx slot seen) ∧ ¬ SettlesAll w args := by
      by_contra h
      exact hbalanced ((balanced_finish hout hsettle hseen).mpr fun ho => by_contra fun hs => h ⟨ho, hs⟩)
    obtain ⟨⟨answered, o, hanswer, hcall⟩, hnot⟩ := hlost
    have hnone : releasedIn called.events ++ ownedOf Answer.handed called.result = [] := by
      cases hset : settleAll w 0 pending with
      | ok u => exact absurd (hsettle.mp ⟨u, hset⟩) hnot
      | error e =>
        simp only [called, reply_object hanswer hcall, finish, if_neg (not_not.mpr rfl), hset]
        rfl
    rw [hnone]
    exact List.nil_subperm

variable (w ctx args) in
theorem callRaw_ended (hnew : ServedTable.new kind implemented = .ok table)
    (hs : kind.slots[slot]? = some s) (hanswers : Answers table kind size slot)
    (hunmixed : List.Forall₂ (fun ty arg => Matches ty arg ∨ Foreign ty arg) s.args args) :
    ∃ called, callRaw w kind table size ctx slot args = some called ∧ Ended w args called := by
  obtain ⟨himp, hsize, hlarge⟩ := (answers_new hnew hs).mp hanswers
  rw [callRaw_large w ctx args hnew hlarge]
  by_cases hm : List.Forall₂ Matches s.args args
  · obtain ⟨out, pending, hout, hsettle, hcall⟩ :=
      callRaw_matches w ctx args hnew hs himp hsize hm
    have hserved : servedIn (finish w s s.home out pending (s.replied w slot ctx args)).events =
        [(ctx, slot, List.zipWith (seen w.floats) s.args args)] := by
      rw [servedIn_finish, SlotDescription.replied, servedIn_reply]
    have hseen : (List.zipWith (seen w.floats) s.args args).flatMap Arg.handed =
        args.flatMap Arg.handed := handed_zipWith_seen hm
    exact ⟨_, hcall, .served hserved hseen (objects_finish hout hsettle hseen)⟩
  · obtain ⟨e, gone, hperm, hcall⟩ := callRaw_foreign w ctx args hnew hs himp hsize hunmixed hm
    exact ⟨_, hcall, .dropped hperm⟩

variable (w ctx args) in
theorem callRaw_dropped
    (htells : table.floorHash = kind.floorHash →
      ∃ implemented, ServedTable.new kind implemented = .ok table)
    (hnot : ∀ s, kind.slots[slot]? = some s → Answers table kind size slot →
      ¬ List.Forall₂ Accepted s.args args) :
    ∃ e, callRaw w kind table size ctx slot args = refuse e (args.flatMap Arg.handed) := by
  by_cases hhash : table.floorHash = kind.floorHash
  · obtain ⟨implemented, hnew⟩ := htells hhash
    rcases Nat.lt_or_ge size kind.floor with hsmall | hlarge
    · exact callRaw_undersized w table ctx args hsmall
    · rw [callRaw_large w ctx args hnew hlarge]
      by_cases hreached : ∃ s, kind.slots[slot]? = some s ∧ implemented s = true ∧
          kind.size < 2 ^ 32
      · obtain ⟨s, hs, himp, hsize⟩ := hreached
        have hanswers := (answers_new hnew hs).mpr ⟨himp, hsize, hlarge⟩
        exact callRaw_refused w ctx args hnew hs himp hsize (hnot s hs hanswers)
      · exact callRaw_unreached w ctx args hnew fun s hs himp hsize =>
          hreached ⟨s, hs, himp, hsize⟩
  · exact callRaw_wrongKind w size ctx args hhash

end Call

section Held

variable {host : Host} {kind : KindDescription} {slot : ℕ} {args : List Arg} {held : Held}

theorem call_ended (htells : host.Tells kind) (hreached : Reached host kind slot args held)
    (hunmixed : ∀ s, kind.slots[slot]? = some s →
      List.Forall₂ (fun ty arg => ¬ Mixed ty arg) s.args args) :
    ∃ called, held.call host kind slot args = some called ∧ Ended host.world args called := by
  obtain ⟨o, table, s, ho, htable, hs, hanswers, haccepted⟩ := hreached
  obtain ⟨implemented, hnew⟩ := htells _ _ htable hanswers.hash
  have hshapes : List.Forall₂ (fun ty arg => Matches ty arg ∨ Foreign ty arg) s.args args := by
    refine List.Forall₂.mp ?_ haccepted (hunmixed s hs)
    rintro ty arg (hm | hf | hmixed) hnot
    · exact .inl hm
    · exact .inr hf
    · exact absurd hmixed hnot
  obtain ⟨called, hcall, hended⟩ := callRaw_ended host.world o.ctx args hnew hs hanswers hshapes
  refine ⟨called, ?_, hended⟩
  simp only [Held.call, ho, Host.callAt, htable, hcall]

theorem call_dropped (htells : host.Tells kind) (hnot : ¬ Reached host kind slot args held) :
    ∃ e, held.call host kind slot args = refuse e (args.flatMap Arg.handed) := by
  cases ho : held.callee host with
  | error e => exact ⟨e, by simp only [Held.call, ho]⟩
  | ok o =>
    cases htable : host.tables o.table with
    | none => exact ⟨⟨.null, "no table"⟩, by simp only [Held.call, ho, Host.callAt, htable]⟩
    | some table =>
      obtain ⟨e, hcall⟩ := callRaw_dropped host.world o.ctx args (htells _ _ htable)
        fun s hs (hanswers : Answers table kind o.size slot) haccepted =>
          hnot ⟨o, table, s, ho, htable, hs, hanswers, haccepted⟩
      exact ⟨e, by simp only [Held.call, ho, Host.callAt, htable, hcall]⟩

end Held

end Guatiao.Bridge
