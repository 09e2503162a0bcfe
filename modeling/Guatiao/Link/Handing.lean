import Guatiao.Link.Calls

/-!
# The objects a frame hands over

A call exports the objects it hands over before its frame is built, forgets the peer's it
gives back, and lends the others around the exchange. What it does is undone, or not, on
the error path of each place where the frame can fail. A served call exports the object it
answers before its reply is built.
-/

namespace Guatiao.Link

open Lib

/-- What this side knows of an object's kind. -/
inductive Described
  /-- It is not described on the link. -/
  | unknown
  /-- It is described, and no caller can be made for it. -/
  | uncallable
  | callable
  deriving DecidableEq

/-- An object among a call's arguments. -/
inductive ObjectArg
  /-- Handed over: one of this side's. -/
  | owned (kind : Described)
  /-- Handed over: one of the peer's, which goes back as itself. -/
  | back (remote : ℕ)
  /-- Lent: one of this side's. -/
  | lent (kind : Described)
  /-- Lent: one of the peer's. -/
  | lentBack
  deriving DecidableEq

/-- The peer's objects among arguments. -/
def backs : List ObjectArg → List ℕ
  | [] => []
  | .back remote :: args => remote :: backs args
  | _ :: args => backs args

/-- Where a call is. -/
inductive Making
  | idle
  /-- Before its permit. -/
  | begun
  /-- In the loop over the arguments, with those left and the kinds to lend. -/
  | handing (args : List ObjectArg) (lend : List Described)
  /-- On an error path that unexports what was handed over, with what is left of it. -/
  | dropping (left : List ℕ)
  /-- In `lending`, with what is left to lend. -/
  | lending (lend : List Described)
  /-- In `exchange`, its frame not built yet. -/
  | building
  /-- In `wait`. -/
  | waiting
  /-- On its way back through `lending`. -/
  | returning
  | done
  deriving DecidableEq

/-- One of this side's calls. -/
structure Outgoing where
  at_ : Making
  args : List ObjectArg
  /-- What it handed over, under its ids. -/
  handed : List ℕ
  /-- The peer's objects it gave back: their handles here are forgotten. -/
  given : List ℕ
  /-- What it lends, the last first. -/
  lent : List ℕ
  /-- Every id exported for it. -/
  exported : List ℕ
  wire : Wire
  deriving DecidableEq

/-- What `exchange` comes to before it waits. -/
inductive Built
  /-- The frame is the gate's. -/
  | queued
  /-- The arguments cannot be encoded. -/
  | unencodable
  /-- The gate refuses the frame. -/
  | refused
  deriving DecidableEq

/-- Where a served call's answer is, with the id of the object in it. -/
inductive Answered
  | idle
  | building (object : Option ℕ)
  | answered (object : Option ℕ)
  /-- A refusal goes instead. -/
  | refused (object : Option ℕ)
  deriving DecidableEq

/-- A side's exports, and what uses them. -/
structure Handing where
  link : State Unit Unit Unit
  call : ℕ → Outgoing
  answer : ℕ → Answered
  /-- The peer's objects released, each with the call it was an argument of. -/
  released : List (ℕ × ℕ)

/-- What can happen. -/
inductive HandingAct
  | begin (call : ℕ) (args : List ObjectArg)
  /-- A permit is had, or is not freed in time. -/
  | permit (call : ℕ) (acquired : Bool)
  /-- A turn of the loop over the arguments. -/
  | hand (call : ℕ)
  /-- An object is lent, or all are. -/
  | lend (call : ℕ)
  | build (call : ℕ) (built : Built)
  /-- The thread writing takes the frame. -/
  | write (call : ℕ)
  | reply (call : ℕ)
  /-- The wait is over: a frame still queued is retracted. -/
  | timeOut (call : ℕ)
  /-- An object handed over is unexported. -/
  | drop (call : ℕ)
  /-- A lend ends, or the call returns. -/
  | unlend (call : ℕ)
  /-- The peer lets an export go, or gives it back. -/
  | peer (id : ℕ)
  /-- A served call answers: with an object of that kind, or with none. -/
  | answer (served : ℕ) (object : Option Described)
  /-- Its reply is built, unless it cannot be encoded or is over the bound. -/
  | encode (served : ℕ) (ok : Bool)
  deriving DecidableEq

namespace Handing

/-- A link that has just started. -/
def start : Handing :=
  ⟨.new, fun _ => ⟨.idle, [], [], [], [], [], .unsent⟩, fun _ => .idle, []⟩

/-- A call changes. -/
def set (s : Handing) (id : ℕ) (call : Outgoing) : Handing :=
  { s with call := Function.update s.call id call }

/-- A call returns with arguments it has not come to: they are dropped, and the peer's among them
released. -/
def release (s : Handing) (id : ℕ) (args : List ObjectArg) : Handing :=
  { s with released := s.released ++ (backs args).map fun remote => (id, remote) }

/-- A turn of the loop over the arguments. -/
def hand (s : Handing) (id : ℕ) : Option Handing :=
  let call := s.call id
  match call.at_ with
  | .handing [] lend => some (s.set id { call with at_ := .lending lend })
  | .handing (.owned .unknown :: args) _ =>
    some ((s.set id { call with at_ := .done }).release id args)
  | .handing (.owned .uncallable :: args) _ =>
    some ((s.set id { call with at_ := .dropping call.handed }).release id args)
  | .handing (.owned .callable :: args) lend =>
    match s.link.export .owned with
    | none => some ((s.set id { call with at_ := .dropping call.handed }).release id args)
    | some (object, link) =>
      some { s.set id { call with
          at_ := .handing args lend
          handed := call.handed ++ [object]
          exported := call.exported ++ [object] } with link }
  | .handing (.back remote :: args) lend =>
    some (s.set id { call with at_ := .handing args lend, given := call.given ++ [remote] })
  | .handing (.lent kind :: args) lend =>
    some (s.set id { call with at_ := .handing args (lend ++ [kind]) })
  | .handing (.lentBack :: args) lend => some (s.set id { call with at_ := .handing args lend })
  | _ => none

/-- `lending` of the last object left. -/
def lend (s : Handing) (id : ℕ) : Option Handing :=
  let call := s.call id
  match call.at_ with
  | .lending lend =>
    match lend.getLast? with
    | none => some (s.set id { call with at_ := .building })
    | some .callable =>
      match s.link.export (.lent ()) with
      | none => some (s.set id { call with at_ := .returning })
      | some (object, link) =>
        some { s.set id { call with
            at_ := .lending lend.dropLast
            lent := object :: call.lent
            exported := call.exported ++ [object] } with link }
    | some _ => some (s.set id { call with at_ := .returning })
  | _ => none

def step (s : Handing) : HandingAct → Option Handing
  | .begin id args =>
    if (s.call id).at_ = .idle then some (s.set id ⟨.begun, args, [], [], [], [], .unsent⟩) else none
  | .permit id acquired =>
    let call := s.call id
    if call.at_ = .begun then
      if acquired then some (s.set id { call with at_ := .handing call.args [] })
      else some ((s.set id { call with at_ := .done }).release id call.args)
    else none
  | .hand id => s.hand id
  | .lend id => s.lend id
  | .build id built =>
    let call := s.call id
    if call.at_ = .building then
      match built with
      | .queued => some (s.set id { call with at_ := .waiting, wire := .queued })
      | _ => some (s.set id { call with at_ := .dropping call.handed })
    else none
  | .write id =>
    let call := s.call id
    if call.wire = .queued then some (s.set id { call with wire := .sent }) else none
  | .reply id =>
    let call := s.call id
    if call.at_ = .waiting ∧ call.wire = .sent then some (s.set id { call with at_ := .returning })
    else none
  | .timeOut id =>
    let call := s.call id
    if call.at_ = .waiting then
      some (s.set id { call with
        at_ := .returning
        wire := if call.wire = .queued then .retracted else call.wire })
    else none
  | .drop id =>
    let call := s.call id
    match call.at_ with
    | .dropping (object :: left) =>
      some { s.set id { call with at_ := .dropping left } with link := (s.link.unexport object).2 }
    | .dropping [] => some (s.set id { call with at_ := .returning })
    | _ => none
  | .unlend id =>
    let call := s.call id
    if call.at_ = .returning then
      match call.lent with
      | object :: lent => some { s.set id { call with lent } with link := (s.link.unexport object).2 }
      | [] => some (s.set id { call with at_ := .done })
    else none
  | .peer id => some { s with link := (s.link.unexport id).2 }
  | .answer served object =>
    if s.answer served = .idle then
      match object with
      | none => some { s with answer := Function.update s.answer served (.building none) }
      | some .callable =>
        match s.link.export .owned with
        | none => some { s with answer := Function.update s.answer served (.refused none) }
        | some (id, link) =>
          some { s with link, answer := Function.update s.answer served (.building (some id)) }
      | some _ => some { s with answer := Function.update s.answer served (.refused none) }
    else none
  | .encode served ok =>
    match s.answer served with
    | .building object =>
      some { s with
        answer := Function.update s.answer served (if ok then .answered object else .refused object) }
    | _ => none

end Handing

end Guatiao.Link
