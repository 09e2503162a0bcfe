import Guatiao.Lib.SortedMap

/-!
# A link's state

What a link keeps behind its lock: the calls this side waits for, those it stopped waiting
for, and the objects it holds for the peer. Each function here is what the source does
while it holds that lock, so each is one step of the thread that calls it.
-/

namespace Guatiao.Link

open Lib

/-- An object this side holds for the peer. What an owned one holds lies in a cell of its
own, behind a lock of its own. -/
inductive Export (Obj : Type)
  /-- Handed over or answered: held until the peer releases it. -/
  | owned
  /-- Lent for one of this side's calls. -/
  | lent (handle : Obj)
  deriving DecidableEq

/-- A reference to an object, as a frame spells it. -/
inductive ObjectRef
  /-- One of the sender's, under the id it exported it as. -/
  | senders (id : ℕ)
  /-- One of the receiver's, under the id it exported it as. -/
  | receivers (id : ℕ)
  deriving DecidableEq

/-- The state of a link. The ids, 64-bit numbers counted up from 1, are never used up. -/
structure State (Mailbox Slot Obj : Type) where
  alive : Bool
  /-- This side's calls in flight. -/
  calls : SortedMap ℕ Mailbox
  /-- Calls this side stopped waiting for, until their answer arrives. -/
  cancelled : SortedMap ℕ Slot
  exports : SortedMap ℕ (Export Obj)
  nextExport : ℕ

/-- How many cancelled calls are remembered for their late answers. -/
def cancelledMax : ℕ := 4096

namespace State

variable {Mailbox Slot Obj : Type}

/-- A link that has just started. -/
def new : State Mailbox Slot Obj := ⟨true, .empty, .empty, .empty, 0⟩

/-- `export`: a new id for an object, unless the link has ended. -/
def «export» (s : State Mailbox Slot Obj) (object : Export Obj) :
    Option (ℕ × State Mailbox Slot Obj) :=
  if s.alive then
    some (s.nextExport + 1,
      { s with nextExport := s.nextExport + 1, exports := s.exports.insert (s.nextExport + 1) object })
  else none

/-- `unexport`, and the lock section of `take_export`: what was exported as `id`, which leaves
the table. -/
def unexport (s : State Mailbox Slot Obj) (id : ℕ) : Option (Export Obj) × State Mailbox Slot Obj :=
  (s.exports.get id, { s with exports := s.exports.remove id })

/-- The lock section of `let_go` for an object of this side's: only an owned one leaves. -/
def letGo (s : State Mailbox Slot Obj) (id : ℕ) : State Mailbox Slot Obj :=
  match s.exports.get id with
  | some .owned => (s.unexport id).2
  | _ => s

/-- A call in flight and its mailbox, unless the link has ended. -/
def register (s : State Mailbox Slot Obj) (id : ℕ) (mailbox : Mailbox) :
    Option (State Mailbox Slot Obj) :=
  if s.alive then some { s with calls := s.calls.insert id mailbox } else none

/-- A call nobody waits for any more. -/
def forget (s : State Mailbox Slot Obj) (id : ℕ) : State Mailbox Slot Obj :=
  { s with calls := s.calls.remove id }

/-- The lock section of `cancel`: a call made through a slot is remembered until its answer comes,
and the one of the lowest id forgotten for it where too many are. -/
def cancel (s : State Mailbox Slot Obj) (id : ℕ) (slot : Option Slot) : State Mailbox Slot Obj :=
  match slot with
  | none => s.forget id
  | some slot =>
    let cancelled := if cancelledMax ≤ s.cancelled.entries.length then s.cancelled.popFirst
      else s.cancelled
    { s.forget id with cancelled := cancelled.insert id slot }

/-- Who a REPLY is for. -/
inductive Routed (Mailbox Slot : Type)
  | waiting (mailbox : Mailbox)
  /-- The call was cancelled. -/
  | late (slot : Slot)
  | nobody
  deriving DecidableEq

/-- The lock section of `route` for a REPLY. -/
def routeReply (s : State Mailbox Slot Obj) (call : ℕ) : Routed Mailbox Slot × State Mailbox Slot Obj :=
  match s.calls.get call with
  | some mailbox => (.waiting mailbox, s)
  | none =>
    match s.cancelled.get call with
    | some slot => (.late slot, { s with cancelled := s.cancelled.remove call })
    | none => (.nobody, s)

/-- The lock section of `end`: nothing is held and nobody is waited for any more. -/
def finish (s : State Mailbox Slot Obj) : State Mailbox Slot Obj :=
  if s.alive then { s with alive := false, calls := .empty, cancelled := .empty, exports := .empty }
  else s

end State

end Guatiao.Link
