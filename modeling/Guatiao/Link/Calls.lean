import Guatiao.Link.State
import Guatiao.Lib.Machine

/-!
# This side's calls in flight

A call's thread waits at its mailbox, where the reader puts the call's REPLY and the calls
the peer makes during it. The waiter may give up at any moment the mailbox is empty; the
reader looks a call up under the link's lock and sends to its mailbox after. Each step here
is one thread's, up to what the others can see of it.
-/

namespace Guatiao.Link

open Lib

/-- Of a slot: whether its answer is an object. -/
structure Slot where
  answersObject : Bool
  deriving DecidableEq

/-- A REPLY: the object it hands over, if it does. -/
structure Reply where
  object : Option ObjectRef
  deriving DecidableEq

/-- A CALL the peer makes during one of this side's. -/
structure Nested where
  id : ℕ
  parent : ℕ
  /-- The objects it hands over. -/
  handed : List ObjectRef
  /-- Whether this side knows the slot, and can read the arguments. -/
  readable : Bool
  deriving DecidableEq

/-- What a call that will not run again has settled, each with the call: nothing, where its arguments
cannot be read. -/
def Nested.settled (nested : Nested) : List (ℕ × ObjectRef) :=
  if nested.readable then nested.handed.map fun object => (nested.id, object) else []

/-- What reaches a thread waiting for a call. -/
inductive Inbound
  | reply (reply : Reply)
  | call (nested : Nested)
  deriving DecidableEq

def Inbound.isCall : Inbound → Bool
  | .reply _ => false
  | .call _ => true

/-- How a call that is over ended. -/
inductive Ended
  /-- Its frame was never built. -/
  | unsent
  | answered
  | cancelled
  deriving DecidableEq

/-- Where a call's thread is. -/
inductive Waiter
  | idle
  /-- In `exchange` or `request`, the call registered and its frame being built. -/
  | building
  /-- In `wait`. -/
  | waiting
  /-- In `wait`, running a call made during it. -/
  | running (nested : Nested)
  /-- The time is up; `cancel` has not begun. -/
  | timedOut
  /-- Past the lock section of `cancel`. -/
  | cancelling
  /-- In `wait`, with the reply, the call still registered. -/
  | replied (reply : Reply)
  /-- Back in `exchange`, with the reply. -/
  | decoding (reply : Reply)
  /-- About to return, and to drop the mailbox. -/
  | leaving (how : Ended)
  | done (how : Ended)
  deriving DecidableEq

/-- Where a call's frame is. -/
inductive Wire
  | unsent | queued | sent | retracted
  deriving DecidableEq

/-- One of this side's calls. -/
structure Call where
  at_ : Waiter
  /-- What its mailbox holds, the oldest first. -/
  items : List Inbound
  /-- The slot it calls; none for a request of the link's own. -/
  slot : Option Slot
  wire : Wire
  deriving DecidableEq

/-- Where the reader is in `route`. -/
inductive Reader
  | idle
  /-- It found the call waiting; the reply is not yet sent to the mailbox. -/
  | replying (call : ℕ) (reply : Reply)
  /-- It found the call cancelled. -/
  | settling (call : ℕ) (slot : Slot) (reply : Reply)
  /-- It found the parent waiting; the call is not yet sent to the mailbox. -/
  | calling (nested : Nested)
  deriving DecidableEq

/-- How many of the peer's calls may wait for one of this side's to run them. -/
def maxQueued : ℕ := 64

/-- The calls of one side, and what has come of the objects and calls the peer sent. -/
structure Calls where
  link : State Unit Slot Unit
  nextCall : ℕ
  call : ℕ → Call
  reader : Reader
  /-- The calls whose REPLY has come. -/
  arrived : List ℕ
  /-- The calls whose REPLY has come and hands an object over. -/
  given : List ℕ
  /-- The calls whose answer's object the caller has taken. -/
  taken : List ℕ
  /-- The calls whose answer's object was let go. -/
  released : List ℕ
  /-- The peer's calls that have come. -/
  came : List ℕ
  /-- The peer's calls put in a mailbox. -/
  put : List Nested
  /-- The peer's calls that were in a mailbox and have run. -/
  ran : List Nested
  /-- The peer's calls answered, once for each REPLY sent. -/
  answers : List ℕ
  /-- The peer's calls it cancelled while they ran. -/
  cancelledByPeer : List ℕ
  /-- The objects handed over in calls of the peer's and settled, each with its call: taken by the
  call, or let go. -/
  letGo : List (ℕ × ObjectRef)

/-- What can happen. -/
inductive CallsAct
  /-- A thread begins a call. -/
  | begin (slot : Option Slot)
  /-- Its frame is built, and is the gate's. -/
  | queue (call : ℕ)
  /-- Its frame cannot be built. -/
  | abandon (call : ℕ)
  /-- Its frame goes out. -/
  | send (call : ℕ)
  /-- The waiter takes the oldest item of its mailbox. -/
  | receive (call : ℕ)
  /-- The call it ran is done; `answered` where a REPLY was sent. -/
  | finish (call : ℕ) (answered : Bool)
  | timeOut (call : ℕ)
  /-- The lock section of `cancel`. -/
  | cancel (call : ℕ)
  /-- `cancel` retracts the frame, or sends a CANCEL after it. -/
  | retract (call : ℕ)
  /-- The end of `wait`, with the reply. -/
  | unregister (call : ℕ)
  /-- The caller reads the reply; not `ok` where it cannot make a proxy of the object in it. -/
  | decode (call : ℕ) (ok : Bool)
  | leave (call : ℕ)
  /-- The reader takes a REPLY off the transport, up to the end of its lock section. -/
  | reply (call : ℕ) (reply : Reply)
  /-- The reader takes a CALL made during one of this side's, up to the end of its lock section. -/
  | nested (nested : Nested)
  /-- The reader takes a CANCEL for what a waiter runs. -/
  | peerCancel (call : ℕ)
  /-- The reader finishes what it has looked up. -/
  | read
  deriving DecidableEq

namespace Calls

/-- A link that has just started. -/
def start : Calls :=
  ⟨.new, 1, fun _ => ⟨.idle, [], none, .unsent⟩, .idle, [], [], [], [], [], [], [], [], [], []⟩

/-- A call changes. -/
def set (s : Calls) (id : ℕ) (call : Call) : Calls :=
  { s with call := Function.update s.call id call }

/-- `refuse` of a call of the peer's that will not run: what it handed over is let go, where its
arguments can be read, and it is answered. -/
def refuse (s : Calls) (nested : Nested) : Calls :=
  { s with
    answers := s.answers ++ [nested.id]
    letGo := s.letGo ++ nested.settled }

/-- The reader finishes what it has looked up. -/
def read (s : Calls) : Option Calls :=
  match s.reader with
  | .idle => none
  | .replying id reply =>
    let call := s.call id
    match call.at_ with
    | .done _ => some { s with reader := .idle }
    | _ =>
      some { s.set id { call with items := call.items ++ [.reply reply] } with reader := .idle }
  | .settling id slot reply =>
    if slot.answersObject && reply.object.isSome then
      some { s with reader := .idle, released := s.released ++ [id] }
    else some { s with reader := .idle }
  | .calling nested =>
    let call := s.call nested.parent
    if maxQueued ≤ call.items.countP Inbound.isCall then
      some { s.refuse nested with reader := .idle }
    else
      match call.at_ with
      | .done _ => some { s.refuse nested with reader := .idle }
      | _ =>
        some { s.set nested.parent { call with items := call.items ++ [.call nested] } with
          reader := .idle
          put := s.put ++ [nested] }

/-- The reader takes a REPLY. The peer answers a call once, and with an object only where the
slot's answer is one. -/
def takeReply (s : Calls) (id : ℕ) (reply : Reply) : Option Calls :=
  if s.reader = .idle ∧ (s.call id).wire = .sent ∧ id ∉ s.arrived ∧
      (reply.object.isSome → ((s.call id).slot.any (·.answersObject)) = true) then
    let (routed, link) := s.link.routeReply id
    let reader := match routed with
      | .waiting _ => .replying id reply
      | .late slot => .settling id slot reply
      | .nobody => .idle
    some { s with
      link
      reader
      arrived := s.arrived ++ [id]
      given := if reply.object.isSome then s.given ++ [id] else s.given }
  else none

/-- The reader takes a CALL made during `nested.parent`. -/
def takeCall (s : Calls) (nested : Nested) : Option Calls :=
  if s.reader = .idle ∧ nested.id ∉ s.came then
    let s := { s with came := s.came ++ [nested.id] }
    match s.link.calls.get nested.parent with
    | none => some (s.refuse nested)
    | some _ => some { s with reader := .calling nested }
  else none

def step (s : Calls) : CallsAct → Option Calls
  | .begin slot =>
    (s.link.register s.nextCall ()).map fun link =>
      { s.set s.nextCall ⟨.building, [], slot, .unsent⟩ with link, nextCall := s.nextCall + 1 }
  | .queue id =>
    let call := s.call id
    if call.at_ = .building then some (s.set id { call with at_ := .waiting, wire := .queued }) else none
  | .abandon id =>
    let call := s.call id
    if call.at_ = .building then
      some { s.set id { call with at_ := .leaving .unsent } with link := s.link.forget id }
    else none
  | .send id =>
    let call := s.call id
    if call.wire = .queued then some (s.set id { call with wire := .sent }) else none
  | .receive id =>
    let call := s.call id
    match call.at_, call.items with
    | .waiting, .reply reply :: items => some (s.set id { call with at_ := .replied reply, items })
    | .waiting, .call nested :: items => some (s.set id { call with at_ := .running nested, items })
    | _, _ => none
  | .finish id answered =>
    let call := s.call id
    match call.at_ with
    | .running nested =>
      if answered ∨ nested.id ∈ s.cancelledByPeer then
        some { s.set id { call with at_ := .waiting } with
          ran := s.ran ++ [nested]
          answers := if answered then s.answers ++ [nested.id] else s.answers
          letGo := s.letGo ++ nested.settled }
      else none
    | _ => none
  | .timeOut id =>
    let call := s.call id
    if call.at_ = .waiting ∧ call.items = [] then some (s.set id { call with at_ := .timedOut })
    else none
  | .cancel id =>
    let call := s.call id
    if call.at_ = .timedOut then
      some { s.set id { call with at_ := .cancelling } with link := s.link.cancel id call.slot }
    else none
  | .retract id =>
    let call := s.call id
    if call.at_ = .cancelling then
      some (s.set id { call with
        at_ := .leaving .cancelled
        wire := if call.wire = .queued then .retracted else call.wire })
    else none
  | .unregister id =>
    let call := s.call id
    match call.at_ with
    | .replied reply =>
      some { s.set id { call with at_ := .decoding reply } with link := s.link.forget id }
    | _ => none
  | .decode id ok =>
    let call := s.call id
    match call.at_ with
    | .decoding reply =>
      some { s.set id { call with at_ := .leaving .answered } with
        taken := if reply.object.isSome ∧ ok then s.taken ++ [id] else s.taken }
    | _ => none
  | .leave id =>
    let call := s.call id
    match call.at_ with
    | .leaving how => some (s.set id { call with at_ := .done how, items := [] })
    | _ => none
  | .reply id reply => s.takeReply id reply
  | .nested nested => s.takeCall nested
  | .peerCancel id =>
    match (s.call id).at_ with
    | .running nested =>
      if s.reader = .idle then some { s with cancelledByPeer := s.cancelledByPeer ++ [nested.id] }
      else none
    | _ => none
  | .read => s.read

theorem count_concat_if (added : List ℕ) (id : ℕ) (more : Bool) (j : ℕ) :
    (if more then added ++ [id] else added).count j =
      added.count j + if j = id then more.toNat else 0 := by
  cases more with
  | false => simp
  | true =>
    by_cases hj : j = id
    · rw [hj]
      simp [List.count_append]
    · have hne : id ≠ j := fun heq => hj heq.symm
      simp [List.count_append, hj, hne]

/-- No call has begun under an id yet to be given. -/
def Fresh (s : Calls) : Prop :=
  ∀ id, s.nextCall ≤ id → (s.call id).at_ = .idle

theorem fresh_start : Fresh start := fun _ _ => rfl

variable {s s' : Calls} {act : CallsAct} {id j : ℕ}

theorem idle_set {call : Call} (hidle : (s.call id).at_ = .idle → call.at_ = .idle)
    (hj : (s.call j).at_ = .idle) : ((s.set id call).call j).at_ = .idle := by
  simp only [set]
  by_cases hji : j = id
  · rw [hji] at hj ⊢
    rw [Function.update_self]
    exact hidle hj
  · rw [Function.update_of_ne hji]
    exact hj

theorem step_idle (hstep : step s act = some s') (hact : ∀ slot, act ≠ .begin slot) (j : ℕ) :
    s'.nextCall = s.nextCall ∧ ((s.call j).at_ = .idle → (s'.call j).at_ = .idle) := by
  cases act with
  | begin slot => exact absurd rfl (hact slot)
  | reply id reply =>
    simp only [step, takeReply] at hstep
    split at hstep
    · cases hstep
      exact ⟨rfl, fun hj => hj⟩
    · cases hstep
  | nested nested =>
    simp only [step, takeCall] at hstep
    split at hstep
    · split at hstep <;>
        · cases hstep
          exact ⟨rfl, fun hj => hj⟩
    · cases hstep
  | read =>
    simp only [step, read] at hstep
    repeat' split at hstep
    all_goals cases hstep
    all_goals first
      | exact ⟨rfl, fun hj => hj⟩
      | exact ⟨rfl, fun hj => idle_set (fun hidle => hidle) hj⟩
  | queue id | abandon id | send id | receive id | finish id | timeOut id | cancel id | retract id
  | unregister id | decode id | leave id | peerCancel id =>
    simp only [step] at hstep
    repeat' split at hstep
    all_goals cases hstep
    all_goals first
      | exact ⟨rfl, fun hj => hj⟩
      | exact ⟨rfl, fun hj => idle_set (fun hidle => by simp_all) hj⟩

theorem fresh_step : Kept step Fresh := by
  intro s act s' h hstep j hj
  by_cases hact : ∃ slot, act = .begin slot
  · obtain ⟨slot, hact⟩ := hact
    rw [hact] at hstep
    obtain ⟨link, -, heq⟩ := Option.map_eq_some_iff.mp hstep
    rw [← heq] at hj ⊢
    have hlt : s.nextCall < j := hj
    simp only [set, Function.update_of_ne hlt.ne']
    exact h j hlt.le
  · have hidle := step_idle hstep (fun slot heq => hact ⟨slot, heq⟩) j
    rw [hidle.1] at hj
    exact hidle.2 (h j hj)

end Calls

end Guatiao.Link
