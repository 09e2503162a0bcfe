import Guatiao.Lib.Locks
import Guatiao.Lib.Machine

/-!
# Entering objects held for the peer

An object this side holds for the peer lies behind a lock, beside a marker for the thread
that is inside a call of it. A thread that serves a call enters the objects the call lends
back, one after the other, and then the object it is made on. Each step here is one access
to a lock or a marker; what an object's own code does is left open, and may serve further
calls on the same thread.
-/

namespace Guatiao.Link

open Lib

/-- What an argument that is one of this side's own objects, lent, was exported as. -/
inductive OwnLent (Obj : Type)
  | owned (object : Obj)
  | lent
  deriving DecidableEq

/-- What a call is made on. -/
inductive Callee (Obj : Type)
  | table
  | owned (object : Obj)
  | lent
  deriving DecidableEq

/-- Where a thread is in `serve`, and in the `call_export` it makes. -/
inductive Serving (Obj : Type)
  /-- At `enter` of the next argument, or past the last. -/
  | entering
  /-- In `enter`: the marker did not name this thread; it waits for the lock. -/
  | locking (object : Obj)
  /-- In `enter`: the lock is taken, the marker not yet set. -/
  | marking (object : Obj)
  /-- About to make the call, in `call_export` at `enter`. -/
  | calling
  | lockingCallee (object : Obj)
  | markingCallee (object : Obj)
  /-- The callee's code runs, with the object entered for it; none does where the object has been
  given back. -/
  | running (entered : Option Obj)
  /-- In `call_export`: the lock is given up, the marker not yet cleared. -/
  | clearingCallee (object : Obj)
  /-- The call is made; the arguments' locks are given up one by one. -/
  | leaving
  /-- An argument's lock is given up, its marker not yet cleared. -/
  | clearing (object : Obj)
  /-- `serve` returns early, or unwinds: what is left of `guards` is dropped. -/
  | failing
  deriving DecidableEq

/-- One call being served. -/
structure Serve (Obj : Type) where
  /-- The arguments still to be entered. -/
  ownLent : List (OwnLent Obj)
  guards : List Obj
  callee : Callee Obj
  at_ : Serving Obj
  deriving DecidableEq

/-- The locks and markers of all objects, and what each thread is serving, the innermost call
first. -/
structure Entry (Tid Obj : Type) where
  /-- Who has an object's lock for a call. -/
  holder : Obj → Option Tid
  inside : Obj → Option Tid
  /-- Whether the object is still there: one given back has been taken out. -/
  present : Obj → Bool
  stack : Tid → List (Serve Obj)

namespace Entry

variable {Tid Obj : Type} [DecidableEq Tid] [DecidableEq Obj]

/-- Nothing is being served. -/
def start : Entry Tid Obj := ⟨fun _ => none, fun _ => none, fun _ => true, fun _ => []⟩

/-- Whether `serve` returns early here: the next argument is an object lent to the peer, or one
this thread is inside, or all are entered and one of them has been given back. -/
def fails (s : Entry Tid Obj) (t : Tid) (f : Serve Obj) : Bool :=
  match f.at_, f.ownLent with
  | .entering, .lent :: _ => true
  | .entering, .owned object :: _ => s.inside object = some t
  | .entering, [] => f.guards.any (!s.present ·)
  | _, _ => false

/-- A thread goes on in its innermost call. -/
def put (s : Entry Tid Obj) (t : Tid) (f : Serve Obj) (rest : List (Serve Obj)) : Entry Tid Obj :=
  { s with stack := Function.update s.stack t (f :: rest) }

def lock (s : Entry Tid Obj) (object : Obj) (holder : Option Tid) : Entry Tid Obj :=
  { s with holder := Function.update s.holder object holder }

def mark (s : Entry Tid Obj) (object : Obj) (inside : Option Tid) : Entry Tid Obj :=
  { s with inside := Function.update s.inside object inside }

/-- The next access of a thread that is not in the callee's code. -/
def next (s : Entry Tid Obj) (t : Tid) (f : Serve Obj) (rest : List (Serve Obj)) :
    Option (Entry Tid Obj) :=
  match f.at_ with
  | .entering =>
    if s.fails t f then some (s.put t { f with at_ := .failing } rest)
    else
      match f.ownLent with
      | .owned object :: more =>
        some (s.put t { f with ownLent := more, at_ := .locking object } rest)
      | _ => some (s.put t { f with at_ := .calling } rest)
  | .locking object =>
    if s.holder object = none then
      some ((s.put t { f with at_ := .marking object } rest).lock object (some t))
    else none
  | .marking object =>
    some ((s.put t { f with guards := f.guards ++ [object], at_ := .entering } rest).mark object
      (some t))
  | .calling =>
    match f.callee with
    | .owned object =>
      if s.inside object = some t then some (s.put t { f with at_ := .leaving } rest)
      else some (s.put t { f with at_ := .lockingCallee object } rest)
    | _ => some (s.put t { f with at_ := .running none } rest)
  | .lockingCallee object =>
    if s.holder object = none then
      some ((s.put t { f with at_ := .markingCallee object } rest).lock object (some t))
    else none
  | .markingCallee object =>
    some ((s.put t { f with at_ := .running (some object) } rest).mark object (some t))
  | .running _ => none
  | .clearingCallee object => some ((s.put t { f with at_ := .leaving } rest).mark object none)
  | .leaving =>
    match f.guards with
    | [] => some { s with stack := Function.update s.stack t rest }
    | object :: guards =>
      some ((s.put t { f with guards, at_ := .clearing object } rest).lock object none)
  | .clearing object => some ((s.put t { f with at_ := .leaving } rest).mark object none)
  | .failing =>
    match f.guards with
    | [] => some { s with stack := Function.update s.stack t rest }
    | object :: guards => some ((s.put t { f with guards } rest).lock object none)

/-- The callee's code ends: the object entered for it is given up. -/
def ends (s : Entry Tid Obj) (t : Tid) (f : Serve Obj) (rest : List (Serve Obj)) (entered : Option Obj)
    (panics : Bool) : Entry Tid Obj :=
  match entered with
  | none => s.put t { f with at_ := if panics then .failing else .leaving } rest
  | some object =>
    (s.put t { f with at_ := if panics then .failing else .clearingCallee object } rest).lock object
      none

/-- Whether a thread can serve a call now: it serves none, or an object's code runs on it. -/
def canServe (s : Entry Tid Obj) : List (Serve Obj) → Bool
  | [] => true
  | f :: _ =>
    match f.at_ with
    | .running none => true
    | .running (some object) => s.present object
    | _ => false

/-- What can happen. -/
inductive Act (Tid Obj : Type)
  /-- A thread comes to serve a call, whose arguments and callee it has found. -/
  | serve (t : Tid) (ownLent : List (OwnLent Obj)) (callee : Callee Obj)
  | next (t : Tid)
  /-- The callee's code returns. -/
  | returns (t : Tid)
  | panics (t : Tid)
  /-- `take_export`: an object is given back, and taken out of its cell. -/
  | takeExport (object : Obj)

def step (s : Entry Tid Obj) : Act Tid Obj → Option (Entry Tid Obj)
  | .serve t ownLent callee =>
    if s.canServe (s.stack t) then some (s.put t ⟨ownLent, [], callee, .entering⟩ (s.stack t))
    else none
  | .next t =>
    match s.stack t with
    | [] => none
    | f :: rest => s.next t f rest
  | .returns t =>
    match s.stack t with
    | ⟨ownLent, guards, callee, .running entered⟩ :: rest =>
      some (s.ends t ⟨ownLent, guards, callee, .running entered⟩ rest entered false)
    | _ => none
  | .panics t =>
    match s.stack t with
    | ⟨ownLent, guards, callee, .running entered⟩ :: rest =>
      some (s.ends t ⟨ownLent, guards, callee, .running entered⟩ rest entered true)
    | _ => none
  | .takeExport object =>
    if s.holder object = none then
      some { s with present := Function.update s.present object false }
    else none

end Entry

end Guatiao.Link
