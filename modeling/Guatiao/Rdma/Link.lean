import Guatiao.Lib.Circular
import Guatiao.Lib.Machine

/-!
# A link over RDMA

Each side writes into the other's ring with one-sided writes, a write's length landing with it, and
tells the other how far it has read by writing its position after the ring. One thread of a side
reads and another writes; both post on one send queue, under a lock. Each step here is one access to
what is shared, copies going byte by byte, or one act of a device over a reliable connection.
-/

namespace Guatiao.Rdma

open Lib

/-- Bytes each direction's ring holds. -/
def ring : ℕ := 4 * 2 ^ 20

/-- The largest single write. -/
def chunk : ℕ := 256 * 2 ^ 10

/-- Requests the send queue holds. -/
def sends : ℕ := 256

/-- Receives kept posted. -/
def recvs : ℕ := 256

/-- How far a reader reads before it tells the writer. -/
def creditEvery : ℕ := ring / 4

/-- The request id of a position. -/
def credit : ℕ := 2 ^ 63

/-- Completions a poll takes at most. -/
def polled : ℕ := 16

theorem ring_eq : ring = 4194304 := rfl

theorem ring_pos : 0 < ring := by decide

attribute [irreducible] ring

/-- Where positions wrap. -/
def word : ℕ := 2 ^ 32

theorem word_eq : word = 4294967296 := rfl

theorem word_pos : 0 < word := by decide

attribute [irreducible] word

/-- A position moved on, in 32 bits. -/
def wrappingAdd (a b : ℕ) : ℕ := (a + b) % word

def wrappingSub (a b : ℕ) : ℕ := (a + (word - b)) % word

/-- The bytes a reader holds, unless they are more than the ring does. -/
def held (head tail : ℕ) : Option ℕ :=
  let n := wrappingSub head tail
  if ring < n then none else some n

/-- A request on a send queue. -/
inductive Request
  /-- A write of `n` bytes of staging from an offset to the same offset of the peer's inbox, with
  `n` as its immediate data; its id is where it ends. -/
  | data (at_ n end_ : ℕ)
  /-- The reader's position, written after the peer's inbox. -/
  | position (tail : ℕ)
  deriving DecidableEq

def Request.wrId : Request → ℕ
  | .data _ _ end_ => end_
  | .position _ => credit

/-- The send queue's bookkeeping. -/
structure Sends where
  outstanding : ℕ
  /-- The position up to which this side's writes have completed. -/
  completed : ℕ

/-- A completion taken. -/
def Sends.reap (s : Sends) (wrId : ℕ) : Sends where
  outstanding := s.outstanding - 1
  completed := if wrId &&& credit = 0 then wrId % word else s.completed

/-- Where a read is. -/
inductive ReadAt
  | idle
  /-- At a poll of `drain`: whether it is the last look before sleeping, and whether it has taken
  completions. -/
  | polling (last landed : Bool)
  /-- Going through the completions of a poll. -/
  | draining (last : Bool)
  /-- Nothing had landed. -/
  | empty
  /-- Asleep. -/
  | asleep
  /-- About to copy out. -/
  | taking
  | copying
  /-- About to lock the send queue, to tell its position. -/
  | telling
  /-- Holding the lock. -/
  | posting
  deriving DecidableEq

/-- The reader's thread, with the variables of its read. -/
structure Reader (Byte : Type) where
  at_ : ReadAt
  /-- The bytes its caller still asks for. -/
  want : ℕ
  head : ℕ
  tail : ℕ
  /-- The position last told. -/
  told : ℕ
  ended : Bool
  /-- The lengths of the completions polled. -/
  done : List ℕ
  n : ℕ
  /-- The cells still to copy out. -/
  cells : List ℕ
  copied : List Byte

/-- Where a write is. -/
inductive WriteAt
  | idle
  /-- At the start of `write_some`. -/
  | starting
  /-- About to lock the send queue, to reap it. -/
  | reaping
  /-- About to load the peer's position. -/
  | looking
  /-- There was no room. -/
  | full
  | copying
  /-- About to lock the send queue, to post. -/
  | locking
  /-- Holding the lock. -/
  | posting
  /-- In `shutdown`. -/
  | closing
  deriving DecidableEq

/-- The writer's thread, with the variables of its write. -/
structure Writer (Byte : Type) where
  at_ : WriteAt
  /-- The bytes still to write. -/
  rest : List Byte
  head : ℕ
  completed : ℕ
  n : ℕ
  /-- The bytes still to copy in, and where. -/
  stores : List (ℕ × Byte)

/-- One side of a link. -/
structure Half (Byte : Type) where
  reader : Reader Byte
  writer : Writer Byte
  inbox : ℕ → Byte
  /-- The peer's position, after the inbox. -/
  counter : ℕ
  staging : ℕ → Byte
  sends : Sends
  /-- Requests posted, delivered to the peer, and completed: each in the order posted. -/
  posted : List Request
  delivered : List Request
  completions : List Request
  /-- Receives posted. -/
  receives : ℕ
  /-- The lengths of the writes that took one, not polled yet. -/
  landed : List ℕ
  /-- Whether the next one raises an event, and the events raised. -/
  armed : Bool
  events : ℕ
  gone : Bool
  /-- Whether the side channel has ended. -/
  side : Bool
  /-- Every byte posted, and every byte read. -/
  wrote : List Byte
  got : List Byte
  /-- The bytes the peer has claimed to have written, as far as its claims were taken in. -/
  claimed : ℕ

section Reader

variable {Byte : Type}

/-- The next round of `read_exact`. -/
def Reader.next (r : Reader Byte) : Reader Byte :=
  if r.want = 0 then { r with at_ := .idle }
  else
    (held r.head r.tail).elim { r with at_ := .idle } fun h =>
      { r with at_ := if h = 0 then .polling false false else .taking }

/-- `fill` has found that bytes landed. -/
def Reader.filled (r : Reader Byte) : Reader Byte :=
  { r with at_ := if r.want = 0 then .idle else .taking }

/-- The frame to read begins: bytes are waited for where none are held. -/
def Reader.more (r : Reader Byte) : Reader Byte :=
  (held r.head r.tail).elim r fun h =>
    if h = 0 then { r with at_ := .polling false false, want := 0 } else r

/-- So many bytes are to be copied out. -/
def Reader.taking (r : Reader Byte) (n : ℕ) : Reader Byte :=
  { r with at_ := .copying, n, cells := List.range' (r.tail % ring) n, copied := [] }

/-- `take`, up to its copy. -/
def Reader.take (r : Reader Byte) : Reader Byte :=
  (held r.head r.tail).elim { r with at_ := .idle } fun h =>
    r.taking (min (min h r.want) (ring - r.tail % ring))

/-- `take`, past its copy. -/
def Reader.took (r : Reader Byte) : Reader Byte :=
  let r := { r with tail := wrappingAdd r.tail r.n, want := r.want - r.n, copied := [] }
  if creditEvery ≤ wrappingSub r.tail r.told then { r with at_ := .telling, told := r.tail } else r.next

namespace Half

/-- Whether no thread of a side holds the send queue's lock. -/
def unlocked (h : Half Byte) : Bool := h.reader.at_ ≠ .posting ∧ h.writer.at_ ≠ .posting

/-- The send queue's completions taken. -/
def reap (h : Half Byte) : Half Byte :=
  { h with
    sends := h.completions.foldl (fun s r => s.reap r.wrId) h.sends
    completions := [] }

/-- A request posted. -/
def post (h : Half Byte) (r : Request) : Half Byte :=
  { h with
    posted := h.posted ++ [r]
    sends := { h.sends with outstanding := h.sends.outstanding + 1 } }

/-- The reader's next access. -/
def stepReader (h : Half Byte) : Option (Half Byte) :=
  let r := h.reader
  match r.at_ with
  | .idle => none
  | .polling last landed =>
    match h.landed with
    | [] =>
      if landed then some { h with reader := r.filled }
      else if last then some { h with reader := { r with at_ := .asleep } }
      else some { h with reader := { r with at_ := .empty } }
    | _ :: _ =>
      some { h with
        reader := { r with at_ := .draining last, done := h.landed.take polled }
        landed := h.landed.drop polled }
  | .draining last =>
    match r.done with
    | n :: done =>
      some { h with
        reader := { r with head := wrappingAdd r.head n, done }
        receives := h.receives + 1
        claimed := h.claimed + n }
    | [] =>
      let at_ := (held r.head r.tail).elim .idle fun _ => .polling last true
      some { h with reader := { r with at_ } }
  | .empty =>
    some { h with reader := { r with at_ := if r.ended then .idle else .polling false false } }
  | .asleep =>
    if h.events = 0 ∧ h.side = false then none
    else
      some { h with
        reader := { r with at_ := .polling false false, ended := r.ended || h.side }
        events := h.events - 1
        gone := h.gone || h.side }
  | .taking => some { h with reader := r.take }
  | .copying =>
    match r.cells with
    | cell :: cells =>
      some { h with reader := { r with cells, copied := r.copied ++ [h.inbox cell] } }
    | [] => some { h with reader := r.took, got := h.got ++ r.copied }
  | .telling => if h.unlocked then some { h with reader := { r with at_ := .posting } } else none
  | .posting =>
    let h := h.reap
    if h.sends.outstanding < Rdma.sends then
      some { h.post (.position r.tail) with reader := r.next }
    else if h.gone then some { h with reader := { r with at_ := .idle } }
    else some h

end Half

end Reader

section Writer

variable {Byte : Type}

/-- So many bytes are to be copied in. -/
def Writer.accept (w : Writer Byte) (n : ℕ) : Writer Byte :=
  { w with at_ := .copying, n, stores := (List.range' (w.head % ring) n).zip (w.rest.take n) }

/-- The writer has loaded the peer's position: it takes as much as there is room for, or fails. -/
def Writer.look (w : Writer Byte) (counter : ℕ) : Writer Byte :=
  let read := wrappingSub w.head counter
  if ring < read then { w with at_ := .idle }
  else
    let used := max read (wrappingSub w.head w.completed)
    if used < ring then
      w.accept (min (min (min (ring - used) w.rest.length) (ring - w.head % ring)) chunk)
    else { w with at_ := .full }

/-- The bytes of the request a write posts. -/
def Writer.request (w : Writer Byte) : Request :=
  .data (w.head % ring) w.n (wrappingAdd w.head w.n)

/-- What was taken is posted. -/
def Writer.wrote (w : Writer Byte) : Writer Byte :=
  { w with
    at_ := if w.rest.drop w.n = [] then .idle else .starting
    rest := w.rest.drop w.n
    head := wrappingAdd w.head w.n }

/-- The writer's next access. -/
def Half.stepWriter (h : Half Byte) : Option (Half Byte) :=
  let w := h.writer
  match w.at_ with
  | .idle => none
  | .starting =>
    some { h with writer := { w with at_ := if h.gone then .idle else .reaping } }
  | .reaping =>
    if h.unlocked then
      let h := h.reap
      some { h with writer := { w with at_ := .looking, completed := h.sends.completed } }
    else none
  | .looking => some { h with writer := w.look h.counter }
  | .full => some { h with writer := { w with at_ := if h.gone then .idle else .reaping } }
  | .copying =>
    match w.stores with
    | (cell, b) :: stores =>
      some { h with
        staging := Function.update h.staging cell b
        writer := { w with stores } }
    | [] => some { h with writer := { w with at_ := .locking } }
  | .locking => if h.unlocked then some { h with writer := { w with at_ := .posting } } else none
  | .posting =>
    let h := h.reap
    if h.sends.outstanding < Rdma.sends then
      some { h.post w.request with writer := w.wrote, wrote := h.wrote ++ w.rest.take w.n }
    else if h.gone then some { h with writer := { w with at_ := .idle } }
    else some h
  | .closing => if h.unlocked then some h.reap else none

end Writer

/-- The two ends of a link. -/
inductive Side
  | near
  | far
  deriving DecidableEq

def Side.peer : Side → Side
  | .near => .far
  | .far => .near

@[simp] theorem Side.peer_peer (s : Side) : s.peer.peer = s := by cases s <;> rfl

@[simp] theorem Side.peer_ne (s : Side) : s.peer ≠ s := by cases s <;> decide

/-- A link: both its sides. -/
abbrev Link (Byte : Type) := Side → Half Byte

/-- What can happen. -/
inductive Act (Byte : Type)
  /-- A read of so many bytes begins. -/
  | read (s : Side) (want : ℕ)
  /-- A frame's read begins. -/
  | more (s : Side)
  /-- The reader's next access. -/
  | reader (s : Side)
  /-- The reader has polled for long enough: it arms the queue for a last look. -/
  | arm (s : Side)
  /-- A signal wakes the reader, or the time it may wait is up. -/
  | stir (s : Side)
  | timeOut (s : Side)
  /-- A write begins. -/
  | write (s : Side) (bytes : List Byte)
  /-- The writer's next access. -/
  | writer (s : Side)
  /-- The peer has taken nothing in for too long. -/
  | giveUp (s : Side)
  /-- The writer shuts the link down. -/
  | shut (s : Side)
  /-- The link is ended from a side. -/
  | close (s : Side)
  /-- A side's device stores a byte of a request before the whole is delivered. -/
  | place (s : Side) (j k : ℕ)
  /-- A side's device delivers its first request. -/
  | deliver (s : Side)
  /-- A side's device completes the first request delivered. -/
  | complete (s : Side)
  /-- A peer that keeps to nothing claims to have written so many bytes. -/
  | claim (s : Side) (n : ℕ)
  /-- Such a peer writes a position. -/
  | say (s : Side) (position : ℕ)
  /-- Such a peer writes over the inbox. -/
  | scribble (s : Side) (inbox : ℕ → Byte)

namespace Link

variable {Byte : Type}

/-- A side with nothing sent. -/
def startHalf (b : Byte) : Half Byte where
  reader := ⟨.idle, 0, 0, 0, 0, false, [], 0, [], []⟩
  writer := ⟨.idle, [], 0, 0, 0, []⟩
  inbox _ := b
  counter := 0
  staging _ := b
  sends := ⟨0, 0⟩
  posted := []
  delivered := []
  completions := []
  receives := recvs
  landed := []
  armed := false
  events := 0
  gone := false
  side := false
  wrote := []
  got := []
  claimed := 0

/-- A link that is set up. -/
def start (b : Byte) : Link Byte := fun _ => startHalf b

/-- A write of so many bytes lands, taking a receive. -/
def land (h : Half Byte) (n : ℕ) : Half Byte :=
  { h with
    receives := h.receives - 1
    landed := h.landed ++ [n]
    armed := false
    events := if h.armed then h.events + 1 else h.events }

/-- A request delivered to the peer: a write takes a receive, and waits for one. -/
def receive (sender receiver : Half Byte) : Request → Option (Half Byte)
  | .position p => some { receiver with counter := p }
  | .data at_ n _ =>
    if receiver.receives = 0 then none
    else some { land receiver n with inbox := Circular.overlay receiver.inbox sender.staging at_ n }

/-- One side moves. -/
def move (l : Link Byte) (s : Side) (h : Option (Half Byte)) : Option (Link Byte) :=
  h.map (Function.update l s)

def step (l : Link Byte) : Act Byte → Option (Link Byte)
  | .read s want =>
    move l s <|
      if (l s).reader.at_ = .idle then
        some { l s with reader := { (l s).reader with want }.next }
      else none
  | .more s =>
    move l s <|
      if (l s).reader.at_ = .idle then some { l s with reader := (l s).reader.more } else none
  | .reader s => move l s (l s).stepReader
  | .arm s =>
    move l s <|
      if (l s).reader.at_ = .empty ∧ (l s).reader.ended = false then
        some { l s with
          reader := { (l s).reader with at_ := .polling true false }
          armed := true }
      else none
  | .stir s =>
    move l s <|
      if (l s).reader.at_ = .asleep then
        some { l s with reader := { (l s).reader with at_ := .polling false false } }
      else none
  | .timeOut s =>
    move l s <|
      if (l s).reader.at_ = .asleep then
        some { l s with reader := { (l s).reader with at_ := .idle } }
      else none
  | .write s bytes =>
    move l s <|
      if (l s).writer.at_ = .idle then
        if bytes = [] then some (l s)
        else some { l s with writer := { (l s).writer with at_ := .starting, rest := bytes } }
      else none
  | .writer s => move l s (l s).stepWriter
  | .giveUp s =>
    move l s <|
      if (l s).writer.at_ = .full then
        some { l s with writer := { (l s).writer with at_ := .idle } }
      else none
  | .shut s =>
    move l s <|
      if (l s).writer.at_ = .idle then
        some { l s with writer := { (l s).writer with at_ := .closing } }
      else none
  | .close s =>
    let at_ := if (l s).writer.at_ = .closing then .idle else (l s).writer.at_
    some (Function.update
      (Function.update l s
        { l s with gone := true, side := true, writer := { (l s).writer with at_ } })
      s.peer { l s.peer with side := true })
  | .place s j k =>
    match (l s).posted[j]? with
    | some (.data at_ n _) =>
      if k < n then
        move l s.peer <| some { l s.peer with
          inbox := Function.update (l s.peer).inbox (at_ + k) ((l s).staging (at_ + k)) }
      else none
    | _ => none
  | .deliver s =>
    match (l s).posted with
    | [] => none
    | r :: rest =>
      (receive (l s) (l s.peer) r).map fun peer =>
        Function.update
          (Function.update l s { l s with posted := rest, delivered := (l s).delivered ++ [r] })
          s.peer peer
  | .complete s =>
    match (l s).delivered with
    | [] => none
    | r :: rest =>
      move l s <| some { l s with
        delivered := rest
        completions := (l s).completions ++ [r] }
  | .claim s n =>
    move l s <| if (l s).receives = 0 then none else some (land (l s) (n % word))
  | .say s position => move l s <| some { l s with counter := position % word }
  | .scribble s inbox => move l s <| some { l s with inbox }

end Link

/-- An action of sides that keep to the ring. -/
def Act.keeps {Byte : Type} : Act Byte → Bool
  | .claim .. | .say .. | .scribble .. => false
  | _ => true

end Guatiao.Rdma
