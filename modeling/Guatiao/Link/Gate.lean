import Guatiao.Lib.Machine
import Mathlib.Data.List.Nodup

/-!
# The send gate

The link's writer and the frames waiting for it. A thread that finds the writer at rest
takes it and writes until nothing is queued; one that finds it gone leaves its frame for
the thread writing. What happens under the gate's lock is one step, and so is a write,
which takes place outside the lock, so the steps of any number of threads interleave.
-/

namespace Guatiao.Link

open Lib

/-- A frame waiting for the writer. -/
structure Queued where
  /-- The call it starts (0: none). -/
  call : ℕ
  head : List UInt8
  /-- The frame's last bytes: a vector and where in it they start. -/
  tail : Option (List UInt8 × ℕ)
  /-- How many frames were queued before it, which no function of the gate reads. -/
  ticket : ℕ
  deriving DecidableEq

/-- The bytes of a frame. -/
def Queued.bytes (q : Queued) : List UInt8 :=
  match q.tail with
  | none => q.head
  | some (tail, start) => q.head ++ tail.drop start

/-- A call on the writer. -/
inductive FrameWrite
  | writeFrames (frames : List (List UInt8))
  | writeFrameParts (head tail : List UInt8)
  deriving DecidableEq

/-- The frames one call hands to the writer, the parts of a frame next to each other. -/
def FrameWrite.frames : FrameWrite → List (List UInt8)
  | .writeFrames frames => frames
  | .writeFrameParts head tail => [head ++ tail]

/-- The whole frames gathered so far, written together. -/
def flushed : List (List UInt8) → List FrameWrite
  | [] => []
  | whole => [.writeFrames whole]

/-- The calls `write_batch` makes after gathering `whole`, and whether it comes to its end:
a tail that starts past the end of its vector panics. -/
def writeBatch : List Queued → List (List UInt8) → List FrameWrite × Bool
  | [], whole => (flushed whole, true)
  | q :: rest, whole =>
    match q.tail with
    | none => writeBatch rest (whole ++ [q.head])
    | some (tail, start) =>
      if start ≤ tail.length then
        let (calls, finished) := writeBatch rest []
        (flushed whole ++ .writeFrameParts q.head (tail.drop start) :: calls, finished)
      else
        (flushed whole, false)

/-- The gate's state, behind its lock. -/
structure Gate where
  /-- Whether the writer is at rest here; `false` while a thread writes. -/
  writer : Bool
  /-- Frames for the thread writing, in order. -/
  queued : List Queued
  /-- The last batch's vector, kept for the next. -/
  spare : List Queued
  closed : Bool
  deriving DecidableEq

namespace Gate

def new : Gate := ⟨true, [], [], false⟩

/-- The lock section of `queue`: `none` once closed, else whether the writer was there. -/
def queue (g : Gate) (frame : Queued) : Option (Bool × Gate) :=
  if g.closed then none
  else some (g.writer, { g with queued := g.queued ++ [frame], writer := false })

/-- The lock section of `send_parts`: `none` once closed, else whether the writer was there. -/
def takeWriter (g : Gate) : Option (Bool × Gate) :=
  if g.closed then none else some (g.writer, { g with writer := false })

/-- `retract`: takes back the first frame queued for `call`, and says whether there was one. -/
def retract (g : Gate) (call : ℕ) : Bool × Gate :=
  (g.queued.any (·.call == call), { g with queued := g.queued.eraseP (·.call == call) })

/-- `close`: refuses every later frame; what is queued is left to the thread writing. -/
def close (g : Gate) : Gate :=
  { g with closed := true, queued := if g.writer then [] else g.queued }

/-- `failed`: nothing more goes through the writer, which comes back. -/
def failed (g : Gate) : Gate :=
  { g with closed := true, queued := [], writer := true }

/-- The lock section of `drain`, with the last batch's vector, or a new one that holds
nothing yet: the batch to write, or `none` where the writer goes back. -/
def drain (g : Gate) (vector : Option (List Queued)) : Option (List Queued) × Gate :=
  if g.queued = [] then
    (none, { g with spare := [], writer := true })
  else match vector with
    -- no capacity yet: the spare vector is taken as it is
    | none => (some g.queued, { g with queued := g.spare, spare := [] })
    | some _ => (some g.queued, { g with queued := [] })

end Gate

/-- Where a thread is. -/
inductive Pc
  /-- In no function of the gate. -/
  | outside
  /-- `send_parts` found the writer gone and copies the tail behind the head. -/
  | copying (frame : Queued)
  /-- `send_parts` has the writer and writes the frame's two parts. -/
  | parts (frame : Queued)
  /-- `drain` has the writer and is about to lock. -/
  | draining (vector : Option (List Queued))
  /-- `drain` has the writer and writes a batch. -/
  | writing (batch : List Queued)
  /-- `try_with` has the writer and runs what it was given. -/
  | using
  /-- A write failed, and `failed` is about to lock. -/
  | failing
  deriving DecidableEq

/-- Whether the thread has the writer. -/
def Pc.holds : Pc → Bool
  | .outside | .copying _ => false
  | .parts _ | .draining _ | .writing _ | .using | .failing => true

/-- Whether the thread has a write under way. -/
def Pc.writes : Pc → Bool
  | .parts _ | .writing _ => true
  | .outside | .copying _ | .draining _ | .using | .failing => false

/-- What the thread has taken to write and not written. -/
def Pc.taken : Pc → List Queued
  | .parts frame => [frame]
  | .writing batch => batch
  | _ => []

/-- The calls on the writer a thread is about to make, and whether it comes to their end. -/
def Pc.calls : Pc → List FrameWrite × Bool
  | .parts frame => writeBatch [frame] []
  | .writing batch => writeBatch batch []
  | _ => ([], true)

/-- A thread's next step, with what the step leaves open. -/
inductive Move
  /-- `send` or `send_with_tail` up to the end of its lock section. -/
  | send (call : ℕ) (head : List UInt8) (tail : Option (List UInt8 × ℕ))
  /-- `send_parts` up to the end of its lock section. -/
  | sendParts (call : ℕ) (head tail : List UInt8)
  /-- The tail is copied, and the frame queued as `send` does. -/
  | copied
  /-- The write under way comes back. -/
  | wrote
  /-- The write under way fails, or panics, after `calls` calls on the writer. -/
  | writeFails (calls : ℕ)
  /-- The lock section of `drain`. -/
  | drain
  /-- The lock section of `failed`. -/
  | failed
  | retract (call : ℕ)
  | tryWith
  /-- What `try_with` was given returns. -/
  | used
  | close
  deriving DecidableEq

variable {Tid : Type} [DecidableEq Tid]

/-- The gate, the threads at it, and what has come of each frame. -/
structure Senders (Tid : Type) where
  gate : Gate
  pc : Tid → Pc
  /-- The calls on the writer, in order. -/
  written : List FrameWrite
  /-- The frames taken in, in order. -/
  accepted : List Queued
  /-- The tickets of the frames taken back. -/
  retracted : List ℕ
  /-- The frames given to the writer, in order. -/
  handed : List Queued
  /-- The frames given up when a write failed. -/
  dropped : List Queued
  /-- Whether a write has failed. -/
  broken : Bool

namespace Senders

/-- No frame sent yet, and no thread at the gate. -/
def start : Senders Tid :=
  ⟨.new, fun _ => .outside, [], [], [], [], [], false⟩

/-- The frames taken in and not taken back, in order. -/
def due (s : Senders Tid) : List Queued :=
  s.accepted.filter fun q => q.ticket ∉ s.retracted

/-- The thread `t` goes to `pc`. -/
def goTo (s : Senders Tid) (t : Tid) (pc : Pc) : Senders Tid :=
  { s with pc := Function.update s.pc t pc }

/-- The lock section of `queue`: one refused goes back, one taken in is left to the thread
writing or makes its sender that thread. -/
def queue (s : Senders Tid) (t : Tid) (frame : Queued) : Senders Tid :=
  match s.gate.queue frame with
  | none => s.goTo t .outside
  | some (writer, gate) =>
    { s with gate, accepted := s.accepted ++ [frame] }.goTo t
      (if writer then .draining none else .outside)

/-- The lock section of `send_parts`: the frame is written at once where the writer is. -/
def sendParts (s : Senders Tid) (t : Tid) (frame : Queued) : Senders Tid :=
  match s.gate.takeWriter with
  | none => s
  | some (true, gate) => { s with gate, accepted := s.accepted ++ [frame] }.goTo t (.parts frame)
  | some (false, gate) => { s with gate }.goTo t (.copying frame)

/-- The thread's calls on the writer come back, and it drains what was queued meanwhile. -/
def wrote (s : Senders Tid) (t : Tid) : Senders Tid :=
  { s with
    written := s.written ++ (s.pc t).calls.1
    handed := s.handed ++ (s.pc t).taken }.goTo t
      (.draining (match s.pc t with
        | .writing batch => some batch
        | _ => none))

/-- The thread's last call on the writer fails: the frames handed over up to it, and those
that now never will be. -/
def writeFails (s : Senders Tid) (t : Tid) (calls : ℕ) : Senders Tid :=
  let made := (s.pc t).calls.1.take calls
  let count := (made.flatMap FrameWrite.frames).length
  { s with
    written := s.written ++ made
    handed := s.handed ++ (s.pc t).taken.take count
    dropped := (s.pc t).taken.drop count
    broken := true }.goTo t .failing

/-- The lock section of `drain`. -/
def drain (s : Senders Tid) (t : Tid) (vector : Option (List Queued)) : Senders Tid :=
  match s.gate.drain vector with
  | (none, gate) => { s with gate }.goTo t .outside
  | (some batch, gate) => { s with gate }.goTo t (.writing batch)

/-- `failed`: what was queued is given up. -/
def failed (s : Senders Tid) (t : Tid) : Senders Tid :=
  { s with gate := s.gate.failed, dropped := s.dropped ++ s.gate.queued }.goTo t .outside

/-- `retract`, and which frame it took back. -/
def retract (s : Senders Tid) (call : ℕ) : Senders Tid :=
  { s with
    gate := (s.gate.retract call).2
    retracted := s.retracted ++
      ((s.gate.queued.find? (·.call == call)).map Queued.ticket).toList }

/-- `try_with`: the writer is taken where it is at rest. -/
def tryWith (s : Senders Tid) (t : Tid) : Senders Tid :=
  if s.gate.writer then { s with gate := { s.gate with writer := false } }.goTo t .using else s

/-- A frame as the gate queues it next. -/
def frame (s : Senders Tid) (call : ℕ) (head : List UInt8) (tail : Option (List UInt8 × ℕ)) :
    Queued :=
  ⟨call, head, tail, s.accepted.length⟩

/-- One step of one thread. -/
def step (s : Senders Tid) (act : Tid × Move) : Option (Senders Tid) :=
  match s.pc act.1, act.2 with
  | .outside, .send call head tail => some (s.queue act.1 (s.frame call head tail))
  | .outside, .sendParts call head tail =>
    some (s.sendParts act.1 (s.frame call head (some (tail, 0))))
  | .outside, .retract call => some (s.retract call)
  | .outside, .tryWith => some (s.tryWith act.1)
  | .outside, .close => some { s with gate := s.gate.close }
  | .copying q, .copied => some (s.queue act.1 (s.frame q.call q.bytes none))
  | .parts q, .wrote => if (writeBatch [q] []).2 then some (s.wrote act.1) else none
  | .writing batch, .wrote => if (writeBatch batch []).2 then some (s.wrote act.1) else none
  | .parts _, .writeFails calls => some (s.writeFails act.1 calls)
  | .writing _, .writeFails calls => some (s.writeFails act.1 calls)
  | .draining vector, .drain => some (s.drain act.1 vector)
  | .failing, .failed => some (s.failed act.1)
  | .using, .used => some (s.goTo act.1 (.draining none))
  | _, _ => none

end Senders

end Guatiao.Link
