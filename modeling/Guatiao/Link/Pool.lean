import Guatiao.Lib.Machine
import Guatiao.Lib.Tally

/-!
# The threads a link's calls run on

A pool of at most `max` threads and at most `max` jobs holding a place. A job is handed to
an idle thread, or to a new one, or waits for a thread that has given its place back and is
finishing. The lock sections, the spawn and the channels between a submitter and a thread
are steps of their own, so that a thread's wait can run out just as a job is sent to it.
-/

namespace Guatiao.Link

open Lib

/-- Where a pool thread is. -/
inductive WorkerAt
  /-- Counted, and not yet started. -/
  | unborn
  /-- It waits for its first job. -/
  | starting
  /-- It runs a job, which has its place still or has given it back. -/
  | running (job : ℕ) (place : Bool)
  /-- A job has returned and the thread is about to lock. -/
  | ran
  /-- Idle, it waits for a job. -/
  | waiting
  /-- Its wait has timed out and it is about to lock. -/
  | timedOut
  /-- It has ended, or never started. -/
  | gone
  deriving DecidableEq

/-- A pool thread and what its channel holds: jobs, each with its place. -/
structure Worker where
  state : WorkerAt
  channel : List ℕ
  deriving DecidableEq

/-- Where the submission of a job is. -/
inductive SubmitAt
  /-- The job has a place, and its submitter is about to lock. -/
  | placing
  /-- The submitter starts the thread `worker`. -/
  | spawning (worker : ℕ)
  /-- The thread has started and the submitter sends it the job. -/
  | spawned (worker : ℕ)
  /-- The thread would not start, and the submitter is about to lock. -/
  | unspawned (worker : ℕ)
  /-- The job is refused; its place is still to be given back. -/
  | refusing
  /-- The job was taken (`true`), or refused and dropped with its place. -/
  | done (taken : Bool)
  deriving DecidableEq

/-- The pool, its threads and the jobs submitted to it, numbered in order. -/
structure Pool where
  max : ℕ
  /-- Threads waiting for work. -/
  idle : List ℕ
  /-- Jobs given a place while every thread was still finishing one. -/
  queued : List ℕ
  threads : ℕ
  places : ℕ
  workers : List Worker
  submits : List SubmitAt
  /-- The jobs that have been run, in the order they were begun. -/
  begun : List ℕ
  deriving DecidableEq

/-- A step of a submitter or of a pool thread. -/
inductive PoolAct
  /-- A job comes, and takes a place where one is left. -/
  | submit
  /-- The lock section of `place` for a job. -/
  | place (job : ℕ)
  /-- The thread for a job starts, or does not. -/
  | spawn (job : ℕ) (starts : Bool)
  /-- The job follows its new thread. -/
  | send (job : ℕ)
  /-- The lock section after a thread would not start. -/
  | unspawn (job : ℕ)
  /-- A refused job is dropped, and its place with it. -/
  | drop (job : ℕ)
  /-- A thread takes a job from its channel. -/
  | receive (worker : ℕ)
  /-- The job a thread runs gives its place back. -/
  | giveBack (worker : ℕ)
  /-- The job a thread runs returns, or panics. -/
  | finish (worker : ℕ)
  /-- The lock section after a job: the next one, or idle. -/
  | next (worker : ℕ)
  /-- A thread's wait times out. -/
  | timeout (worker : ℕ)
  /-- The lock section after a timeout: a job sent meanwhile, or the end. -/
  | leave (worker : ℕ)
  deriving DecidableEq

/-- The pool thread that takes a step. -/
def PoolAct.worker : PoolAct → Option ℕ
  | .receive w | .giveBack w | .finish w | .next w | .timeout w | .leave w => some w
  | _ => none

namespace Pool

/-- `Pool::new`: a pool of no threads yet. -/
def new (max : ℕ) : Pool := ⟨Nat.max max 1, [], [], 0, 0, [], [], []⟩

def setWorker (p : Pool) (w : ℕ) (worker : Worker) : Pool :=
  { p with workers := p.workers.set w worker }

def setSubmit (p : Pool) (job : ℕ) (submit : SubmitAt) : Pool :=
  { p with submits := p.submits.set job submit }

/-- A thread begins a job, which has its place. -/
def begin (p : Pool) (w job : ℕ) (channel : List ℕ) : Pool :=
  { p.setWorker w ⟨.running job true, channel⟩ with begun := p.begun ++ [job] }

/-- `run` up to the taking of a place. -/
def submit (p : Pool) : Pool :=
  if p.places < p.max then
    { p with places := p.places + 1, submits := p.submits ++ [.placing] }
  else
    { p with submits := p.submits ++ [.done false] }

/-- One turn of `place`, under the lock: to the last thread gone idle, else to the queue
where every thread has a job, else to a new thread. -/
def place (p : Pool) (job : ℕ) : Pool :=
  match p.idle.getLast? with
  | some w =>
    match p.workers[w]? with
    -- a thread that has ended hands the job back, and the next turn takes another
    | none | some ⟨.gone, _⟩ => { p with idle := p.idle.dropLast }
    | some ⟨state, channel⟩ =>
      ({ p with idle := p.idle.dropLast }.setWorker w ⟨state, channel ++ [job]⟩).setSubmit job
        (.done true)
  | none =>
    if p.max ≤ p.threads then
      { p.setSubmit job (.done true) with queued := p.queued ++ [job] }
    else
      { p.setSubmit job (.spawning p.workers.length) with
        threads := p.threads + 1
        workers := p.workers ++ [⟨.unborn, []⟩] }

/-- The lock section of `work` between two jobs. -/
def next (p : Pool) (w : ℕ) (channel : List ℕ) : Pool :=
  match p.queued with
  | job :: rest => { p with queued := rest }.begin w job channel
  | [] => { p.setWorker w ⟨.waiting, channel⟩ with idle := p.idle ++ [w] }

/-- The lock section of `work` after its wait timed out. -/
def leave (p : Pool) (w : ℕ) (channel : List ℕ) : Pool :=
  match channel with
  | job :: rest => { p with idle := p.idle.filter (· ≠ w) }.begin w job rest
  | [] =>
    { p.setWorker w ⟨.gone, []⟩ with
      idle := p.idle.filter (· ≠ w)
      threads := p.threads - 1 }

/-- One step of a submitter or a thread. -/
def step (p : Pool) (act : PoolAct) : Option Pool :=
  match act with
  | .submit => some p.submit
  | .place job =>
    match p.submits[job]? with
    | some .placing => some (p.place job)
    | _ => none
  | .spawn job starts =>
    match p.submits[job]? with
    | some (.spawning w) =>
      if starts then some ((p.setWorker w ⟨.starting, []⟩).setSubmit job (.spawned w))
      else some (p.setSubmit job (.unspawned w))
    | _ => none
  | .send job =>
    match p.submits[job]? with
    | some (.spawned w) =>
      (p.workers[w]?).map fun worker =>
        (p.setWorker w ⟨worker.state, worker.channel ++ [job]⟩).setSubmit job (.done true)
    | _ => none
  | .unspawn job =>
    match p.submits[job]? with
    | some (.unspawned w) =>
      some { (p.setWorker w ⟨.gone, []⟩).setSubmit job .refusing with threads := p.threads - 1 }
    | _ => none
  | .drop job =>
    match p.submits[job]? with
    | some .refusing => some { p.setSubmit job (.done false) with places := p.places - 1 }
    | _ => none
  | .receive w =>
    match p.workers[w]? with
    | some ⟨.starting, job :: rest⟩ | some ⟨.waiting, job :: rest⟩ => some (p.begin w job rest)
    | _ => none
  | .giveBack w =>
    match p.workers[w]? with
    | some ⟨.running job true, channel⟩ =>
      some { p.setWorker w ⟨.running job false, channel⟩ with places := p.places - 1 }
    | _ => none
  | .finish w =>
    match p.workers[w]? with
    | some ⟨.running _ place, channel⟩ =>
      some { p.setWorker w ⟨.ran, channel⟩ with places := if place then p.places - 1 else p.places }
    | _ => none
  | .next w =>
    match p.workers[w]? with
    | some ⟨.ran, channel⟩ => some (p.next w channel)
    | _ => none
  | .timeout w =>
    match p.workers[w]? with
    | some ⟨.waiting, channel⟩ => some (p.setWorker w ⟨.timedOut, channel⟩)
    | _ => none
  | .leave w =>
    match p.workers[w]? with
    | some ⟨.timedOut, channel⟩ => some (p.leave w channel)
    | _ => none

end Pool

end Guatiao.Link
