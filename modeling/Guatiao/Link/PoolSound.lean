import Guatiao.Link.Pool
import Mathlib.Data.List.Nodup

/-!
# What holds of the pool between any two steps

Threads and places are counted exactly, and each job that was taken is in one place: with
a thread on its way to run it, in the queue, or begun. Every job waiting in the queue has a
thread of its own that is finishing and will come for the next.
-/

namespace Guatiao.Link

open Lib

namespace Worker

/-- A thread counted and not gone. -/
def live (worker : Worker) : ℕ := if worker.state = .gone then 0 else 1

/-- The jobs with a place that a thread has. -/
def held (worker : Worker) : ℕ :=
  worker.channel.length + (match worker.state with
    | .running _ true => 1
    | _ => 0)

/-- A thread whose first job is still with its submitter. -/
def expecting (worker : Worker) : ℕ :=
  match worker.state, worker.channel with
  | .unborn, _ | .starting, [] => 1
  | _, _ => 0

/-- A thread that has no job with a place and will come for the next. -/
def finishing (worker : Worker) : ℕ :=
  match worker.state with
  | .running _ false | .ran => 1
  | _ => 0

/-- A thread with nothing to do. -/
def idling (worker : Worker) : Prop :=
  (worker.state = .waiting ∨ worker.state = .timedOut) ∧ worker.channel = []

/-- What a thread's channel can hold where it is. -/
def Ok (worker : Worker) : Prop :=
  match worker.state with
  | .starting | .waiting | .timedOut => worker.channel.length ≤ 1
  | _ => worker.channel = []

end Worker

namespace SubmitAt

/-- Whether the submitter has the job and its place. -/
def holds : SubmitAt → ℕ
  | .done _ => 0
  | _ => 1

/-- The thread a submitter is starting for its job. -/
def target : SubmitAt → Option ℕ
  | .spawning w | .spawned w | .unspawned w => some w
  | _ => none

/-- Whether the submitter is starting a thread. -/
def targets (submit : SubmitAt) : ℕ := if submit.target.isSome then 1 else 0

end SubmitAt

namespace Pool

/-- What holds between any two steps. -/
structure Sound (p : Pool) : Prop where
  threads_eq : p.threads = tally Worker.live p.workers
  threads_le : p.threads ≤ p.max
  places_eq : p.places =
    tally SubmitAt.holds p.submits + p.queued.length + tally Worker.held p.workers
  places_le : p.places ≤ p.max
  ok : ∀ (w : ℕ) (worker : Worker), p.workers[w]? = some worker → worker.Ok
  idle_nodup : p.idle.Nodup
  idle_iff : ∀ w, w ∈ p.idle ↔ ∃ worker, p.workers[w]? = some worker ∧ worker.idling
  /-- A submitter's new thread has not started, or waits for the job. -/
  unborn : ∀ (j w : ℕ), p.submits[j]? = some (.spawning w) ∨ p.submits[j]? = some (.unspawned w) →
    p.workers[w]? = some ⟨.unborn, []⟩
  starting : ∀ (j w : ℕ), p.submits[j]? = some (.spawned w) → p.workers[w]? = some ⟨.starting, []⟩
  target_inj : ∀ {j j' w : ℕ}, p.submits[j]?.bind SubmitAt.target = some w →
    p.submits[j']?.bind SubmitAt.target = some w → j = j'
  expecting_eq : tally Worker.expecting p.workers = tally SubmitAt.targets p.submits
  /-- A job waits in the queue only while no thread is idle. -/
  queued_idle : p.queued ≠ [] → p.idle = []
  /-- Each job in the queue has a thread that will come for it. -/
  finishers : p.queued.length ≤ tally Worker.finishing p.workers
  /-- A job taken is in one place, and a job not taken in none. -/
  jobs : ∀ j, p.begun.count j + p.queued.count j +
    tally (fun worker => worker.channel.count j) p.workers =
      if p.submits[j]? = some (.done true) then 1 else 0

theorem sound_new (max : ℕ) : Sound (new max) := by
  refine ⟨rfl, Nat.zero_le _, rfl, Nat.zero_le _, ?_, List.nodup_nil, ?_, ?_, ?_, ?_, rfl,
    fun h => absurd rfl h, le_refl _, ?_⟩
  all_goals simp [new]

variable {p p' : Pool}

variable {w job j : ℕ} {old new worker : Worker} {channel : List ℕ} {x : SubmitAt}

theorem getElem?_set_eq {X : Type} {l : List X} {i : ℕ} {x : X} (h : l[i]? = some x) (y : X)
    (k : ℕ) : (l.set i y)[k]? = if k = i then some y else l[k]? := by
  have hlt : i < l.length := (List.getElem?_eq_some_iff.mp h).1
  by_cases hk : k = i
  · rw [if_pos hk, hk, List.getElem?_set_self hlt]
  · rw [if_neg hk, List.getElem?_set_ne (fun h => hk h.symm)]

/-- A step of a thread that had its first job: what it changes is its own, what it takes
from the queue, and its place among the idle. -/
theorem Sound.thread (h : Sound p) (hw : p.workers[w]? = some old)
    (hworkers : p'.workers = p.workers.set w new) (hmax : p'.max = p.max)
    (hsubmits : p'.submits = p.submits) (hold : old.expecting = 0) (hnew : new.expecting = 0)
    (hok : new.Ok) (hthreads : p'.threads + old.live = p.threads + new.live) (hle : new.live ≤ old.live)
    (hplaces : p'.places + old.held + p.queued.length = p.places + new.held + p'.queued.length)
    (hheld : new.held + p'.queued.length ≤ old.held + p.queued.length) (hnodup : p'.idle.Nodup)
    (hidle : ∀ v, v ∈ p'.idle ↔ if v = w then new.idling else v ∈ p.idle)
    (hqueued : p'.queued ≠ [] → p'.idle = []) (hfinishers : p'.queued = [] ∨
      p'.queued.length + old.finishing ≤ p.queued.length + new.finishing)
    (hjobs : ∀ j, p'.begun.count j + p'.queued.count j + new.channel.count j =
      p.begun.count j + p.queued.count j + old.channel.count j) : Sound p' := by
  have hset := getElem?_set_eq hw new
  have hlive := tally_set (w := Worker.live) hw new
  have hheldSum := tally_set (w := Worker.held) hw new
  have hexpecting := tally_set (w := Worker.expecting) hw new
  have hfinishing := tally_set (w := Worker.finishing) hw new
  have hthreadsEq := h.threads_eq
  have hplacesEq := h.places_eq
  have hmost := h.threads_le
  have hplacesMost := h.places_le
  have hother : ∀ (v : ℕ) (worker : Worker), p.workers[v]? = some worker → worker.expecting = 1 → v ≠ w := by
    rintro v worker hv hone rfl
    rw [hw] at hv
    cases hv
    omega
  refine ⟨?_, ?_, ?_, ?_, ?_, hnodup, ?_, ?_, ?_, ?_, ?_, hqueued, ?_, ?_⟩
  · rw [hworkers]
    omega
  · omega
  · rw [hworkers, hsubmits]
    omega
  · omega
  · intro v worker hv
    rw [hworkers, hset] at hv
    split at hv
    · cases hv
      exact hok
    · exact h.ok v worker hv
  · intro v
    rw [hidle, hworkers, hset]
    by_cases hv : v = w
    · simp only [if_pos hv, Option.some.injEq, exists_eq_left']
    · simp only [if_neg hv]
      exact h.idle_iff v
  · intro j v hj
    rw [hsubmits] at hj
    have hv := h.unborn j v hj
    rw [hworkers, hset, if_neg (hother v _ hv rfl), hv]
  · intro j v hj
    rw [hsubmits] at hj
    have hv := h.starting j v hj
    rw [hworkers, hset, if_neg (hother v _ hv rfl), hv]
  · rw [hsubmits]
    exact h.target_inj
  · have := h.expecting_eq
    rw [hworkers, hsubmits]
    omega
  · rcases hfinishers with hnone | hmore
    · rw [hnone]
      exact Nat.zero_le _
    · have := h.finishers
      rw [hworkers]
      omega
  · intro j
    have hchannel := tally_set (w := fun worker : Worker => worker.channel.count j) hw new
    have hj := hjobs j
    have hone := h.jobs j
    rw [hworkers, hsubmits]
    omega

theorem not_idling (h : worker.state ≠ .waiting ∧ worker.state ≠ .timedOut) :
    ¬ worker.idling := by
  rintro ⟨hwaiting | htimed, -⟩
  · exact h.1 hwaiting
  · exact h.2 htimed

theorem Sound.idle_same (h : Sound p) (hw : p.workers[w]? = some old)
    (hold : ¬ old.idling) (hnew : ¬ new.idling) (v : ℕ) :
    v ∈ p.idle ↔ if v = w then new.idling else v ∈ p.idle := by
  split
  · next hv =>
    subst hv
    refine ⟨fun hmem => ?_, fun hidling => absurd hidling hnew⟩
    obtain ⟨worker, hworker, hidling⟩ := (h.idle_iff v).mp hmem
    rw [hw] at hworker
    cases hworker
    exact absurd hidling hold
  · exact Iff.rfl

theorem Sound.begin_own (h : Sound p) {state : WorkerAt} {rest idle : List ℕ}
    (hw : p.workers[w]? = some ⟨state, job :: rest⟩)
    (hstate : state = .starting ∨ state = .waiting ∨ state = .timedOut)
    (hidle : idle = p.idle) : Sound ({ p with idle }.begin w job rest) := by
  subst hidle
  have hok := h.ok w _ hw
  have hlength : rest.length + 1 ≤ 1 := by
    rcases hstate with rfl | rfl | rfl <;> exact hok
  have hrest : rest = [] := List.length_eq_zero_iff.mp (by omega)
  subst hrest
  have hold : ¬ Worker.idling ⟨state, [job]⟩ := fun h => nomatch h.2
  refine h.thread hw rfl rfl rfl ?_ rfl rfl ?_ ?_ ?_ ?_ h.idle_nodup
    (h.idle_same hw hold (not_idling ⟨nofun, nofun⟩)) h.queued_idle ?_ fun j => ?_
  · rcases hstate with rfl | rfl | rfl <;> rfl
  · rcases hstate with rfl | rfl | rfl <;> rfl
  · rcases hstate with rfl | rfl | rfl <;> exact le_refl 1
  · rcases hstate with rfl | rfl | rfl <;> rfl
  · rcases hstate with rfl | rfl | rfl <;>
      simp only [begin, setWorker, Worker.held, List.length_cons, List.length_nil] <;> omega
  · refine .inr (le_of_eq ?_)
    rcases hstate with rfl | rfl | rfl <;> rfl
  · simp only [begin, setWorker, List.count_append, List.count_nil]
    omega

theorem sound_giveBack (h : Sound p) (hw : p.workers[w]? = some ⟨.running job true, channel⟩) :
    Sound { p.setWorker w ⟨.running job false, channel⟩ with places := p.places - 1 } := by
  have hchannel : channel = [] := h.ok w _ hw
  subst hchannel
  have hpos := le_tally (w := Worker.held) hw
  have hplaces := h.places_eq
  have hone : Worker.held ⟨.running job true, []⟩ = 1 := rfl
  refine h.thread hw rfl rfl rfl rfl rfl rfl rfl (le_refl _) ?_ ?_ h.idle_nodup
    (h.idle_same hw (not_idling ⟨nofun, nofun⟩) (not_idling ⟨nofun, nofun⟩)) h.queued_idle ?_
    fun j => rfl
  · simp only [setWorker, Worker.held, List.length_nil]
    omega
  · simp only [setWorker, Worker.held, List.length_nil]
    omega
  · exact .inr (Nat.le_succ _)

theorem sound_finish (h : Sound p) {place : Bool}
    (hw : p.workers[w]? = some ⟨.running job place, channel⟩) :
    Sound { p.setWorker w ⟨.ran, channel⟩ with
      places := if place then p.places - 1 else p.places } := by
  have hchannel : channel = [] := h.ok w _ hw
  subst hchannel
  have hpos := le_tally (w := Worker.held) hw
  have hplaces := h.places_eq
  refine h.thread hw rfl rfl rfl rfl rfl rfl rfl (le_refl _) ?_ ?_ h.idle_nodup
    (h.idle_same hw (not_idling ⟨nofun, nofun⟩) (not_idling ⟨nofun, nofun⟩)) h.queued_idle ?_
    fun j => rfl
  · cases place with
    | false => rfl
    | true =>
      have hone : Worker.held ⟨.running job true, []⟩ = 1 := rfl
      change p.places - 1 + 1 + p.queued.length = p.places + 0 + p.queued.length
      omega
  · cases place <;> simp [setWorker, Worker.held]
  · refine .inr ?_
    cases place
    · exact le_refl _
    · exact Nat.le_succ _

theorem sound_next (h : Sound p)
    (hw : p.workers[w]? = some ⟨.ran, channel⟩) : Sound (p.next w channel) := by
  have hchannel : channel = [] := h.ok w _ hw
  subst hchannel
  unfold next
  split
  · next job rest hqueued =>
    have hnew : ¬ Worker.idling ⟨.running job true, []⟩ := not_idling ⟨nofun, nofun⟩
    have hsame := h.idle_same hw (not_idling ⟨nofun, nofun⟩) hnew
    have hnone := h.queued_idle (by rw [hqueued]; exact List.cons_ne_nil _ _)
    refine h.thread hw rfl rfl rfl rfl rfl rfl rfl (le_refl _) ?_ ?_ h.idle_nodup hsame
      (fun _ => hnone) ?_ fun j => ?_
    · simp only [begin, setWorker, Worker.held, hqueued, List.length_cons]
      omega
    · simp only [begin, setWorker, Worker.held, hqueued, List.length_cons]
      omega
    · refine .inr ?_
      simp only [begin, setWorker, Worker.finishing, hqueued, List.length_cons]
      omega
    · simp only [begin, setWorker, hqueued, List.count_append, List.count_cons, List.count_nil]
      omega
  · next hqueued =>
    have hnot : w ∉ p.idle := by
      intro hmem
      obtain ⟨worker, hworker, hidling⟩ := (h.idle_iff w).mp hmem
      rw [hw] at hworker
      cases hworker
      exact absurd hidling (not_idling ⟨nofun, nofun⟩)
    refine h.thread hw rfl rfl rfl rfl rfl (Nat.zero_le _) rfl (le_refl _) ?_ ?_ ?_ (fun v => ?_)
      (fun hsome => absurd hqueued hsome) ?_ fun j => rfl
    · simp only [setWorker, Worker.held]
    · simp only [setWorker, Worker.held, le_refl]
    · exact h.idle_nodup.append (List.nodup_singleton w) (by simpa using hnot)
    · simp only [List.mem_append, List.mem_singleton]
      split
      · next hv => exact ⟨fun _ => ⟨.inl rfl, rfl⟩, fun _ => .inr hv⟩
      · next hv => exact ⟨fun hmem => hmem.resolve_right hv, .inl⟩
    · exact .inl hqueued

theorem sound_timeout (h : Sound p) (hw : p.workers[w]? = some ⟨.waiting, channel⟩) :
    Sound (p.setWorker w ⟨.timedOut, channel⟩) := by
  have hok : Worker.Ok ⟨.waiting, channel⟩ := h.ok w _ hw
  refine h.thread hw rfl rfl rfl rfl rfl hok rfl (le_refl _) rfl (le_refl _) h.idle_nodup
    (fun v => ?_) h.queued_idle (.inr (le_refl _)) fun j => rfl
  split
  · next hv =>
    subst hv
    constructor
    · intro hmem
      obtain ⟨worker, hworker, -, hchannel⟩ := (h.idle_iff v).mp hmem
      rw [hw] at hworker
      cases hworker
      exact ⟨.inr rfl, hchannel⟩
    · rintro ⟨-, hchannel⟩
      exact (h.idle_iff v).mpr ⟨_, hw, .inl rfl, hchannel⟩
  · exact Iff.rfl

theorem sound_leave (h : Sound p)
    (hw : p.workers[w]? = some ⟨.timedOut, channel⟩) : Sound (p.leave w channel) := by
  cases channel with
  | cons job rest =>
    have hnot : w ∉ p.idle := by
      intro hmem
      obtain ⟨worker, hworker, -, hchannel⟩ := (h.idle_iff w).mp hmem
      rw [hw] at hworker
      cases hworker
      cases hchannel
    refine h.begin_own hw (.inr (.inr rfl)) (List.filter_eq_self.mpr fun v hv => ?_)
    have hne : v ≠ w := fun heq => hnot (heq ▸ hv)
    simpa using hne
  | nil =>
    have hpos := le_tally (w := Worker.live) hw
    have hthreads := h.threads_eq
    have hone : Worker.live ⟨.timedOut, []⟩ = 1 := rfl
    rw [hone] at hpos
    refine h.thread hw rfl rfl rfl rfl rfl rfl ?_ (Nat.zero_le _) rfl (le_refl _)
      (h.idle_nodup.filter _) (fun v => ?_) (fun hsome => ?_) (.inr (le_refl _)) fun j => rfl
    · change p.threads - 1 + 1 = p.threads
      omega
    · simp only [leave, List.mem_filter, decide_not, Bool.not_eq_eq_eq_not, Bool.not_true,
        decide_eq_false_iff_not]
      split
      · next hv =>
        exact ⟨fun hmem => absurd hv hmem.2, fun hidling => absurd hidling (not_idling ⟨nofun, nofun⟩)⟩
      · next hv => exact ⟨fun hmem => hmem.1, fun hmem => ⟨hmem, hv⟩⟩
    · simp only [leave, h.queued_idle hsome, List.filter_nil]

/-- Where a job's state changes and it is taken by nobody, it was, or is, in no place. -/
theorem Sound.settle (h : Sound p) {y : SubmitAt} (hj : p.submits[j]? = some x)
    (hsubmits : p'.submits = p.submits.set j y) (hworkers : p'.workers = p.workers)
    (hmax : p'.max = p.max) (hthreads : p'.threads = p.threads) (hidle : p'.idle = p.idle)
    (hbegun : p'.begun = p.begun) (hx : x.target = none) (hy : y.target = none)
    (hplaces : p'.places + x.holds + p.queued.length = p.places + y.holds + p'.queued.length)
    (hle : p'.places ≤ p.places) (hqueued : p'.queued ≠ [] → p.idle = [])
    (hfinishers : p'.queued.length ≤ tally Worker.finishing p.workers)
    (hjobs : ∀ i, p'.queued.count i + (if i = j ∧ x = .done true then 1 else 0) =
      p.queued.count i + (if i = j ∧ y = .done true then 1 else 0)) : Sound p' := by
  have hget := getElem?_set_eq hj y
  have hholds := tally_set (w := SubmitAt.holds) hj y
  have htargets := tally_set (w := SubmitAt.targets) hj y
  have hthreadsEq := h.threads_eq
  have hplacesEq := h.places_eq
  have hmost := h.threads_le
  have hplacesMost := h.places_le
  have hxTargets : x.targets = 0 := by simp only [SubmitAt.targets, hx, Option.isSome_none,
    Bool.false_eq_true, if_false]
  have hyTargets : y.targets = 0 := by simp only [SubmitAt.targets, hy, Option.isSome_none,
    Bool.false_eq_true, if_false]
  have hold : ∀ {i v : ℕ}, (p.submits.set j y)[i]?.bind SubmitAt.target = some v →
      p.submits[i]?.bind SubmitAt.target = some v := by
    intro i v hi
    rw [hget] at hi
    split at hi
    · simp only [Option.bind_some, hy, reduceCtorEq] at hi
    · exact hi
  have hsame : ∀ {i v : ℕ} {z : SubmitAt}, (p.submits.set j y)[i]? = some z → z.target = some v →
      p.submits[i]? = some z := by
    intro i v z hi hz
    rw [hget] at hi
    split at hi
    · cases hi
      rw [hy] at hz
      cases hz
    · exact hi
  refine ⟨?_, ?_, ?_, ?_, ?_, ?_, ?_, ?_, ?_, ?_, ?_, ?_, ?_, ?_⟩
  · rw [hworkers, hthreads]
    exact hthreadsEq
  · omega
  · rw [hworkers, hsubmits]
    omega
  · omega
  · rw [hworkers]
    exact h.ok
  · rw [hidle]
    exact h.idle_nodup
  · rw [hidle, hworkers]
    exact h.idle_iff
  · intro i v hi
    rw [hsubmits] at hi
    rw [hworkers]
    exact h.unborn i v (hi.imp (fun hi => hsame hi rfl) fun hi => hsame hi rfl)
  · intro i v hi
    rw [hsubmits] at hi
    rw [hworkers]
    exact h.starting i v (hsame hi rfl)
  · intro i i' v hi hi'
    rw [hsubmits] at hi hi'
    exact h.target_inj (hold hi) (hold hi')
  · have := h.expecting_eq
    rw [hworkers, hsubmits]
    omega
  · rw [hidle]
    exact hqueued
  · rw [hworkers]
    exact hfinishers
  · intro i
    have hone := h.jobs i
    have hi := hjobs i
    rw [hworkers, hsubmits, hbegun, hget]
    by_cases hij : i = j
    · subst hij
      rw [hj] at hone
      simp only [true_and, if_true, Option.some.injEq] at hi hone ⊢
      omega
    · simp only [hij, false_and, if_false] at hi ⊢
      omega

/-- A new submission, taken by nobody yet. -/
theorem Sound.submitted (h : Sound p) (hx : x.target = none) (hnot : x ≠ .done true)
    (hle : p.places + x.holds ≤ p.max) :
    Sound { p with places := p.places + x.holds, submits := p.submits ++ [x] } := by
  have hget : ∀ (i : ℕ) (z : SubmitAt), (p.submits ++ [x])[i]? = some z →
      p.submits[i]? = some z ∨ z = x := by
    intro i z hi
    rw [List.getElem?_append] at hi
    split at hi
    · exact .inl hi
    · have hmem := List.mem_of_getElem? hi
      exact .inr (List.mem_singleton.mp hmem)
  have hsame : ∀ {i v : ℕ} {z : SubmitAt}, (p.submits ++ [x])[i]? = some z → z.target = some v →
      p.submits[i]? = some z := by
    intro i v z hi hz
    rcases hget i z hi with hi | rfl
    · exact hi
    · rw [hx] at hz
      cases hz
  have hold : ∀ {i v : ℕ}, (p.submits ++ [x])[i]?.bind SubmitAt.target = some v →
      p.submits[i]?.bind SubmitAt.target = some v := by
    intro i v hi
    obtain ⟨z, hz, hv⟩ := Option.bind_eq_some_iff.mp hi
    exact Option.bind_eq_some_iff.mpr ⟨z, hsame hz hv, hv⟩
  have htargets : x.targets = 0 := by simp only [SubmitAt.targets, hx, Option.isSome_none,
    Bool.false_eq_true, if_false]
  refine ⟨h.threads_eq, h.threads_le, ?_, hle, h.ok, h.idle_nodup, h.idle_iff, ?_, ?_, ?_, ?_,
    h.queued_idle, h.finishers, ?_⟩
  · have := h.places_eq
    simp only [tally_append, tally_cons, tally_nil]
    omega
  · exact fun i v hi => h.unborn i v (hi.imp (fun hi => hsame hi rfl) fun hi => hsame hi rfl)
  · exact fun i v hi => h.starting i v (hsame hi rfl)
  · exact fun hi hi' => h.target_inj (hold hi) (hold hi')
  · have := h.expecting_eq
    simp only [tally_append, tally_cons, tally_nil]
    omega
  · intro i
    rw [h.jobs i]
    have hiff : (p.submits ++ [x])[i]? = some (.done true) ↔ p.submits[i]? = some (.done true) := by
      constructor
      · intro hi
        rcases hget i _ hi with hi | heq
        · exact hi
        · exact absurd heq.symm hnot
      · intro hi
        rw [List.getElem?_append_left (List.getElem?_eq_some_iff.mp hi).1]
        exact hi
    simp only [hiff]

theorem sound_submit (h : Sound p) : Sound p.submit := by
  unfold submit
  split
  · next hlt => exact h.submitted (x := .placing) rfl nofun hlt
  · exact h.submitted (x := .done false) rfl nofun h.places_le

/-- A step of the submitter of job `j` that also changes the thread `w`: the one it starts,
or an idle one. -/
theorem Sound.both (h : Sound p) {y : SubmitAt}
    (hw : p.workers[w]? = some old) (hj : p.submits[j]? = some x)
    (hworkers : p'.workers = p.workers.set w new) (hsubmits : p'.submits = p.submits.set j y)
    (hmax : p'.max = p.max) (hqueued : p'.queued = p.queued) (hbegun : p'.begun = p.begun)
    (hplaces : p'.places = p.places) (howner : x.target = some w ∨ x.target = none ∧ old.expecting = 0)
    (htarget : ∀ v, y.target = some v → v = w ∧ x.target = some w)
    (hunborn : (y = .spawning w ∨ y = .unspawned w) → new = ⟨.unborn, []⟩)
    (hstarting : y = .spawned w → new = ⟨.starting, []⟩) (hok : new.Ok)
    (hexpecting : new.expecting + x.targets = old.expecting + y.targets)
    (hthreads : p'.threads + old.live = p.threads + new.live) (hle : new.live ≤ old.live)
    (hheld : y.holds + new.held = x.holds + old.held) (hnodup : p'.idle.Nodup)
    (hidle : ∀ v, v ∈ p'.idle ↔ if v = w then new.idling else v ∈ p.idle)
    (hnone : p.idle = [] → p'.idle = []) (hfinishing : old.finishing ≤ new.finishing) (hx : x ≠ .done true)
    (hjobs : ∀ i, new.channel.count i =
      old.channel.count i + if i = j ∧ y = .done true then 1 else 0) : Sound p' := by
  have hsubmit := getElem?_set_eq hj y
  have hworker := getElem?_set_eq hw new
  have hlive := tally_set (w := Worker.live) hw new
  have hheldSum := tally_set (w := Worker.held) hw new
  have hexpectingSum := tally_set (w := Worker.expecting) hw new
  have hfinishingSum := tally_set (w := Worker.finishing) hw new
  have hholds := tally_set (w := SubmitAt.holds) hj y
  have htargets := tally_set (w := SubmitAt.targets) hj y
  have hthreadsEq := h.threads_eq
  have hplacesEq := h.places_eq
  have hmost := h.threads_le
  have hplacesMost := h.places_le
  -- no other submitter starts the thread that changes
  have hother : ∀ {i v : ℕ} {z : SubmitAt}, i ≠ j → p.submits[i]? = some z → z.target = some v →
      (∃ worker, p.workers[v]? = some worker ∧ worker.expecting = 1) → v ≠ w := by
    rintro i v z hij hi hz ⟨worker, hv, hone⟩ rfl
    rcases howner with hx | ⟨-, hx⟩
    · refine hij (h.target_inj (w := v) ?_ ?_)
      · rw [hi]
        exact hz
      · rw [hj]
        exact hx
    · rw [hw] at hv
      cases hv
      omega
  have hold : ∀ {i v : ℕ}, (p.submits.set j y)[i]?.bind SubmitAt.target = some v →
      p.submits[i]?.bind SubmitAt.target = some v := by
    intro i v hi
    rw [hsubmit] at hi
    split at hi
    · next hij =>
      obtain ⟨rfl, hx⟩ := htarget v hi
      rw [hij, hj]
      exact hx
    · exact hi
  refine ⟨?_, ?_, ?_, ?_, ?_, hnodup, ?_, ?_, ?_, ?_, ?_, ?_, ?_, ?_⟩
  · rw [hworkers]
    omega
  · omega
  · rw [hworkers, hsubmits, hqueued]
    omega
  · omega
  · intro v worker hv
    rw [hworkers, hworker] at hv
    split at hv
    · cases hv
      exact hok
    · exact h.ok v worker hv
  · intro v
    rw [hidle, hworkers, hworker]
    by_cases hv : v = w
    · simp only [if_pos hv, Option.some.injEq, exists_eq_left']
    · simp only [if_neg hv]
      exact h.idle_iff v
  · intro i v hi
    rw [hsubmits, hsubmit] at hi
    rw [hworkers, hworker]
    by_cases hij : i = j
    · simp only [if_pos hij, Option.some.injEq] at hi
      have hv : v = w := by
        rcases hi with rfl | rfl
        · exact (htarget v rfl).1
        · exact (htarget v rfl).1
      subst hv
      rw [if_pos rfl, hunborn hi]
    · simp only [if_neg hij] at hi
      have hv := h.unborn i v hi
      have hne : v ≠ w := by
        rcases hi with hi | hi
        · exact hother hij hi rfl ⟨_, hv, rfl⟩
        · exact hother hij hi rfl ⟨_, hv, rfl⟩
      rw [if_neg hne, hv]
  · intro i v hi
    rw [hsubmits, hsubmit] at hi
    rw [hworkers, hworker]
    by_cases hij : i = j
    · simp only [if_pos hij, Option.some.injEq] at hi
      subst hi
      obtain ⟨rfl, -⟩ := htarget v rfl
      rw [if_pos rfl, hstarting rfl]
    · simp only [if_neg hij] at hi
      have hv := h.starting i v hi
      rw [if_neg (hother hij hi rfl ⟨_, hv, rfl⟩), hv]
  · intro i i' v hi hi'
    rw [hsubmits] at hi hi'
    exact h.target_inj (hold hi) (hold hi')
  · have := h.expecting_eq
    rw [hworkers, hsubmits]
    omega
  · rw [hqueued]
    exact fun hsome => hnone (h.queued_idle hsome)
  · have := h.finishers
    rw [hworkers, hqueued]
    omega
  · intro i
    have hchannel := tally_set (w := fun worker : Worker => worker.channel.count i) hw new
    have hone := h.jobs i
    have hi := hjobs i
    rw [hworkers, hsubmits, hbegun, hqueued, hsubmit]
    by_cases hij : i = j
    · subst hij
      rw [hj] at hone
      simp only [true_and, if_true, Option.some.injEq, hx, if_false] at hi hone ⊢
      omega
    · simp only [hij, false_and, if_false] at hi ⊢
      omega

theorem sound_hand (h : Sound p) (hj : p.submits[j]? = some .placing)
    (hlast : p.idle.getLast? = some w) (hw : p.workers[w]? = some worker) (hidling : worker.idling) :
    Sound (({ p with idle := p.idle.dropLast }.setWorker w
      ⟨worker.state, worker.channel ++ [j]⟩).setSubmit j (.done true)) := by
  obtain ⟨state, channel⟩ := worker
  obtain ⟨hstate, hchannel⟩ := hidling
  dsimp only at hstate hchannel
  subst hchannel
  have hnodup := h.idle_nodup
  have hsplit : p.idle = p.idle.dropLast ++ [w] := (List.dropLast_append_getLast? w hlast).symm
  rw [hsplit, List.nodup_append] at hnodup
  have hnew : ¬ Worker.idling ⟨state, [] ++ [j]⟩ := fun h => nomatch h.2
  refine h.both hw hj rfl rfl rfl rfl rfl rfl (.inr ⟨rfl, ?_⟩) nofun nofun nofun ?_ ?_ ?_ ?_ ?_
    hnodup.1 (fun v => ?_) (fun hnone => ?_) ?_ nofun fun i => ?_
  · rcases hstate with rfl | rfl <;> rfl
  · rcases hstate with rfl | rfl <;> exact le_refl 1
  · rcases hstate with rfl | rfl <;> rfl
  · rcases hstate with rfl | rfl <;> rfl
  · rcases hstate with rfl | rfl <;> exact le_refl 1
  · rcases hstate with rfl | rfl <;> rfl
  · change v ∈ p.idle.dropLast ↔ _
    split
    · next hv =>
      refine ⟨fun hmem => ?_, fun hidling => absurd hidling hnew⟩
      exact absurd hv (hnodup.2.2 v hmem w (List.mem_singleton_self w))
    · next hv =>
      conv => rhs; rw [hsplit, List.mem_append, List.mem_singleton]
      exact ⟨.inl, fun hmem => hmem.resolve_right hv⟩
  · rw [hnone] at hlast
    cases hlast
  · rcases hstate with rfl | rfl <;> rfl
  · by_cases hij : i = j
    · subst hij
      simp
    · simp [hij, Ne.symm hij]

/-- A submitter with a place, where nobody is idle and every thread is taken, leaves its job
to a thread that has given its place back. -/
theorem Sound.room (h : Sound p) (hj : p.submits[j]? = some .placing)
    (hidle : p.idle = []) (hfull : p.max ≤ p.threads) :
    p.queued.length + 1 ≤ tally Worker.finishing p.workers := by
  have hworkers : tally Worker.live p.workers ≤ tally (fun worker =>
      worker.expecting + (worker.held + worker.finishing)) p.workers := by
    refine tally_le fun worker hmem => ?_
    obtain ⟨w, hw⟩ := List.mem_iff_getElem?.mp hmem
    have hnot : ¬ worker.idling := by
      intro hidling
      have hmem := (h.idle_iff w).mpr ⟨worker, hw, hidling⟩
      rw [hidle] at hmem
      cases hmem
    obtain ⟨state, channel⟩ := worker
    cases channel with
    | cons job rest =>
      have hlive : Worker.live ⟨state, job :: rest⟩ ≤ 1 := by
        unfold Worker.live
        split <;> omega
      simp only [Worker.held, List.length_cons]
      omega
    | nil =>
      cases state with
      | waiting => exact absurd ⟨.inl rfl, rfl⟩ hnot
      | timedOut => exact absurd ⟨.inr rfl, rfl⟩ hnot
      | running job place => cases place <;> exact le_refl _
      | _ => decide
  rw [tally_add, tally_add] at hworkers
  have hsubmits : tally SubmitAt.targets p.submits + 1 ≤ tally SubmitAt.holds p.submits := by
    have hle : tally SubmitAt.targets (p.submits.set j (.done false)) ≤
        tally SubmitAt.holds (p.submits.set j (.done false)) := by
      refine tally_le fun x _ => ?_
      cases x with
      | placing | refusing | done => exact Nat.zero_le _
      | spawning | spawned | unspawned => exact le_refl 1
    have htargets := tally_set (w := SubmitAt.targets) hj (.done false)
    have hholds := tally_set (w := SubmitAt.holds) hj (.done false)
    have hplacing : SubmitAt.holds .placing = 1 ∧ SubmitAt.targets .placing = 0 := ⟨rfl, rfl⟩
    have hdone : SubmitAt.holds (.done false) = 0 ∧ SubmitAt.targets (.done false) = 0 := ⟨rfl, rfl⟩
    omega
  have := h.threads_eq
  have := h.places_eq
  have := h.places_le
  have := h.expecting_eq
  omega

/-- A job starts a thread of its own where there is room for one. -/
theorem sound_start (h : Sound p) (hj : p.submits[j]? = some .placing) (hroom : p.threads < p.max) :
    Sound { p.setSubmit j (.spawning p.workers.length) with
      threads := p.threads + 1
      workers := p.workers ++ [⟨.unborn, []⟩] } := by
  have hsubmit := getElem?_set_eq hj (.spawning p.workers.length)
  have hholds := tally_set (w := SubmitAt.holds) hj (.spawning p.workers.length)
  have htargets := tally_set (w := SubmitAt.targets) hj (.spawning p.workers.length)
  have hone : SubmitAt.holds (.spawning p.workers.length) = 1 := rfl
  have hzero : SubmitAt.targets .placing = 0 := rfl
  have hnew : (p.workers ++ [⟨.unborn, []⟩])[p.workers.length]? = some ⟨.unborn, []⟩ :=
    List.getElem?_concat_length
  have hkeeps : ∀ {v : ℕ} {worker : Worker}, p.workers[v]? = some worker →
      (p.workers ++ [⟨.unborn, []⟩])[v]? = some worker := by
    intro v worker hv
    rw [List.getElem?_append_left (List.getElem?_eq_some_iff.mp hv).1]
    exact hv
  have hcases : ∀ {v : ℕ} {worker : Worker}, (p.workers ++ [⟨.unborn, []⟩])[v]? = some worker →
      p.workers[v]? = some worker ∨ worker = ⟨.unborn, []⟩ := by
    intro v worker hv
    rw [List.getElem?_append] at hv
    split at hv
    · exact .inl hv
    · exact .inr (List.mem_singleton.mp (List.mem_of_getElem? hv))
  -- a thread started before has a number of its own
  have hbelow : ∀ {i v : ℕ}, p.submits[i]?.bind SubmitAt.target = some v → v < p.workers.length := by
    intro i v hi
    obtain ⟨z, hz, hv⟩ := Option.bind_eq_some_iff.mp hi
    have hworker : ∃ worker, p.workers[v]? = some worker := by
      cases z with
      | spawning u =>
        cases hv
        exact ⟨_, h.unborn i v (.inl hz)⟩
      | spawned u =>
        cases hv
        exact ⟨_, h.starting i v hz⟩
      | unspawned u =>
        cases hv
        exact ⟨_, h.unborn i v (.inr hz)⟩
      | _ => cases hv
    obtain ⟨worker, hworker⟩ := hworker
    exact (List.getElem?_eq_some_iff.mp hworker).1
  have htarget : ∀ {i v : ℕ}, (p.submits.set j (.spawning p.workers.length))[i]?.bind
      SubmitAt.target = some v → i = j ∧ v = p.workers.length ∨
        i ≠ j ∧ p.submits[i]?.bind SubmitAt.target = some v := by
    intro i v hi
    rw [hsubmit] at hi
    split at hi
    · next hij =>
      cases hi
      exact .inl ⟨hij, rfl⟩
    · next hij => exact .inr ⟨hij, hi⟩
  refine ⟨?_, hroom, ?_, h.places_le, ?_, h.idle_nodup, ?_, ?_, ?_, ?_, ?_, h.queued_idle, ?_, ?_⟩
  · have hunborn : Worker.live ⟨.unborn, []⟩ = 1 := rfl
    have := h.threads_eq
    simp only [tally_append, tally_cons, tally_nil]
    omega
  · have hunborn : Worker.held ⟨.unborn, []⟩ = 0 := rfl
    have hplacing : SubmitAt.holds .placing = 1 := rfl
    have := h.places_eq
    simp only [setSubmit, tally_append, tally_cons, tally_nil]
    omega
  · intro v worker hv
    rcases hcases hv with hv | rfl
    · exact h.ok v worker hv
    · rfl
  · intro v
    refine (h.idle_iff v).trans ⟨?_, ?_⟩
    · rintro ⟨worker, hv, hidling⟩
      exact ⟨worker, hkeeps hv, hidling⟩
    · rintro ⟨worker, hv, hidling⟩
      rcases hcases hv with hv | rfl
      · exact ⟨worker, hv, hidling⟩
      · exact absurd hidling (not_idling ⟨nofun, nofun⟩)
  · intro i v hi
    change (p.submits.set j _)[i]? = _ ∨ (p.submits.set j _)[i]? = _ at hi
    rw [hsubmit] at hi
    by_cases hij : i = j
    · simp only [if_pos hij, Option.some.injEq, SubmitAt.spawning.injEq, reduceCtorEq, or_false] at hi
      rw [← hi]
      exact hnew
    · simp only [if_neg hij] at hi
      exact hkeeps (h.unborn i v hi)
  · intro i v hi
    change (p.submits.set j _)[i]? = _ at hi
    rw [hsubmit] at hi
    split at hi
    · cases hi
    · exact hkeeps (h.starting i v hi)
  · intro i i' v hi hi'
    rcases htarget hi with ⟨hij, hv⟩ | ⟨-, hi⟩
    · rcases htarget hi' with ⟨hij', -⟩ | ⟨-, hi'⟩
      · rw [hij, hij']
      · exact absurd (hbelow hi') (by omega)
    · rcases htarget hi' with ⟨-, hv⟩ | ⟨-, hi'⟩
      · exact absurd (hbelow hi) (by omega)
      · exact h.target_inj hi hi'
  · have hunborn : Worker.expecting ⟨.unborn, []⟩ = 1 := rfl
    have htwo : SubmitAt.targets (.spawning p.workers.length) = 1 := rfl
    have := h.expecting_eq
    simp only [setSubmit, tally_append, tally_cons, tally_nil]
    omega
  · have := h.finishers
    simp only [setSubmit, tally_append, tally_cons, tally_nil]
    omega
  · intro i
    have hone := h.jobs i
    simp only [setSubmit, tally_append, tally_cons, tally_nil, List.count_nil, Nat.add_zero, hone,
      hsubmit]
    by_cases hij : i = j
    · subst hij
      simp only [hj, if_true, Option.some.injEq, reduceCtorEq, if_false]
    · simp only [if_neg hij]

theorem sound_place (h : Sound p) (hj : p.submits[j]? = some .placing) :
    Sound (p.place j) := by
  unfold place
  split
  · next w hlast =>
    obtain ⟨worker, hw, hidling⟩ := (h.idle_iff w).mp (List.mem_of_getLast? hlast)
    rw [hw]
    split
    · next heq => cases heq
    · next channel heq =>
      cases heq
      exact absurd hidling (not_idling ⟨nofun, nofun⟩)
    · next state channel _ heq =>
      cases heq
      exact sound_hand h hj hlast hw hidling
  · next hlast =>
    have hidle : p.idle = [] := List.getLast?_eq_none_iff.mp hlast
    split
    · next hfull =>
      refine h.settle hj rfl rfl rfl rfl rfl rfl rfl rfl ?_ (le_refl _) (fun _ => hidle) ?_
        fun i => ?_
      · simp only [setSubmit, SubmitAt.holds, List.length_append, List.length_singleton]
        omega
      · simp only [List.length_append, List.length_singleton]
        exact h.room hj hidle hfull
      · by_cases hij : i = j
        · subst hij
          simp [List.count_append]
        · simp [List.count_append, hij, Ne.symm hij]
    · next hroom => exact sound_start h hj (by omega)

theorem sound_spawn (h : Sound p) (hj : p.submits[j]? = some (.spawning w)) (starts : Bool) :
    Sound (if starts then (p.setWorker w ⟨.starting, []⟩).setSubmit j (.spawned w)
      else p.setSubmit j (.unspawned w)) := by
  have hw := h.unborn j w (.inl hj)
  cases starts with
  | true =>
    refine h.both hw hj rfl rfl rfl rfl rfl rfl (.inl rfl) (fun v hv => ?_) nofun (fun _ => rfl)
      (Nat.zero_le _) rfl rfl (le_refl _) rfl h.idle_nodup
      (h.idle_same hw (not_idling ⟨nofun, nofun⟩) (not_idling ⟨nofun, nofun⟩)) id (le_refl _) nofun
      fun i => ?_
    · cases hv
      exact ⟨rfl, rfl⟩
    · simp only [reduceCtorEq, and_false, if_false, Nat.add_zero]
  | false =>
    have hsame : p.workers = p.workers.set w ⟨.unborn, []⟩ := by
      refine (List.ext_getElem? fun v => ?_).symm
      rw [getElem?_set_eq hw]
      split
      · next hv => rw [hv, hw]
      · rfl
    refine h.both hw hj hsame rfl rfl rfl rfl rfl (.inl rfl) (fun v hv => ?_) (fun _ => rfl) nofun
      rfl rfl rfl (le_refl _) rfl h.idle_nodup
      (h.idle_same hw (not_idling ⟨nofun, nofun⟩) (not_idling ⟨nofun, nofun⟩)) id (le_refl _) nofun
      fun i => ?_
    · cases hv
      exact ⟨rfl, rfl⟩
    · simp only [reduceCtorEq, and_false, if_false, Nat.add_zero]

theorem sound_send (h : Sound p)
    (hj : p.submits[j]? = some (.spawned w)) (hworker : p.workers[w]? = some worker) :
    Sound ((p.setWorker w ⟨worker.state, worker.channel ++ [j]⟩).setSubmit j (.done true)) := by
  have hw := h.starting j w hj
  rw [hworker] at hw
  cases hw
  refine h.both hworker hj rfl rfl rfl rfl rfl rfl (.inl rfl) nofun nofun nofun (le_refl 1) rfl rfl
    (le_refl _) rfl h.idle_nodup
    (h.idle_same hworker (not_idling ⟨nofun, nofun⟩) (not_idling ⟨nofun, nofun⟩)) id (le_refl _)
    nofun fun i => ?_
  by_cases hij : i = j
  · subst hij
    simp
  · simp [hij, Ne.symm hij]

theorem sound_unspawn (h : Sound p) (hj : p.submits[j]? = some (.unspawned w)) :
    Sound { (p.setWorker w ⟨.gone, []⟩).setSubmit j .refusing with threads := p.threads - 1 } := by
  have hw := h.unborn j w (.inr hj)
  have hpos := le_tally (w := Worker.live) hw
  have hthreads := h.threads_eq
  have hone : Worker.live ⟨.unborn, []⟩ = 1 := rfl
  refine h.both hw hj rfl rfl rfl rfl rfl rfl (.inl rfl) nofun nofun nofun rfl rfl ?_
    (Nat.zero_le _) rfl h.idle_nodup
    (h.idle_same hw (not_idling ⟨nofun, nofun⟩) (not_idling ⟨nofun, nofun⟩)) id (le_refl _) nofun
    fun i => ?_
  · change p.threads - 1 + 1 = p.threads + 0
    omega
  · simp only [reduceCtorEq, and_false, if_false, Nat.add_zero]

theorem sound_drop (h : Sound p) (hj : p.submits[j]? = some .refusing) :
    Sound { p.setSubmit j (.done false) with places := p.places - 1 } := by
  have hpos := le_tally (w := SubmitAt.holds) hj
  have hplaces := h.places_eq
  have hone : SubmitAt.holds .refusing = 1 := rfl
  refine h.settle hj rfl rfl rfl rfl rfl rfl rfl rfl ?_ (Nat.sub_le _ _) h.queued_idle h.finishers
    fun i => ?_
  · change p.places - 1 + 1 + p.queued.length = p.places + 0 + p.queued.length
    omega
  · simp only [setSubmit, reduceCtorEq, and_false, if_false, SubmitAt.done.injEq, Bool.false_eq_true]

theorem sound_step : Kept step Sound := by
  intro p act p' h hstep
  cases act with
  | submit =>
    cases hstep
    exact sound_submit h
  | place j =>
    simp only [step] at hstep
    split at hstep <;> cases hstep
    exact sound_place h (by assumption)
  | spawn j starts =>
    simp only [step] at hstep
    split at hstep
    · next w hj =>
      have hspawn := sound_spawn h hj starts
      cases starts <;> cases hstep <;> exact hspawn
    · cases hstep
  | send j =>
    simp only [step] at hstep
    split at hstep
    · next w hj =>
      obtain ⟨worker, hworker, rfl⟩ := Option.map_eq_some_iff.mp hstep
      exact sound_send h hj hworker
    · cases hstep
  | unspawn j =>
    simp only [step] at hstep
    split at hstep <;> cases hstep
    exact sound_unspawn h (by assumption)
  | drop j =>
    simp only [step] at hstep
    split at hstep <;> cases hstep
    exact sound_drop h (by assumption)
  | receive w =>
    simp only [step] at hstep
    split at hstep <;> cases hstep
    · next hw => exact h.begin_own hw (.inl rfl) rfl
    · next hw => exact h.begin_own hw (.inr (.inl rfl)) rfl
  | giveBack w =>
    simp only [step] at hstep
    split at hstep <;> cases hstep
    exact sound_giveBack h (by assumption)
  | finish w =>
    simp only [step] at hstep
    split at hstep <;> cases hstep
    exact sound_finish h (by assumption)
  | next w =>
    simp only [step] at hstep
    split at hstep <;> cases hstep
    exact sound_next h (by assumption)
  | timeout w =>
    simp only [step] at hstep
    split at hstep <;> cases hstep
    exact sound_timeout h (by assumption)
  | leave w =>
    simp only [step] at hstep
    split at hstep <;> cases hstep
    exact sound_leave h (by assumption)

end Pool

end Guatiao.Link
