import Guatiao.Link.PoolSound

/-!
# Every job taken is run, and once

A job in a thread's channel is begun by that thread's next steps. One in the queue has a
thread that is finishing and comes for the front of the queue, so it moves up until it is
the front. Nothing another party does puts either off, so along a fair execution both come.
-/

namespace Guatiao.Link

open Lib

namespace Pool

variable {p p' : Pool}

/-- Whether a thread can go on but by its wait timing out. -/
def goes (p : Pool) (w : ℕ) : Prop :=
  match p.workers[w]? with
  | some ⟨.starting, channel⟩ | some ⟨.waiting, channel⟩ => channel ≠ []
  | some ⟨.running _ _, _⟩ | some ⟨.ran, _⟩ | some ⟨.timedOut, _⟩ => True
  | _ => False

/-- What is left to do before job `j` is begun, and a thread that helps. -/
inductive Awaits (j : ℕ) (p : Pool) : ℕ → ℕ → Prop
  /-- The thread finds the job at its next step. -/
  | sent {w : ℕ} {state : WorkerAt} : p.workers[w]? = some ⟨state, [j]⟩ →
      state = .starting ∨ state = .timedOut → Awaits j p 1 w
  /-- The thread finds the job, or its wait has timed out just before. -/
  | waiting {w : ℕ} : p.workers[w]? = some ⟨.waiting, [j]⟩ → Awaits j p 2 w
  /-- The thread takes the front of the queue at its next step. -/
  | ran {w i : ℕ} : p.queued[i]? = some j → p.workers[w]? = some ⟨.ran, []⟩ →
      Awaits j p (2 * i + 3) w
  | running {w i k : ℕ} : p.queued[i]? = some j → p.workers[w]? = some ⟨.running k false, []⟩ →
      Awaits j p (2 * i + 4) w

variable {j r w : ℕ} {act : PoolAct}

theorem Awaits.goes (h : Awaits j p r w) : p.goes w := by
  unfold Pool.goes
  cases h with
  | sent hw hstate =>
    rw [hw]
    rcases hstate with rfl | rfl
    · exact List.cons_ne_nil _ _
    · trivial
  | waiting hw =>
    rw [hw]
    exact List.cons_ne_nil _ _
  | ran _ hw =>
    rw [hw]
    trivial
  | running _ hw =>
    rw [hw]
    trivial

theorem Sound.helper (h : Sound p) {i : ℕ} (hj : p.queued[i]? = some j) :
    ∃ r w, r ≤ 2 * i + 4 ∧ Awaits j p r w := by
  have hlt := (List.getElem?_eq_some_iff.mp hj).1
  obtain ⟨w, worker, hw, hpos⟩ :=
    exists_of_tally_pos (w := Worker.finishing) (lt_of_lt_of_le (by omega) h.finishers)
  have hok := h.ok w worker hw
  obtain ⟨state, channel⟩ := worker
  cases state with
  | ran =>
    cases hok
    exact ⟨_, w, by omega, .ran hj hw⟩
  | running k place =>
    cases place with
    | true => exact absurd hpos (lt_irrefl 0)
    | false =>
      cases hok
      exact ⟨_, w, le_refl _, .running hj hw⟩
  | _ => exact absurd hpos (lt_irrefl 0)

theorem Sound.awaits (h : Sound p) (hj : p.submits[j]? = some (.done true)) :
    j ∈ p.begun ∨ ∃ r w, Awaits j p r w := by
  have hone := h.jobs j
  rw [if_pos hj] at hone
  by_cases hbegun : 0 < p.begun.count j
  · exact .inl (List.count_pos_iff.mp hbegun)
  by_cases hqueued : 0 < p.queued.count j
  · obtain ⟨i, hi⟩ := List.mem_iff_getElem?.mp (List.count_pos_iff.mp hqueued)
    obtain ⟨r, w, -, hawaits⟩ := h.helper hi
    exact .inr ⟨r, w, hawaits⟩
  obtain ⟨w, worker, hw, hpos⟩ := exists_of_tally_pos
    (w := fun worker : Worker => worker.channel.count j) (l := p.workers) (by omega)
  have hmem := List.count_pos_iff.mp hpos
  have hok := h.ok w worker hw
  obtain ⟨state, channel⟩ := worker
  have hsingle : channel.length ≤ 1 → channel = [j] := by
    intro hlength
    obtain ⟨k, rfl⟩ := List.length_eq_one_iff.mp
      (Nat.le_antisymm hlength (List.length_pos_of_mem hmem))
    rw [List.mem_singleton.mp hmem]
  refine .inr ?_
  cases state with
  | starting =>
    cases hsingle hok
    exact ⟨1, w, .sent hw (.inl rfl)⟩
  | waiting =>
    cases hsingle hok
    exact ⟨2, w, .waiting hw⟩
  | timedOut =>
    cases hsingle hok
    exact ⟨1, w, .sent hw (.inr rfl)⟩
  | _ =>
    cases hok
    cases hmem

theorem workers_thread (hstep : p.step act = some p') {v : ℕ}
    (hact : act.worker = some v) : ∃ new, p'.workers = p.workers.set v new := by
  cases act <;> cases hact
  · simp only [step] at hstep
    split at hstep <;> cases hstep <;> exact ⟨_, rfl⟩
  · simp only [step] at hstep
    split at hstep <;> cases hstep
    exact ⟨_, rfl⟩
  · simp only [step] at hstep
    split at hstep <;> cases hstep
    exact ⟨_, rfl⟩
  · simp only [step] at hstep
    split at hstep <;> cases hstep
    unfold next
    split <;> exact ⟨_, rfl⟩
  · simp only [step] at hstep
    split at hstep <;> cases hstep
    exact ⟨_, rfl⟩
  · simp only [step] at hstep
    split at hstep <;> cases hstep
    unfold leave
    split <;> exact ⟨_, rfl⟩

/-- A submitter changes only an idle thread, or one that expects its first job. -/
theorem Sound.workers_submitter (h : Sound p) (hstep : p.step act = some p')
    (hact : act.worker = none) : p'.workers = p.workers ∨
      (∃ new, p'.workers = p.workers ++ [new]) ∨
      ∃ (v : ℕ) (old new : Worker), p.workers[v]? = some old ∧
    (old.idling ∨ old.expecting = 1) ∧ p'.workers = p.workers.set v new := by
  cases act with
  | submit =>
    cases hstep
    unfold submit
    split <;> exact .inl rfl
  | place j =>
    simp only [step] at hstep
    split at hstep <;> cases hstep
    unfold place
    split
    · next w hlast =>
      obtain ⟨worker, hw, hidling⟩ := (h.idle_iff w).mp (List.mem_of_getLast? hlast)
      rw [hw]
      split
      · exact .inl rfl
      · exact .inl rfl
      · next heq =>
        cases heq
        exact .inr (.inr ⟨w, _, _, hw, .inl hidling, rfl⟩)
    · split
      · exact .inl rfl
      · exact .inr (.inl ⟨_, rfl⟩)
  | spawn j starts =>
    simp only [step] at hstep
    split at hstep
    · next w hj =>
      cases starts <;> cases hstep
      · exact .inl rfl
      · exact .inr (.inr ⟨w, _, _, h.unborn j w (.inl hj), .inr rfl, rfl⟩)
    · cases hstep
  | send j =>
    simp only [step] at hstep
    split at hstep
    · next w hj =>
      obtain ⟨worker, hworker, rfl⟩ := Option.map_eq_some_iff.mp hstep
      exact .inr (.inr ⟨w, _, _, h.starting j w hj, .inr rfl, rfl⟩)
    · cases hstep
  | unspawn j =>
    simp only [step] at hstep
    split at hstep <;> cases hstep
    next w hj => exact .inr (.inr ⟨w, _, _, h.unborn j w (.inr hj), .inr rfl, rfl⟩)
  | drop j =>
    simp only [step] at hstep
    split at hstep <;> cases hstep
    exact .inl rfl
  | _ => cases hact

theorem Sound.workers_other (h : Sound p) (hstep : p.step act = some p')
    {worker : Worker} (hw : p.workers[w]? = some worker) (hother : act.worker ≠ some w)
    (hnot : ¬ worker.idling) (hexpecting : worker.expecting = 0) :
    p'.workers[w]? = some worker := by
  have hset : ∀ {v : ℕ} {new : Worker}, v ≠ w → (p.workers.set v new)[w]? = some worker := by
    intro v new hv
    rw [List.getElem?_set_ne hv, hw]
  cases hact : act.worker with
  | some v =>
    obtain ⟨new, hworkers⟩ := workers_thread hstep hact
    rw [hworkers]
    refine hset fun hv => hother ?_
    rw [hact, hv]
  | none =>
    obtain hsame | ⟨new, hmore⟩ | ⟨v, old, new, hold, hfree, hchanged⟩ :=
      h.workers_submitter hstep hact
    · rw [hsame, hw]
    · rw [hmore, List.getElem?_append_left (List.getElem?_eq_some_iff.mp hw).1, hw]
    · rw [hchanged]
      refine hset ?_
      rintro rfl
      rw [hw] at hold
      cases hold
      rcases hfree with hidling | hone
      · exact hnot hidling
      · omega

/-- The pool keeps its bound, and its queue moves up when a thread takes its front, and otherwise stays
or grows. -/
theorem queued_step (hstep : p.step act = some p') : p'.max = p.max ∧
    ((∃ more, p'.queued = p.queued ++ more) ∨
      ∃ w job, act = .next w ∧ p.queued = job :: p'.queued ∧ p'.begun = p.begun ++ [job]) := by
  have hsame : ∀ {q : Pool}, q.max = p.max → q.queued = p.queued → q.max = p.max ∧
      ((∃ more, q.queued = p.queued ++ more) ∨
        ∃ w job, act = .next w ∧ p.queued = job :: q.queued ∧ q.begun = p.begun ++ [job]) :=
    fun hmax h => ⟨hmax, .inl ⟨[], by rw [h, List.append_nil]⟩⟩
  cases act with
  | submit =>
    cases hstep
    unfold submit
    split <;> exact hsame rfl rfl
  | place j =>
    simp only [step] at hstep
    split at hstep <;> cases hstep
    unfold place
    split
    · split <;> exact hsame rfl rfl
    · split
      · exact ⟨rfl, .inl ⟨[j], rfl⟩⟩
      · exact hsame rfl rfl
  | spawn j starts =>
    simp only [step] at hstep
    split at hstep
    · cases starts <;> cases hstep <;> exact hsame rfl rfl
    · cases hstep
  | send j =>
    simp only [step] at hstep
    split at hstep
    · obtain ⟨worker, hworker, rfl⟩ := Option.map_eq_some_iff.mp hstep
      exact hsame rfl rfl
    · cases hstep
  | next w =>
    simp only [step] at hstep
    split at hstep <;> cases hstep
    unfold next
    split
    · next job rest hqueued => exact ⟨rfl, .inr ⟨w, job, rfl, hqueued, rfl⟩⟩
    · exact hsame rfl rfl
  | leave w =>
    simp only [step] at hstep
    split at hstep <;> cases hstep
    unfold leave
    split <;> exact hsame rfl rfl
  | _ =>
    simp only [step] at hstep
    split at hstep <;> cases hstep <;> exact hsame rfl rfl

theorem Sound.queued_other (h : Sound p') (hstep : p.step act = some p') {i : ℕ}
    (hj : p.queued[i]? = some j) :
    p'.queued[i]? = some j ∨ j ∈ p'.begun ∨ ∃ r w, r ≤ 2 * i + 2 ∧ Awaits j p' r w := by
  rcases (queued_step hstep).2 with ⟨more, hmore⟩ | ⟨w, job, -, hfront, hbegun⟩
  · rw [hmore, List.getElem?_append_left (List.getElem?_eq_some_iff.mp hj).1]
    exact .inl hj
  · rw [hfront] at hj
    cases i with
    | zero =>
      cases hj
      rw [hbegun]
      exact .inr (.inl (List.mem_append_right _ (List.mem_singleton_self j)))
    | succ i =>
      obtain ⟨r, v, hr, hawaits⟩ := h.helper (i := i) (j := j) hj
      exact .inr (.inr ⟨r, v, by omega, hawaits⟩)

theorem Sound.awaits_other (h : Sound p) (hstep : p.step act = some p')
    (hawaits : Awaits j p r w) (hother : act.worker ≠ some w) :
    Awaits j p' r w ∨ j ∈ p'.begun ∨ ∃ r' w', r' < r ∧ Awaits j p' r' w' := by
  have h' := sound_step _ _ _ h hstep
  cases hawaits with
  | sent hw hstate =>
    refine .inl (.sent (h.workers_other hstep hw hother (fun h => nomatch h.2) ?_) hstate)
    rcases hstate with rfl | rfl <;> rfl
  | waiting hw => exact .inl (.waiting (h.workers_other hstep hw hother (fun h => nomatch h.2) rfl))
  | ran hj hw =>
    have hw' := h.workers_other hstep hw hother (not_idling ⟨nofun, nofun⟩) rfl
    obtain hj' | hbegun | ⟨r', w', hr, hawaits⟩ := h'.queued_other hstep hj
    · exact .inl (.ran hj' hw')
    · exact .inr (.inl hbegun)
    · exact .inr (.inr ⟨r', w', by omega, hawaits⟩)
  | running hj hw =>
    have hw' := h.workers_other hstep hw hother (not_idling ⟨nofun, nofun⟩) rfl
    obtain hj' | hbegun | ⟨r', w', hr, hawaits⟩ := h'.queued_other hstep hj
    · exact .inl (.running hj' hw')
    · exact .inr (.inl hbegun)
    · exact .inr (.inr ⟨r', w', by omega, hawaits⟩)

/-- A step of the thread that helps brings a job nearer. -/
theorem Sound.awaits_own (h : Sound p) (hstep : p.step act = some p')
    (hawaits : Awaits j p r w) (hown : act.worker = some w) :
    j ∈ p'.begun ∨ ∃ r' w', r' < r ∧ Awaits j p' r' w' := by
  have h' := sound_step _ _ _ h hstep
  cases hawaits with
  | sent hw hstate =>
    have hlt := (List.getElem?_eq_some_iff.mp hw).1
    refine .inl ?_
    rcases hstate with rfl | rfl <;> cases act <;> cases hown <;>
      simp only [step, hw, reduceCtorEq, Option.some.injEq] at hstep
    · rw [← hstep]
      exact List.mem_append_right _ (List.mem_singleton_self j)
    · rw [← hstep]
      exact List.mem_append_right _ (List.mem_singleton_self j)
  | waiting hw =>
    have hlt := (List.getElem?_eq_some_iff.mp hw).1
    cases act <;> cases hown <;> simp only [step, hw, reduceCtorEq, Option.some.injEq] at hstep
    · rw [← hstep]
      exact .inl (List.mem_append_right _ (List.mem_singleton_self j))
    · refine .inr ⟨1, w, by omega, .sent ?_ (.inr rfl)⟩
      rw [← hstep]
      exact List.getElem?_set_self hlt
  | @ran _ i hj hw =>
    cases act <;> cases hown <;> simp only [step, hw, reduceCtorEq, Option.some.injEq] at hstep
    subst hstep
    unfold next at h' ⊢
    cases hqueued : p.queued with
    | nil =>
      rw [hqueued] at hj
      cases hj
    | cons job rest =>
      rw [hqueued] at hj
      simp only [hqueued] at h' ⊢
      cases i with
      | zero =>
        cases hj
        exact .inl (List.mem_append_right _ (List.mem_singleton_self j))
      | succ i =>
        obtain ⟨r, v, hr, hawaits⟩ := h'.helper (i := i) (j := j) hj
        exact .inr ⟨r, v, by omega, hawaits⟩
  | @running _ i k hj hw =>
    have hlt := (List.getElem?_eq_some_iff.mp hw).1
    cases act <;> cases hown <;> simp only [step, hw, reduceCtorEq, Option.some.injEq] at hstep
    subst hstep
    exact .inr ⟨2 * i + 3, w, by omega, .ran hj (List.getElem?_set_self hlt)⟩

theorem begun_of_taken {states : ℕ → Pool} {acts : ℕ → PoolAct} {max : ℕ}
    (hstart : states 0 = new max) (h : Execution step states acts)
    (hfair : Fair goes PoolAct.worker states acts) {n : ℕ}
    (hj : (states n).submits[j]? = some (.done true)) : ∃ m, n ≤ m ∧ j ∈ (states m).begun := by
  have hsound : ∀ n, Sound (states n) := h.kept sound_step (by rw [hstart]; exact sound_new max)
  rcases (hsound n).awaits hj with hbegun | ⟨r, w, hawaits⟩
  · exact ⟨n, le_refl n, hbegun⟩
  · refine hfair.leads h (P := fun r w p => Sound p ∧ Awaits j p r w) (Q := fun p => j ∈ p.begun)
      (fun r w p hp => hp.2.goes) ?_ ?_ ⟨hsound n, hawaits⟩
    · intro r w p act p' hp hstep hother
      have hsound' := sound_step _ _ _ hp.1 hstep
      rcases hp.1.awaits_other hstep hp.2 hother with hsame | hgoal | ⟨r', w', hr, hnear⟩
      · exact .inl ⟨hsound', hsame⟩
      · exact .inr (.inl hgoal)
      · exact .inr (.inr ⟨r', w', hr, hsound', hnear⟩)
    · intro r w p act p' hp hstep hown
      have hsound' := sound_step _ _ _ hp.1 hstep
      rcases hp.1.awaits_own hstep hp.2 hown with hgoal | ⟨r', w', hr, hnear⟩
      · exact .inl hgoal
      · exact .inr ⟨r', w', hr, hsound', hnear⟩

theorem max_step (m : ℕ) : Kept step fun p => p.max = m :=
  fun _ _ _ h hstep => (queued_step hstep).1.trans h

theorem Sound.not_taken (h : Sound p) (hj : p.submits[j]? ≠ some (.done true)) :
    j ∉ p.begun ∧ j ∉ p.queued ∧ ∀ worker ∈ p.workers, j ∉ worker.channel := by
  have hnone := h.jobs j
  rw [if_neg hj] at hnone
  refine ⟨List.count_eq_zero.mp (by omega), List.count_eq_zero.mp (by omega), fun worker hw => ?_⟩
  obtain ⟨w, hw⟩ := List.mem_iff_getElem?.mp hw
  have hle := le_tally (w := fun worker : Worker => worker.channel.count j) hw
  exact List.count_eq_zero.mp (by omega)

/-- Each job taken is in one place, and along a fair execution is begun, once; one refused
is nowhere, and every place is a job's that is not yet run or is running. Places and threads
keep to their bounds, and the jobs in the queue are no more than the threads that have no
job with a place and will come for one. -/
theorem jobs_run_once (max : ℕ) :
    (∀ acts p, run step (new max) acts = some p →
      (∀ j, p.submits[j]? = some (.done true) → p.begun.count j + p.queued.count j +
        tally (fun worker => worker.channel.count j) p.workers = 1) ∧
      (∀ j, p.submits[j]? ≠ some (.done true) →
        j ∉ p.begun ∧ j ∉ p.queued ∧ ∀ worker ∈ p.workers, j ∉ worker.channel) ∧
      p.places = tally SubmitAt.holds p.submits + p.queued.length + tally Worker.held p.workers ∧
      p.places ≤ Nat.max max 1 ∧ tally Worker.live p.workers ≤ Nat.max max 1 ∧
      p.queued.length ≤ tally Worker.finishing p.workers) ∧
    ∀ states acts, states 0 = new max → Execution step states acts →
      Fair goes PoolAct.worker states acts → ∀ n j, (states n).submits[j]? = some (.done true) →
        ∃ m, n ≤ m ∧ (states m).begun.count j = 1 := by
  constructor
  · intro acts p hrun
    have hsound := sound_step.run (sound_new max) hrun
    have hmax : p.max = Nat.max max 1 := (max_step _).run rfl hrun
    refine ⟨fun j hj => ?_, fun j hj => hsound.not_taken hj, hsound.places_eq, ?_, ?_,
      hsound.finishers⟩
    · have hone := hsound.jobs j
      rwa [if_pos hj] at hone
    · rw [← hmax]
      exact hsound.places_le
    · rw [← hmax, ← hsound.threads_eq]
      exact hsound.threads_le
  · intro states acts hstart h hfair n j hj
    obtain ⟨m, hm, hbegun⟩ := begun_of_taken hstart h hfair hj
    have hsound := h.kept sound_step (by rw [hstart]; exact sound_new max) m
    have hle := hsound.jobs j
    have hpos := List.count_pos_iff.mpr hbegun
    refine ⟨m, hm, ?_⟩
    split at hle <;> omega

/-- One job goes to a new thread, which then waits while jobs come that nobody places. -/
private def alone : ℕ → PoolAct
  | 0 => .submit
  | 1 => .place 0
  | 2 => .spawn 0 true
  | 3 => .send 0
  | 4 => .receive 0
  | 5 => .finish 0
  | 6 => .next 0
  | _ + 7 => .submit

private def aloneAt (n : ℕ) : Pool :=
  ((List.range n).map alone).foldl (fun p act => (p.step act).getD p) (new 1)

theorem aloneAt_succ (n : ℕ) : aloneAt (n + 1) = ((aloneAt n).step (alone n)).getD (aloneAt n) := by
  simp only [aloneAt, List.range_succ, List.map_append, List.foldl_append, List.map_cons, List.map_nil,
    List.foldl_cons, List.foldl_nil]

theorem alone_execution : Execution step aloneAt alone := by
  intro n
  match n with
  | 0 | 1 | 2 | 3 | 4 | 5 | 6 => rfl
  | n + 7 => exact (congrArg some (aloneAt_succ (n + 7))).symm

theorem alone_workers (n : ℕ) : (aloneAt (n + 7)).workers = [⟨.waiting, []⟩] := by
  induction n with
  | zero => rfl
  | succ n ih =>
    rw [aloneAt_succ]
    change (aloneAt (n + 7)).submit.workers = _
    unfold submit
    split <;> exact ih

theorem alone_fair : Fair goes PoolAct.worker aloneAt alone := by
  intro w n hgoes
  have hw := hgoes (n + 7) (by omega)
  unfold goes at hw
  rw [alone_workers] at hw
  cases w with
  | zero => exact absurd rfl hw
  | succ w => exact absurd hw id

/-- A job handed to a new thread is run. -/
theorem jobs_run_once_alone : ∃ states acts, states 0 = new 1 ∧ Execution step states acts ∧
    Fair goes PoolAct.worker states acts ∧ (states 4).submits[0]? = some (.done true) ∧
    ∃ m, 4 ≤ m ∧ (states m).begun.count 0 = 1 :=
  ⟨aloneAt, alone, rfl, alone_execution, alone_fair, rfl,
    (jobs_run_once 1).2 aloneAt alone rfl alone_execution alone_fair 4 0 rfl⟩

end Pool

end Guatiao.Link
