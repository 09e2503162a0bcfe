import Guatiao.Library.Leases

/-!
# What is closed is out of reach

The count of a lease is the number of its holders. While an unload or a collection asks, nothing
holds the library but the registry; once it is closed nothing does, and nothing can again.
-/

namespace Guatiao.Library

open Lib

namespace Ranked

theorem mem_leases {providers : List Provider} {lease : ℕ} :
    lease ∈ (providers.foldl Snapshot.add .empty).leases ↔ ∃ p ∈ providers, p.hold = lease :=
  (shows_foldl providers).held lease

namespace Registry

variable {r r' : Registry}

theorem mem_publish {lease : ℕ} :
    lease ∈ r.publish.snapshot.leases ↔ ∃ p ∈ r.providers, p.hold = lease := by
  rw [publish, mem_leases]
  simp only [(List.mergeSort_perm r.providers ahead).mem_iff, ranked]

theorem mem_publishWithout {lease other : ℕ} :
    lease ∈ (r.publishWithout other).snapshot.leases ↔
      ∃ p ∈ r.providers, p.hold ≠ other ∧ p.hold = lease := by
  rw [publishWithout, mem_leases]
  simp only [List.mem_filter, (List.mergeSort_perm r.providers ahead).mem_iff, ranked,
    decide_eq_true_eq, and_assoc]

theorem absorb_loaded {path canonical : Path} {source : String} {opened : Opened} {one : Loaded}
    (hbyKey : r.byKey = index (fun p : Provider => p.key) r.providers)
    (h : r.absorb path source canonical opened = (.loaded one, r')) :
    one.lease = r.nextLease ∧ one.path = path ∧ (∀ l ∈ r.loaded, l.key ≠ one.key) ∧
      ∃ more : List Provider, more.length = one.providers ∧
        (∀ p ∈ more, p.hold = r.nextLease ∧ p.from = path) ∧
        r' = publish { r with
          loaded := r.loaded ++ [one]
          providers := r.providers ++ more
          byKey := index (fun p : Provider => p.key) (r.providers ++ more)
          nextLease := r.nextLease + 1 } := by
  cases opened with
  | loaded library =>
    simp only [absorb] at h
    split at h
    · cases h
    · next hnone =>
      split at h
      · cases h
      · next taken skipped htaken =>
        rw [push_all hbyKey, Prod.mk.injEq, Loading.loaded.injEq] at h
        obtain ⟨rfl, rfl⟩ := h
        refine ⟨rfl, rfl, ?_, taken.zipIdx.map (r.provided path source library), ?_, ?_, rfl⟩
        · intro l hl
          simpa using List.find?_eq_none.mp hnone l hl
        · simp
        · intro p hp
          obtain ⟨t, -, rfl⟩ := List.mem_map.mp hp
          exact ⟨rfl, rfl⟩
  | _ => cases h

end Registry

end Ranked

namespace Leases

variable {s s' : Leases}

/-- The count of each lease is how often it is in a list. -/
def Counts (s : Leases) (holders : List ℕ) : Prop := ∀ lease, s.count lease = holders.count lease

variable {leases hs hs' : List ℕ}

theorem Counts.congr (h : Counts s hs) (hsame : ∀ lease, hs.count lease = hs'.count lease) :
    Counts s hs' :=
  fun lease => (h lease).trans (hsame lease)

theorem Counts.acquire (h : Counts s hs) : Counts (s.acquire leases) (leases ++ hs) := by
  intro lease
  rw [Leases.acquire, List.count_append, Nat.add_comm]
  exact congrArg (· + leases.count lease) (h lease)

theorem Counts.release (h : Counts s (leases ++ hs)) : Counts (s.release leases) hs := by
  intro lease
  have hcount := h lease
  rw [List.count_append] at hcount
  simp only [Leases.release, hcount, Nat.add_sub_cancel_left]

theorem Counts.republish (h : Counts s (s.registry.snapshot.leases ++ hs))
    (registry : Ranked.Registry) :
    Counts (s.republish registry) (registry.snapshot.leases ++ hs) := by
  have hmore : Counts (s.acquire registry.snapshot.leases)
      (s.registry.snapshot.leases ++ (registry.snapshot.leases ++ hs)) :=
    h.acquire.congr fun lease => by
      simp only [List.count_append]
      omega
  exact hmore.release

/-- The leases whose last hold of the registry is about to be dropped. -/
def dropping (todo : List Task) : List ℕ :=
  todo.filterMap fun
    | .drop lease => some lease
    | _ => none

/-- The leases of the libraries about to be closed. -/
def closing (todo : List Task) : List ℕ :=
  todo.filterMap fun
    | .close lease => some lease
    | _ => none

/-- The retired libraries still to be settled. -/
def settling (todo : List Task) : List (String × ℕ) :=
  todo.filterMap fun
    | .settle key lease => some (key, lease)
    | .askLeaving key lease => some (key, lease)
    | _ => none

theorem settling_append (todo more : List Task) : settling (todo ++ more) = settling todo ++ settling more :=
  List.filterMap_append

theorem dropping_append (todo more : List Task) : dropping (todo ++ more) = dropping todo ++ dropping more :=
  List.filterMap_append

theorem closing_append (todo more : List Task) : closing (todo ++ more) = closing todo ++ closing more :=
  List.filterMap_append

theorem dropping_cons {task : Task} (h : dropping [task] = []) (rest : List Task) :
    dropping (task :: rest) = dropping rest := by
  rw [← List.singleton_append, dropping_append, h, List.nil_append]

theorem closing_cons {task : Task} (h : closing [task] = []) (rest : List Task) :
    closing (task :: rest) = closing rest := by
  rw [← List.singleton_append, closing_append, h, List.nil_append]

/-- A task of a collection. -/
def Task.collects : Task → Bool
  | .collect | .settle .. | .askLeaving .. | .drop .. | .close .. => true
  | _ => false

/-- A task of an unload. -/
def Task.unloads : Task → Bool
  | .unload .. | .holds .. | .ask .. | .refuse .. | .take .. => true
  | _ => false

/-- Neither: what it leaves behind is its own. -/
def Task.quiet : Task → Bool
  | .settle .. | .askLeaving .. | .drop .. | .close .. => false
  | task => !task.unloads

/-- What a collection still asks of a retired library. -/
def Task.settles : Task → Bool
  | .settle .. | .askLeaving .. => true
  | _ => false

/-- The leases the registry keeps for a library, each by the one record of it. -/
def records (s : Leases) : List ℕ :=
  s.registry.loaded.map (·.lease) ++ (s.leaving.map Prod.snd ++ dropping s.todo)

/-- Who holds what, an entry for each hold. -/
def holders (s : Leases) : List ℕ :=
  s.records ++ (s.registry.providers.map (·.hold) ++ (s.registry.snapshot.leases ++ s.outside))

/-- Nothing holds a lease, and none is given out by its number again. -/
structure Sealed (s : Leases) (lease : ℕ) : Prop where
  loaded : lease ∉ s.registry.loaded.map (·.lease)
  leaving : lease ∉ s.leaving.map Prod.snd
  providers : lease ∉ s.registry.providers.map (·.hold)
  snapshot : lease ∉ s.registry.snapshot.leases
  outside : lease ∉ s.outside
  below : lease < s.registry.nextLease

/-- How far the registry is in its call: an unload is the last it does, and until the library is
taken the registry is as it was when the call began, but for what it shows. -/
inductive Stage (s : Leases) : Prop
  | plain (hshown : s.registry.publish = s.registry) (htodo : ∀ task ∈ s.todo, task.unloads = false)
      (hrefused : ∀ why, s.answer = some (.refused why) → s.todo = [] ∧ s.registry = s.called)
  | collecting (key : String) (before : List Task) (hshown : s.registry.publish = s.registry)
      (htodo : s.todo = before ++ [.unload key]) (hbefore : ∀ task ∈ before, task.collects = true)
      (hcalled : s.registry = s.called) (hanswer : s.answer = none)
  | asking (one : Ranked.Loaded) (task : Task) (htodo : s.todo = [task])
      (hone : s.registry.loaded.find? (·.key = one.key) = some one)
      (hcalled : s.registry = s.called.publishWithout one.lease) (hshown : s.called.publish = s.called)
      (htask : task = .holds one.key one.lease ∨
        (task = .ask one.key one.lease ∨ task = .take one.key one.lease) ∧ one.lease ∉ s.outside)
      (hanswer : s.answer = none)
  | refusing (why : Refusal) (lease : ℕ) (htodo : s.todo = [.refuse why])
      (hcalled : s.registry = s.called.publishWithout lease) (hshown : s.called.publish = s.called)
      (hanswer : s.answer = none)

/-- What holds at any time. -/
structure Reckoned (s : Leases) : Prop where
  sound : s.registry.publish.Sound
  shown : ∀ lease ∈ s.registry.snapshot.leases, lease ∈ s.registry.providers.map (·.hold)
  /-- A provider's library is registered from where the provider was. -/
  owned : ∀ p ∈ s.registry.providers, ∃ l ∈ s.registry.loaded, l.lease = p.hold ∧ l.path = p.from
  counted : Counts s s.holders
  records : s.records.Nodup
  below : ∀ lease ∈ s.holders, lease < s.registry.nextLease
  /-- What is about to be closed, or is, is no one's, and no number of a lease to come. -/
  ended : ∀ lease ∈ closing s.todo ++ s.closed, lease ∉ s.registry.loaded.map (·.lease) ∧
    lease ∉ s.leaving.map Prod.snd ∧ lease ∉ s.outside ∧ lease < s.registry.nextLease
  closings : (closing s.todo ++ s.closed).Nodup
  /-- The registry's own hold is dropped before. -/
  dropped : s.todo.Pairwise fun task later => ∀ lease, task = .close lease → later ≠ .drop lease
  dropped' : ∀ lease ∈ s.closed, .drop lease ∉ s.todo
  settling : ∀ e ∈ settling s.todo, e ∈ s.leaving
  settlings : (Leases.settling s.todo).Nodup
  /-- A collection is done before anything else goes on. -/
  settled : s.todo.Pairwise fun task later => later.settles = true → task.quiet = false
  asked : ∀ key lease, .askLeaving key lease ∈ s.todo → lease ∉ s.outside
  stage : Stage s

theorem reckoned_start (key libraryKey : KeyTemplate) : Reckoned (start key libraryKey) where
  sound := by
    refine Ranked.Registry.sound_publish .nil rfl .nil fun p hp => ?_
    cases hp
  shown := nofun
  owned := nofun
  counted := fun _ => rfl
  records := .nil
  below := nofun
  ended := nofun
  closings := .nil
  dropped := .nil
  dropped' := nofun
  settling := nofun
  settlings := .nil
  settled := .nil
  asked := nofun
  stage := by
    refine .plain ?_ nofun nofun
    simp [start, Ranked.Registry.publish, Ranked.Registry.new, Ranked.ranked, Ranked.Snapshot.empty]

/-- What holds of what there is still to be done. -/
structure Agenda (todo : List Task) (closed : List ℕ) (leaving : List (String × ℕ)) (outside : List ℕ) :
    Prop where
  dropped : todo.Pairwise fun task later => ∀ lease, task = .close lease → later ≠ .drop lease
  dropped' : ∀ lease ∈ closed, .drop lease ∉ todo
  settling : ∀ e ∈ settling todo, e ∈ leaving
  settlings : (Leases.settling todo).Nodup
  settled : todo.Pairwise fun task later => later.settles = true → task.quiet = false
  asked : ∀ key lease, .askLeaving key lease ∈ todo → lease ∉ outside

variable {lease : ℕ} {task : Task} {rest more : List Task} {key : String} {ended held : List ℕ}
  {retired : List (String × ℕ)}

theorem Reckoned.agenda (h : Reckoned s) : Agenda s.todo s.closed s.leaving s.outside :=
  ⟨h.dropped, h.dropped', h.settling, h.settlings, h.settled, h.asked⟩

theorem Agenda.tail (h : Agenda (task :: rest) ended retired held) : Agenda rest ended retired held where
  dropped := (List.pairwise_cons.mp h.dropped).2
  dropped' := fun lease hlease hin => h.dropped' lease hlease (List.mem_cons_of_mem _ hin)
  settling := fun e he => h.settling e (((List.sublist_cons_self task rest).filterMap _).mem he)
  settlings := h.settlings.sublist ((List.sublist_cons_self task rest).filterMap _)
  settled := (List.pairwise_cons.mp h.settled).2
  asked := fun key lease hin => h.asked key lease (List.mem_cons_of_mem _ hin)

theorem Reckoned.behind (h : Reckoned s) (htodo : s.todo = task :: rest) :
    Agenda rest s.closed s.leaving s.outside :=
  Agenda.tail (htodo ▸ h.agenda)

theorem Agenda.cons (h : Agenda rest ended retired held)
    (hclose : ∀ lease, task = .close lease → .drop lease ∉ rest) (hdrop : ∀ lease ∈ ended, task ≠ .drop lease)
    (hsettling : ∀ e ∈ Leases.settling [task], e ∈ retired ∧ e ∉ Leases.settling rest)
    (hsettled : task.quiet = true → ∀ t ∈ rest, t.settles = false)
    (hasked : ∀ key lease, task = .askLeaving key lease → lease ∉ held) :
    Agenda (task :: rest) ended retired held where
  dropped := List.pairwise_cons.mpr ⟨fun t ht lease heq ht' => hclose lease heq (ht' ▸ ht), h.dropped⟩
  dropped' := fun lease hlease hin => by
    rcases List.mem_cons.mp hin with heq | hin
    · exact hdrop lease hlease heq.symm
    · exact h.dropped' lease hlease hin
  settling := fun e he => by
    rw [← List.singleton_append, settling_append, List.mem_append] at he
    exact he.elim (fun he => (hsettling e he).1) (h.settling e)
  settlings := by
    rw [← List.singleton_append, settling_append, List.nodup_append]
    refine ⟨?_, h.settlings, fun e he e' he' heq => (hsettling e he).2 (heq ▸ he')⟩
    cases task <;> simp [Leases.settling]
  settled := by
    refine List.pairwise_cons.mpr ⟨fun t ht hsettles => ?_, h.settled⟩
    by_contra hquiet
    rw [hsettled (by simpa using hquiet) t ht] at hsettles
    cases hsettles
  asked := fun key lease hin => by
    rcases List.mem_cons.mp hin with heq | hin
    · exact hasked key lease heq.symm
    · exact h.asked key lease hin

theorem Agenda.of_not (hmore : ∀ t ∈ more, t.settles = false ∧ dropping [t] = []) :
    Agenda more ended retired held := by
  induction more with
  | nil => exact ⟨.nil, nofun, nofun, .nil, .nil, nofun⟩
  | cons task more ih =>
    rw [List.forall_mem_cons] at hmore
    refine (ih hmore.2).cons (fun lease _ hin => ?_) (fun lease _ heq => ?_) ?_
      (fun _ t ht => (hmore.2 t ht).1) ?_
    · cases (hmore.2 _ hin).2
    · cases heq ▸ hmore.1.2
    all_goals
      have hnot := hmore.1.1
      cases task <;> simp [Task.settles, Leases.settling] at hnot ⊢

theorem Agenda.closes (h : Agenda rest ended retired held) (hdue : .drop lease ∉ rest)
    (hnew : lease ∉ ended) : Agenda (.drop lease :: .close lease :: rest) ended retired held := by
  have hclose : Agenda (.close lease :: rest) ended retired held := by
    refine h.cons (fun other heq => ?_) nofun nofun nofun nofun
    cases heq
    exact hdue
  refine hclose.cons nofun (fun other hother heq => ?_) nofun nofun nofun
  cases heq
  exact hnew hother

theorem Agenda.push (h : Agenda rest ended retired held) (hrest : ∀ t ∈ rest, t.settles = false)
    (hmore : ∀ t ∈ more, t.quiet = true) : Agenda (more ++ rest) ended retired held := by
  induction more with
  | nil => exact h
  | cons task more ih =>
    rw [List.forall_mem_cons] at hmore
    have hnone : ∀ t ∈ more ++ rest, t.settles = false := by
      intro t ht
      rcases List.mem_append.mp ht with ht | ht
      · have hquiet := hmore.2 t ht
        cases t <;> simp [Task.quiet, Task.settles] at hquiet ⊢
      · exact hrest t ht
    refine (ih hmore.2).cons ?_ ?_ ?_ (fun _ => hnone) ?_
    all_goals
      have hquiet := hmore.1
      cases task <;> simp [Task.quiet, Leases.settling] at hquiet ⊢

theorem Agenda.settles {es : List (String × ℕ)} (h : Agenda rest ended retired held)
    (hrest : Leases.settling rest = []) (hes : ∀ e ∈ es, e ∈ retired) (hnodup : es.Nodup) :
    Agenda ((es.map fun e => .settle e.1 e.2) ++ rest) ended retired held := by
  induction es with
  | nil => exact h
  | cons e es ih =>
    rw [List.forall_mem_cons] at hes
    rw [List.nodup_cons] at hnodup
    refine (ih hes.2 hnodup.2).cons nofun nofun (fun e' he' => ?_) nofun nofun
    cases List.mem_singleton.mp he'
    refine ⟨hes.1, ?_⟩
    rw [settling_append, hrest, List.append_nil]
    simpa [Leases.settling, List.filterMap_map] using hnodup.1

theorem Reckoned.of_agenda (hsound : s.registry.publish.Sound)
    (hshown : ∀ lease ∈ s.registry.snapshot.leases, lease ∈ s.registry.providers.map (·.hold))
    (howned : ∀ p ∈ s.registry.providers, ∃ l ∈ s.registry.loaded, l.lease = p.hold ∧ l.path = p.from)
    (hcounted : Counts s s.holders) (hrecords : s.records.Nodup)
    (hbelow : ∀ lease ∈ s.holders, lease < s.registry.nextLease)
    (hended : ∀ lease ∈ closing s.todo ++ s.closed, lease ∉ s.registry.loaded.map (·.lease) ∧
      lease ∉ s.leaving.map Prod.snd ∧ lease ∉ s.outside ∧ lease < s.registry.nextLease)
    (hclosings : (closing s.todo ++ s.closed).Nodup)
    (hagenda : Agenda s.todo s.closed s.leaving s.outside) (hstage : Stage s) : Reckoned s :=
  ⟨hsound, hshown, howned, hcounted, hrecords, hbelow, hended, hclosings, hagenda.dropped, hagenda.dropped',
    hagenda.settling, hagenda.settlings, hagenda.settled, hagenda.asked, hstage⟩

theorem Reckoned.same (h : Reckoned s) (hregistry : s'.registry = s.registry)
    (hleaving : s'.leaving = s.leaving) (hcount : s'.count = s.count) (houtside : s'.outside = s.outside)
    (hdropping : dropping s'.todo = dropping s.todo)
    (hended : (closing s'.todo ++ s'.closed).Perm (closing s.todo ++ s.closed))
    (hagenda : Agenda s'.todo s'.closed s'.leaving s'.outside) (hstage : Stage s') : Reckoned s' := by
  have hrecords : s'.records = s.records := by
    rw [Leases.records, hregistry, hleaving, hdropping, Leases.records]
  have hholders : s'.holders = s.holders := by
    rw [holders, hrecords, hregistry, houtside, holders]
  refine .of_agenda (hregistry ▸ h.sound) (hregistry ▸ h.shown) (hregistry ▸ h.owned) (fun lease => ?_)
    (hrecords ▸ h.records) ?_ (fun lease hlease => ?_) (hended.nodup_iff.mpr h.closings) hagenda hstage
  · rw [hcount, hholders]
    exact h.counted lease
  · rw [hholders, hregistry]
    exact h.below
  · rw [hregistry, hleaving, houtside]
    exact h.ended lease (hended.mem_iff.mp hlease)

theorem Stage.congr (h : Stage s) (hregistry : s'.registry = s.registry) (htodo : s'.todo = s.todo)
    (hcalled : s'.called = s.called) (hanswer : s'.answer = s.answer)
    (houtside : ∀ lease, s.todo ≠ [] → lease ∉ s.registry.snapshot.leases → lease ∉ s.outside →
      lease ∉ s'.outside) : Stage s' := by
  rcases h with ⟨hshown, hall, hrefused⟩ | ⟨key, before, hshown, hbefore, hcollecting, hcall, hnone⟩ |
    ⟨one, task, hone, hfind, hcall, hshown, htask, hnone⟩ | ⟨why, lease, hone, hcall, hshown, hnone⟩
  · refine .plain (hregistry ▸ hshown) (htodo ▸ hall) fun why heq => ?_
    rw [htodo, hregistry, hcalled]
    exact hrefused why (hanswer ▸ heq)
  · exact .collecting key before (hregistry ▸ hshown) (htodo.trans hbefore) hcollecting
      (by rw [hregistry, hcalled, hcall]) (hanswer.trans hnone)
  · refine .asking one task (htodo.trans hone) (hregistry ▸ hfind) (by rw [hregistry, hcalled, hcall])
      (hcalled ▸ hshown) (htask.imp_right fun hout => ⟨hout.1, houtside _ ?_ (fun hin => ?_) hout.2⟩)
      (hanswer.trans hnone)
    · rw [hone]
      exact List.cons_ne_nil _ _
    · -- The services show the library no more.
      rw [hcall, Ranked.Registry.mem_publishWithout] at hin
      obtain ⟨p, -, hne, heq⟩ := hin
      exact hne heq
  · exact .refusing why lease (htodo.trans hone) (by rw [hregistry, hcalled, hcall]) (hcalled ▸ hshown)
      (hanswer.trans hnone)

theorem Reckoned.not_provided (h : Reckoned s)
    (hlease : lease ∉ s.registry.loaded.map (·.lease)) : lease ∉ s.registry.providers.map (·.hold) := by
  intro hmem
  obtain ⟨p, hp, rfl⟩ := List.mem_map.mp hmem
  obtain ⟨l, hl, heq, -⟩ := h.owned p hp
  exact hlease (heq ▸ List.mem_map_of_mem hl)

theorem Reckoned.not_loaded (h : Reckoned s) (hlease : lease ∈ s.leaving.map Prod.snd) :
    lease ∉ s.registry.loaded.map (·.lease) := by
  intro hmem
  exact (List.nodup_append.mp h.records).2.2 lease hmem lease (List.mem_append_left _ hlease) rfl

theorem Reckoned.sealed (h : Reckoned s) (hmem : lease ∈ closing s.todo ++ s.closed) :
    Sealed s lease := by
  obtain ⟨hloaded, hleaving, houtside, hbelow⟩ := h.ended lease hmem
  have hproviders := h.not_provided hloaded
  exact ⟨hloaded, hleaving, hproviders, fun hin => hproviders (h.shown lease hin), houtside, hbelow⟩

/-- Where a hold can come from: another one, an answer of the services, or, while the registry is in
no call, a registered provider. -/
def Reaches (s : Leases) (lease : ℕ) : Prop :=
  lease ∈ s.outside ∨ lease ∈ s.registry.snapshot.leases ∨
    s.todo = [] ∧ lease ∈ s.registry.providers.map (·.hold)

theorem Reckoned.unreached (h : Reckoned s)
    (hloaded : lease ∉ s.registry.loaded.map (·.lease)) (houtside : lease ∉ s.outside) :
    ¬ s.Reaches lease := by
  have hproviders := h.not_provided hloaded
  rintro (hin | hin | ⟨-, hin⟩)
  · exact houtside hin
  · exact hproviders (h.shown lease hin)
  · exact hproviders hin

theorem Reckoned.hold (h : Reckoned s) (hreaches : s.Reaches lease) :
    Reckoned (s.hold lease) := by
  have hholders : ∀ other, other ∈ (s.hold lease).holders ↔ other = lease ∨ other ∈ s.holders := by
    intro other
    simp only [holders, Leases.records, Leases.hold, Leases.acquire, List.mem_append, List.mem_cons]
    tauto
  have hmem : lease ∈ s.holders := by
    simp only [holders, List.mem_append]
    rcases hreaches with hin | hin | ⟨-, hin⟩ <;> simp [hin]
  have hnew : ∀ other, other ∉ s.registry.loaded.map (·.lease) → other ∉ s.outside →
      other ∉ lease :: s.outside := by
    intro other hloaded houtside hin
    rcases List.mem_cons.mp hin with rfl | hin
    · exact h.unreached hloaded houtside hreaches
    · exact houtside hin
  refine .of_agenda h.sound h.shown h.owned ?_ h.records (fun other hother => ?_) (fun other hother => ?_)
    h.closings { h.agenda with asked := fun key other hother => ?_ } ?_
  · have hcounted : Counts (s.hold lease) ([lease] ++ s.holders) := h.counted.acquire
    refine hcounted.congr fun other => ?_
    simp only [holders, Leases.records, Leases.hold, Leases.acquire, List.count_append, List.count_cons,
      List.count_nil]
    omega
  · rcases (hholders other).mp hother with rfl | hother
    · exact h.below other hmem
    · exact h.below other hother
  · obtain ⟨hloaded, hleaving, houtside, hbelow⟩ := h.ended other hother
    exact ⟨hloaded, hleaving, hnew other hloaded houtside, hbelow⟩
  · have hleaving : (key, other) ∈ s.leaving :=
      h.settling (key, other) (List.mem_filterMap.mpr ⟨_, hother, rfl⟩)
    exact hnew other (h.not_loaded (List.mem_map_of_mem hleaving)) (h.asked key other hother)
  · refine h.stage.congr rfl rfl rfl rfl fun other hcall hshown hout hin => ?_
    rcases List.mem_cons.mp hin with rfl | hin
    · rcases hreaches with hin | hin | ⟨hnil, -⟩
      · exact hout hin
      · exact hshown hin
      · exact hcall hnil
    · exact hout hin

theorem Reckoned.letGo (h : Reckoned s) (hmem : lease ∈ s.outside) :
    Reckoned { s.release [lease] with outside := s.outside.erase lease } := by
  have hless : ∀ other, other ∉ s.outside → other ∉ s.outside.erase lease :=
    fun other hother hin => hother (List.mem_of_mem_erase hin)
  refine .of_agenda h.sound h.shown h.owned ?_ h.records (fun other hother => ?_) (fun other hother => ?_)
    h.closings { h.agenda with asked := fun key other hother => hless other (h.asked key other hother) }
    (h.stage.congr rfl rfl rfl rfl fun other _ _ => hless other)
  · have hcounted : Counts s ([lease] ++ (s.records ++ (s.registry.providers.map (·.hold) ++
        (s.registry.snapshot.leases ++ s.outside.erase lease)))) := by
      refine h.counted.congr fun other => ?_
      have herase := (List.perm_cons_erase hmem).count_eq other
      simp only [holders, List.count_append, List.count_cons, List.count_nil] at herase ⊢
      omega
    exact hcounted.release
  · refine h.below other ?_
    simp only [holders, Leases.records, Leases.release, List.mem_append] at hother ⊢
    rcases hother with hother | hother | hother | hother
    · exact .inl hother
    · exact .inr (.inl hother)
    · exact .inr (.inr (.inl hother))
    · exact .inr (.inr (.inr (List.mem_of_mem_erase hother)))
  · obtain ⟨hloaded, hleaving, houtside, hbelow⟩ := h.ended other hother
    exact ⟨hloaded, hleaving, hless other houtside, hbelow⟩

theorem lists_quiet {tasks : List Task} (h : ∀ task ∈ tasks, task.quiet = true) :
    dropping tasks = [] ∧ closing tasks = [] ∧ Leases.settling tasks = [] := by
  refine ⟨?_, ?_, ?_⟩ <;>
  · rw [List.eq_nil_iff_forall_not_mem]
    intro x hx
    obtain ⟨task, htask, heq⟩ := List.mem_filterMap.mp hx
    have hquiet := h task htask
    cases task <;> simp [Task.quiet] at heq hquiet

theorem not_unloads_of_quiet (h : task.quiet = true) : task.unloads = false := by
  cases task <;> simp_all [Task.quiet, Task.unloads]

/-- A registry that is at a task neither of an unload nor of a collection is in no unload. -/
theorem Reckoned.plain (h : Reckoned s) (htodo : s.todo = task :: rest)
    (hunloads : task.unloads = false) (hcollects : task.collects = false) :
    s.registry.publish = s.registry ∧ (∀ t ∈ rest, t.unloads = false) ∧
      ∀ why, s.answer ≠ some (.refused why) := by
  rcases h.stage with ⟨hshown, hall, hrefused⟩ | ⟨key, before, -, hbefore, hcollecting, -, -⟩ |
    ⟨one, t, hone, -, -, -, ht⟩ | ⟨why, lease, hone, -⟩
  · refine ⟨hshown, fun t ht => hall t (htodo ▸ List.mem_cons_of_mem _ ht), fun why hanswer => ?_⟩
    have hnil := (hrefused why hanswer).1
    rw [htodo] at hnil
    cases hnil
  · rw [htodo] at hbefore
    cases before with
    | nil =>
      rw [List.nil_append, List.cons.injEq] at hbefore
      rw [hbefore.1] at hunloads
      cases hunloads
    | cons t before =>
      rw [List.cons_append, List.cons.injEq] at hbefore
      rw [hbefore.1, hcollecting t (List.mem_cons_self ..)] at hcollects
      cases hcollects
  · rw [htodo, List.cons.injEq] at hone
    rw [hone.1] at hunloads
    rcases ht with rfl | ⟨rfl | rfl, -⟩ <;> cases hunloads
  · rw [htodo, List.cons.injEq] at hone
    rw [hone.1] at hunloads
    cases hunloads

theorem Reckoned.turn (h : Reckoned s)
    (htodo : s.todo = task :: rest) (htask : task.quiet = true) (hcollects : task.collects = false)
    (hregistry : s'.registry = s.registry) (hleaving : s'.leaving = s.leaving)
    (hcount : s'.count = s.count) (houtside : s'.outside = s.outside) (hclosed : s'.closed = s.closed)
    (hanswer : s'.answer = s.answer) (htodo' : s'.todo = more ++ rest)
    (hmore : ∀ t ∈ more, t.quiet = true) : Reckoned s' := by
  obtain ⟨hdrop, hclose, -⟩ := lists_quiet hmore
  obtain ⟨hdrop', hclose', -⟩ := lists_quiet (List.forall_mem_singleton.mpr htask)
  have hdropping : dropping s'.todo = dropping s.todo := by
    rw [htodo, htodo', dropping_cons hdrop', dropping_append, hdrop, List.nil_append]
  have hclosing : closing s'.todo = closing s.todo := by
    rw [htodo, htodo', closing_cons hclose', closing_append, hclose, List.nil_append]
  obtain ⟨hshown, hrest, hrefused⟩ := h.plain htodo (not_unloads_of_quiet htask) hcollects
  have hbefore := h.settled
  rw [htodo, List.pairwise_cons] at hbefore
  refine h.same hregistry hleaving hcount houtside hdropping (by rw [hclosing, hclosed]) ?_ ?_
  · rw [htodo', hclosed, hleaving, houtside]
    refine (h.behind htodo).push (fun t ht => ?_) hmore
    by_contra hsettles
    rw [hbefore.1 t ht (by simpa using hsettles)] at htask
    cases htask
  · refine .plain (hregistry ▸ hshown) (fun t ht => ?_) fun why heq => ?_
    · rw [htodo', List.mem_append] at ht
      rcases ht with ht | ht
      · exact not_unloads_of_quiet (hmore t ht)
      · exact hrest t ht
    · exact absurd (hanswer ▸ heq) (hrefused why)

theorem Stage.collect (h : Stage s) {more : List Task}
    (htodo : s.todo = task :: rest) (hcollects : task.collects = true)
    (hregistry : s'.registry = s.registry) (hcalled : s'.called = s.called)
    (hanswer : s'.answer = s.answer) (htodo' : s'.todo = more ++ rest)
    (hmore : ∀ t ∈ more, t.collects = true) : Stage s' := by
  have hnot : ∀ t : Task, t.collects = true → t.unloads = false := by
    intro t ht
    cases t <;> simp_all [Task.collects, Task.unloads]
  rcases h with ⟨hshown, hall, hrefused⟩ | ⟨key, before, hshown, hbefore, hcollecting, hcall, hnone⟩ |
    ⟨one, t, hone, -, -, -, ht⟩ | ⟨why, lease, hone, -⟩
  · refine .plain (hregistry ▸ hshown) (fun t ht => ?_) fun why heq => ?_
    · rw [htodo', List.mem_append] at ht
      rcases ht with ht | ht
      · exact hnot t (hmore t ht)
      · exact hall t (htodo ▸ List.mem_cons_of_mem _ ht)
    · have hnil := (hrefused why (hanswer ▸ heq)).1
      rw [htodo] at hnil
      cases hnil
  · rw [htodo] at hbefore
    cases before with
    | nil =>
      rw [List.nil_append, List.cons.injEq] at hbefore
      rw [hbefore.1] at hcollects
      cases hcollects
    | cons t before =>
      rw [List.cons_append, List.cons.injEq] at hbefore
      refine .collecting key (more ++ before) (hregistry ▸ hshown) ?_ (fun t ht => ?_) ?_
        (hanswer.trans hnone)
      · rw [htodo', hbefore.2, List.append_assoc]
      · rcases List.mem_append.mp ht with ht | ht
        · exact hmore t ht
        · exact hcollecting t (List.mem_cons_of_mem _ ht)
      · rw [hregistry, hcalled, hcall]
  · rw [htodo, List.cons.injEq] at hone
    rw [hone.1] at hcollects
    rcases ht with rfl | ⟨rfl | rfl, -⟩ <;> cases hcollects
  · rw [htodo, List.cons.injEq] at hone
    rw [hone.1] at hcollects
    cases hcollects

theorem Reckoned.collect (h : Reckoned s) (htodo : s.todo = .collect :: rest) :
    Reckoned { s with todo := (s.leaving.map fun e => .settle e.1 e.2) ++ rest } := by
  have hlists : dropping (s.leaving.map fun e => Task.settle e.1 e.2) = [] ∧
      closing (s.leaving.map fun e => Task.settle e.1 e.2) = [] := by
    refine ⟨?_, ?_⟩ <;>
      simp [dropping, closing, List.filterMap_map]
  have hbefore := h.settled
  rw [htodo, List.pairwise_cons] at hbefore
  have hnone : Leases.settling rest = [] := by
    rw [List.eq_nil_iff_forall_not_mem]
    intro e he
    obtain ⟨t, ht, heq⟩ := List.mem_filterMap.mp he
    have hsettles : t.settles = true := by
      cases t <;> simp [Task.settles] at heq ⊢
    cases hbefore.1 t ht hsettles
  have hleaving := (List.nodup_append.mp (List.nodup_append.mp h.records).2.1).1
  refine h.same rfl rfl rfl rfl ?_ (.of_eq (congrArg (· ++ _) ?_))
    ((h.behind htodo).settles hnone (fun _ he => he) (hleaving.of_map _))
    (h.stage.collect htodo rfl rfl rfl rfl rfl fun t ht => ?_)
  · rw [htodo, dropping_append]
    exact congrArg (· ++ _) hlists.1
  · rw [htodo, closing_append]
    exact congrArg (· ++ _) hlists.2
  · obtain ⟨e, -, rfl⟩ := List.mem_map.mp ht
    rfl

/-- A task that settles a library. -/
def Task.OfLeaving (key : String) (lease : ℕ) (task : Task) : Prop :=
  task = .settle key lease ∨ task = .askLeaving key lease

theorem Task.OfLeaving.lists (h : task.OfLeaving key lease)
    (rest : List Task) : dropping (task :: rest) = dropping rest ∧
      closing (task :: rest) = closing rest ∧
      Leases.settling (task :: rest) = (key, lease) :: Leases.settling rest := by
  rcases h with rfl | rfl
  · exact ⟨rfl, rfl, rfl⟩
  · exact ⟨rfl, rfl, rfl⟩

theorem Task.OfLeaving.collects (h : task.OfLeaving key lease) : task.collects = true := by
  rcases h with rfl | rfl
  · rfl
  · rfl

theorem Reckoned.leaving (h : Reckoned s)
    (htodo : s.todo = task :: rest) (htask : task.OfLeaving key lease) :
    (key, lease) ∈ s.leaving ∧ (key, lease) ∉ Leases.settling rest := by
  have hsettling := h.settling
  have hnodup := h.settlings
  rw [htodo, (htask.lists rest).2.2] at hsettling hnodup
  exact ⟨hsettling _ (List.mem_cons_self ..), (List.nodup_cons.mp hnodup).1⟩

theorem Reckoned.stays (h : Reckoned s) (htodo : s.todo = task :: rest) (htask : task.OfLeaving key lease) :
    Reckoned { s with todo := rest } := by
  obtain ⟨hdropping, hclosing, -⟩ := htask.lists rest
  rw [← htodo] at hdropping hclosing
  exact h.same rfl rfl rfl rfl hdropping.symm (.of_eq (congrArg (· ++ _) hclosing.symm)) (h.behind htodo)
    (h.stage.collect htodo htask.collects rfl rfl rfl (List.nil_append _).symm nofun)

theorem Reckoned.alone (h : Reckoned s) (hleaving : (key, lease) ∈ s.leaving)
    (hcount : ¬ 1 < s.count lease) : lease ∉ s.outside := by
  intro hin
  have hrecord : 0 < s.records.count lease := by
    rw [List.count_pos_iff, Leases.records, List.mem_append, List.mem_append]
    exact .inr (.inl (List.mem_map_of_mem hleaving))
  have houtside := List.count_pos_iff.mpr hin
  have hcounted := h.counted lease
  simp only [holders, List.count_append] at hcounted
  omega

theorem Reckoned.asks (h : Reckoned s)
    (htodo : s.todo = .settle key lease :: rest) (houtside : lease ∉ s.outside) :
    Reckoned { s with todo := .askLeaving key lease :: rest } := by
  have htask : (Task.settle key lease).OfLeaving key lease := .inl rfl
  refine h.same rfl rfl rfl rfl (htodo ▸ rfl) (by rw [htodo]; exact .rfl)
    ((h.behind htodo).cons nofun nofun (fun e he => ?_) nofun fun key' lease' heq => ?_)
    (h.stage.collect htodo rfl rfl rfl rfl (List.singleton_append ..).symm fun t ht => ?_)
  · cases List.mem_singleton.mp he
    exact h.leaving htodo htask
  · cases heq
    exact houtside
  · rw [List.mem_singleton.mp ht]
    rfl

theorem Reckoned.agreed (h : Reckoned s)
    (htodo : s.todo = task :: rest) (htask : task.OfLeaving key lease) (houtside : lease ∉ s.outside) :
    Reckoned (Leases.agreed { s with todo := rest } key lease) := by
  obtain ⟨hleaving, hturn⟩ := h.leaving htodo htask
  obtain ⟨hdropping, hclosing, -⟩ := htask.lists rest
  rw [← htodo] at hdropping hclosing
  have hperm : s.leaving.Perm ((key, lease) :: s.leaving.erase (key, lease)) :=
    List.perm_cons_erase hleaving
  have hperms : (s.leaving.map Prod.snd).Perm
      (lease :: (s.leaving.erase (key, lease)).map Prod.snd) := hperm.map Prod.snd
  have hless : ∀ other, other ∈ (s.leaving.erase (key, lease)).map Prod.snd →
      other ∈ s.leaving.map Prod.snd :=
    fun other hother => hperms.mem_iff.mpr (List.mem_cons_of_mem _ hother)
  have hrecords : (Leases.records (Leases.agreed { s with todo := rest } key lease)).Perm s.records := by
    refine List.Perm.append_left _ ?_
    show ((s.leaving.erase (key, lease)).map Prod.snd ++ lease :: dropping rest).Perm _
    rw [hdropping]
    exact List.perm_middle.trans (hperms.symm.append_right _)
  have hholders : (Leases.agreed { s with todo := rest } key lease).holders.Perm s.holders :=
    hrecords.append_right _
  have hnodup := h.records
  rw [← hrecords.nodup_iff] at hnodup
  have hgone : lease ∉ s.registry.loaded.map (·.lease) := h.not_loaded (List.mem_map_of_mem hleaving)
  have hgone' : lease ∉ (s.leaving.erase (key, lease)).map Prod.snd := by
    have hnodups := ((List.nodup_append.mp (List.nodup_append.mp h.records).2.1).1)
    rw [hperms.nodup_iff] at hnodups
    exact (List.nodup_cons.mp hnodups).1
  have hbelow : lease < s.registry.nextLease := by
    refine h.below lease ?_
    rw [holders, List.mem_append, Leases.records, List.mem_append, List.mem_append]
    exact .inl (.inr (.inl (List.mem_map_of_mem hleaving)))
  have hnew : lease ∉ closing s.todo ++ s.closed := fun hin =>
    (h.ended lease hin).2.1 (List.mem_map_of_mem hleaving)
  have hdue : .drop lease ∉ rest := by
    -- Its record was with the retired ones, so no drop of it was due.
    intro hin
    refine (List.nodup_append.mp (List.nodup_append.mp h.records).2.1).2.2 lease
      (List.mem_map_of_mem hleaving) lease ?_ rfl
    rw [hdropping]
    exact List.mem_filterMap.mpr ⟨_, hin, rfl⟩
  have hrest : Agenda rest s.closed (s.leaving.erase (key, lease)) s.outside := { h.behind htodo with
    settling := fun e he => by
      refine (List.mem_erase_of_ne ?_).mpr ((h.behind htodo).settling e he)
      rintro rfl
      exact hturn he }
  refine .of_agenda h.sound h.shown h.owned (h.counted.congr fun other => (hholders.count_eq other).symm)
    hnodup (fun other hother => h.below other (hholders.mem_iff.mp hother)) (fun other hother => ?_) ?_
    (hrest.closes hdue fun hin => hnew (List.mem_append_right _ hin))
    (h.stage.collect htodo htask.collects rfl rfl rfl rfl fun t ht => ?_)
  · rcases List.mem_cons.mp hother with rfl | hother
    · exact ⟨hgone, hgone', houtside, hbelow⟩
    · obtain ⟨hloaded, hleft, hout, hlow⟩ := h.ended other (by rw [hclosing]; exact hother)
      exact ⟨hloaded, fun hin => hleft (hless other hin), hout, hlow⟩
  · show (lease :: (closing rest ++ s.closed)).Nodup
    rw [List.nodup_cons, ← hclosing]
    exact ⟨hnew, h.closings⟩
  · rcases List.mem_cons.mp ht with rfl | ht
    · rfl
    · rw [List.mem_singleton.mp ht]
      rfl

theorem Reckoned.congr (h : Reckoned s) (hregistry : s'.registry = s.registry)
    (hleaving : s'.leaving = s.leaving) (hcount : s'.count = s.count) (houtside : s'.outside = s.outside)
    (htodo : s'.todo = s.todo) (hclosed : s'.closed = s.closed) (hcalled : s'.called = s.called)
    (hanswer : s'.answer = s.answer) : Reckoned s' :=
  h.same hregistry hleaving hcount houtside (by rw [htodo]) (by rw [htodo, hclosed])
    (by rw [htodo, hclosed, hleaving, houtside]; exact h.agenda)
    (h.stage.congr hregistry htodo hcalled hanswer fun _ _ _ hout => houtside ▸ hout)

theorem Reckoned.drop (h : Reckoned s) (htodo : s.todo = .drop lease :: rest) :
    Reckoned (Leases.release { s with todo := rest } [lease]) := by
  have hdropping : dropping s.todo = lease :: dropping rest := by
    rw [htodo]
    rfl
  have hclosing : closing s.todo = closing rest := by
    rw [htodo]
    rfl
  have hrecords : s.records.Perm (lease :: (Leases.release { s with todo := rest } [lease]).records) := by
    show (_ ++ (_ ++ dropping s.todo)).Perm (lease :: (_ ++ (_ ++ dropping rest)))
    rw [hdropping]
    exact ((List.perm_middle.append_left _).trans List.perm_middle)
  have hholders : s.holders.Perm (lease :: (Leases.release { s with todo := rest } [lease]).holders) :=
    hrecords.append_right _
  have hnodup := h.records
  rw [hrecords.nodup_iff] at hnodup
  have hcounted : Counts { s with todo := rest }
      ([lease] ++ (Leases.release { s with todo := rest } [lease]).holders) :=
    fun other => (h.counted other).trans (hholders.count_eq other)
  refine .of_agenda h.sound h.shown h.owned hcounted.release (List.nodup_cons.mp hnodup).2
    (fun other hother => h.below other (hholders.mem_iff.mpr (List.mem_cons_of_mem _ hother)))
    (fun other hother => h.ended other (by rw [hclosing]; exact hother)) ?_ (h.behind htodo)
    (h.stage.collect htodo rfl rfl rfl rfl (List.nil_append _).symm nofun)
  show (closing rest ++ s.closed).Nodup
  rw [← hclosing]
  exact h.closings

theorem Reckoned.close (h : Reckoned s) (htodo : s.todo = .close lease :: rest) :
    Reckoned { s with todo := rest, closed := s.closed ++ [lease] } := by
  have hlater := h.dropped
  rw [htodo, List.pairwise_cons] at hlater
  refine h.same rfl rfl rfl rfl (htodo ▸ rfl) ?_ { h.behind htodo with
      dropped' := fun other hother hin => ?_ }
    (h.stage.collect htodo rfl rfl rfl rfl (List.nil_append _).symm nofun)
  · show (closing rest ++ (s.closed ++ [lease])).Perm _
    rw [htodo, ← List.append_assoc]
    exact List.perm_append_singleton ..
  · rcases List.mem_append.mp hother with hother | hother
    · exact (h.behind htodo).dropped' other hother hin
    · cases List.mem_singleton.mp hother
      exact hlater.1 _ hin lease rfl rfl

end Leases

end Guatiao.Library
