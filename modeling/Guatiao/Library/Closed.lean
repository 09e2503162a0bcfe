import Guatiao.Library.Unreached

/-!
# The reckoning is kept

A library is taken out of the registry with its providers, and taken in with them. Whatever is
performed keeps the reckoning, and so does whatever is done beside it.
-/

namespace Guatiao.Library

open Lib

namespace Ranked.Registry

variable {r : Registry}

theorem retire_found {key : String} {one : Loaded} (h : r.loaded.find? (·.key = key) = some one) :
    (r.retire key).2 = publish { r with
      loaded := r.loaded.eraseP (·.key = key)
      providers := r.providers.filter (·.from ≠ one.path)
      byKey := index (·.key) (r.providers.filter (·.from ≠ one.path)) } := by
  rw [retire]
  split
  · next hnone =>
    rw [h] at hnone
    cases hnone
  · next other hother =>
    rw [h] at hother
    cases hother
    rfl

theorem perm_eraseP {key : String} {one : Loaded} (h : r.loaded.find? (·.key = key) = some one) :
    r.loaded.Perm (one :: r.loaded.eraseP (·.key = key)) := by
  obtain ⟨hkey, before, after, heq, hbefore⟩ := List.find?_eq_some_iff_append.mp h
  have herase : (before ++ one :: after).eraseP (·.key = key) = before ++ after := by
    rw [List.eraseP_append_right _ fun l hl => by simpa using hbefore l hl]
    simp [of_decide_eq_true hkey]
  rw [heq, herase]
  exact List.perm_middle

end Ranked.Registry

namespace Leases

variable {s s' : Leases}

/-- Where a library goes that is taken out: it is retired, let go, or closed. -/
inductive Goes (s : Leases) (key : String) (lease : ℕ) : List (String × ℕ) → List Task → Prop
  | retired : Goes s key lease [(key, lease)] []
  | drop : Goes s key lease [] [.drop lease]
  | close (houtside : lease ∉ s.outside) : Goes s key lease [] [.drop lease, .close lease]

variable {key : String} {one : Ranked.Loaded} {task : Task} {rest : List Task} {lease : ℕ}

theorem counts_takeLibrary (h : Counts s s.holders)
    (hfind : s.registry.loaded.find? (·.key = key) = some one) :
    Counts (s.takeLibrary key one) (s.records ++
      ((s.registry.retire key).2.providers.map (·.hold) ++
        ((s.registry.retire key).2.snapshot.leases ++ s.outside))) := by
  have hproviders : (s.registry.retire key).2.providers =
      s.registry.providers.filter (·.from ≠ one.path) := by
    rw [Ranked.Registry.retire_found hfind]
    rfl
  have hparted : (s.registry.providers.map (·.hold)).Perm
      ((s.registry.providers.filter (·.from = one.path)).map (·.hold) ++
        (s.registry.providers.filter (·.from ≠ one.path)).map (·.hold)) := by
    rw [← List.map_append]
    refine List.Perm.map _ ((List.filter_append_perm (fun p => decide (p.from = one.path)) _).symm.trans ?_)
    simp only [ne_eq, decide_not]
    exact .rfl
  have hcounts : Counts s ((s.registry.providers.filter (·.from = one.path)).map (·.hold) ++
      (s.registry.snapshot.leases ++ (s.records ++ ((s.registry.retire key).2.providers.map (·.hold) ++
        s.outside)))) := by
    refine h.congr fun lease => ?_
    have hcount := hparted.count_eq lease
    rw [hproviders]
    simp only [holders, List.count_append] at hcount ⊢
    omega
  have hless := hcounts.release
  have hnew : Counts (s.takeLibrary key one) ((s.registry.retire key).2.snapshot.leases ++
      (s.records ++ ((s.registry.retire key).2.providers.map (·.hold) ++ s.outside))) :=
    hless.republish _
  refine hnew.congr fun lease => ?_
  simp only [List.count_append]
  omega

/-- A library is taken out of the registry and goes somewhere. -/
structure Taken (s s' : Leases) (key : String) (one : Ranked.Loaded) (task : Task) (rest : List Task)
    (left : List (String × ℕ)) (more : List Task) : Prop where
  find : s.registry.loaded.find? (·.key = key) = some one
  goes : Goes s key one.lease left more
  todo : s.todo = task :: rest
  lists : dropping [task] = [] ∧ closing [task] = []
  registry : s'.registry = (s.registry.retire key).2
  outside : s'.outside = s.outside
  closed : s'.closed = s.closed
  leaving : s'.leaving = s.leaving ++ left
  todo' : s'.todo = more ++ rest

namespace Taken

variable {left : List (String × ℕ)} {more : List Task} (t : Taken s s' key one task rest left more)
include t

theorem loaded_eq : s'.registry.loaded = s.registry.loaded.eraseP (·.key = key) := by
  rw [t.registry, Ranked.Registry.retire_found t.find]
  rfl

theorem providers_eq :
    s'.registry.providers = s.registry.providers.filter (·.from ≠ one.path) := by
  rw [t.registry, Ranked.Registry.retire_found t.find]
  rfl

theorem nextLease_eq : s'.registry.nextLease = s.registry.nextLease := by
  rw [t.registry, Ranked.Registry.retire_found t.find]
  rfl

theorem perm : (s.registry.loaded.map (·.lease)).Perm
    (one.lease :: s'.registry.loaded.map (·.lease)) := by
  rw [t.loaded_eq]
  exact (Ranked.Registry.perm_eraseP t.find).map (·.lease)

theorem mem_loaded : one.lease ∈ s.registry.loaded.map (·.lease) :=
  t.perm.mem_iff.mpr (List.mem_cons_self ..)

theorem dropping_rest : dropping s.todo = dropping rest := by
  rw [t.todo, dropping_cons t.lists.1]

theorem dropping_eq : dropping s'.todo = dropping more ++ dropping s.todo := by
  rw [t.dropping_rest, t.todo', dropping_append]

theorem closing_eq : closing s'.todo = closing more ++ closing s.todo := by
  rw [t.todo, closing_cons t.lists.2, t.todo', closing_append]

theorem records : s'.records.Perm s.records := by
  have hwent : left.map Prod.snd ++ dropping more = [one.lease] := by
    cases t.goes <;> rfl
  rw [Leases.records, Leases.records, t.leaving, t.dropping_eq, List.map_append]
  refine List.Perm.trans ?_ (t.perm.symm.append_right _)
  rw [List.cons_append]
  refine List.Perm.trans ?_ List.perm_middle
  refine List.Perm.append_left _ ?_
  have hswap : ((left.map Prod.snd ++ dropping more) ++ (s.leaving.map Prod.snd ++ dropping s.todo)).Perm
      (one.lease :: (s.leaving.map Prod.snd ++ dropping s.todo)) := by
    rw [hwent]
    exact .rfl
  refine List.Perm.trans ?_ hswap
  rw [List.append_assoc, List.append_assoc]
  exact (List.perm_append_comm_assoc ..).trans (List.Perm.append_left _ (List.perm_append_comm_assoc ..))

theorem closable : ∀ lease ∈ closing more, lease = one.lease ∧ lease ∉ s.outside ∧ left = [] := by
  intro lease hlease
  cases t.goes with
  | retired => cases hlease
  | drop => cases hlease
  | close hout =>
    cases List.mem_singleton.mp hlease
    exact ⟨rfl, hout, rfl⟩

theorem leaves (hlease : lease ∈ s'.leaving.map Prod.snd) :
    lease ∈ s.leaving.map Prod.snd ∨ lease = one.lease ∧ left ≠ [] := by
  rw [t.leaving, List.map_append, List.mem_append] at hlease
  rcases hlease with hlease | hlease
  · exact .inl hlease
  · cases t.goes with
    | retired => exact .inr ⟨List.mem_singleton.mp hlease, List.cons_ne_nil _ _⟩
    | drop => cases hlease
    | close => cases hlease

theorem holders (hlease : lease ∈ s'.holders) : lease ∈ s.holders := by
  simp only [Leases.holders, List.mem_append] at hlease ⊢
  have hshown : lease ∈ s'.registry.providers.map (·.hold) →
      lease ∈ s.registry.providers.map (·.hold) := by
    intro hin
    rw [t.providers_eq] at hin
    obtain ⟨p, hp, rfl⟩ := List.mem_map.mp hin
    exact List.mem_map_of_mem (List.mem_filter.mp hp).1
  rcases hlease with hlease | hlease | hlease | hlease
  · exact .inl (t.records.mem_iff.mp hlease)
  · exact .inr (.inl (hshown hlease))
  · rw [t.registry, Ranked.Registry.retire_found t.find, Ranked.Registry.mem_publish] at hlease
    obtain ⟨p, hp, rfl⟩ := hlease
    exact .inr (.inl (List.mem_map_of_mem (List.mem_filter.mp hp).1))
  · exact .inr (.inr (.inr (t.outside ▸ hlease)))

theorem not_ended (h : Reckoned s) : one.lease ∉ closing s.todo ++ s.closed :=
  fun hin => (h.ended _ hin).1 t.mem_loaded

theorem agenda (h : Reckoned s) : Agenda s'.todo s'.closed s'.leaving s'.outside := by
  rw [t.todo', t.closed, t.leaving, t.outside]
  have hrest : Agenda rest s.closed (s.leaving ++ left) s.outside := { h.behind t.todo with
    settling := fun e he => List.mem_append_left _ ((h.behind t.todo).settling e he) }
  have hended : one.lease ∉ s.closed := fun hin => t.not_ended h (List.mem_append_right _ hin)
  cases t.goes with
  | retired => exact hrest
  | drop =>
    refine hrest.cons (fun lease heq => ?_) (fun lease hlease heq => hended (Task.drop.inj heq ▸ hlease))
      (fun e he => ?_) (fun hquiet => ?_) (fun key' lease heq => ?_)
    · cases heq
    · cases he
    · cases hquiet
    · cases heq
  | close =>
    refine hrest.closes (fun hin => ?_) hended
    -- The library was registered, so no drop of it was due.
    refine (List.nodup_append.mp h.records).2.2 one.lease t.mem_loaded one.lease ?_ rfl
    rw [t.dropping_rest]
    exact List.mem_append_right _ (List.mem_filterMap.mpr ⟨_, hin, rfl⟩)

theorem owned (h : Reckoned s) {p : Ranked.Provider} (hp : p ∈ s'.registry.providers) :
    ∃ l ∈ s'.registry.loaded, l.lease = p.hold ∧ l.path = p.from := by
  rw [t.providers_eq, List.mem_filter] at hp
  obtain ⟨l, hl, hlease, hpath⟩ := h.owned p hp.1
  refine ⟨l, ?_, hlease, hpath⟩
  have hmem := (Ranked.Registry.perm_eraseP t.find).mem_iff.mp hl
  rw [t.loaded_eq]
  refine (List.mem_cons.mp hmem).resolve_left ?_
  rintro rfl
  exact absurd hpath.symm (by simpa using hp.2)

theorem counted (h : Reckoned s) (hcount : s'.count = (s.takeLibrary key one).count) :
    Counts s' s'.holders := by
  have hcounts := counts_takeLibrary h.counted t.find
  have hmine : Counts s' (s.records ++ ((s.registry.retire key).2.providers.map (·.hold) ++
      ((s.registry.retire key).2.snapshot.leases ++ s.outside))) :=
    fun lease => (congrFun hcount lease).trans (hcounts lease)
  refine hmine.congr fun lease => ?_
  have hsame := t.records.count_eq lease
  rw [Leases.holders, t.registry, t.outside]
  simp only [List.count_append]
  omega

theorem ended (h : Reckoned s) (hlease : lease ∈ closing s'.todo ++ s'.closed) :
    lease ∉ s'.registry.loaded.map (·.lease) ∧ lease ∉ s'.leaving.map Prod.snd ∧
      lease ∉ s'.outside ∧ lease < s'.registry.nextLease := by
  rw [t.closing_eq, t.closed, List.append_assoc, List.mem_append] at hlease
  rw [t.outside, t.nextLease_eq]
  rcases hlease with hlease | hlease
  · obtain ⟨rfl, hfree, hnil⟩ := t.closable lease hlease
    refine ⟨?_, fun hin => ?_, hfree, h.below _ ?_⟩
    · have hnodup := (List.nodup_append.mp h.records).1
      rw [t.perm.nodup_iff] at hnodup
      exact (List.nodup_cons.mp hnodup).1
    · rcases t.leaves hin with hin | ⟨-, hsome⟩
      · exact h.not_loaded hin t.mem_loaded
      · exact hsome hnil
    · simp only [Leases.holders, Leases.records, List.mem_append]
      exact .inl (.inl t.mem_loaded)
  · obtain ⟨hnot, hnot', hfree, hbelow⟩ := h.ended lease hlease
    refine ⟨fun hin => hnot (t.perm.mem_iff.mpr (List.mem_cons_of_mem _ hin)), fun hin => ?_, hfree,
      hbelow⟩
    rcases t.leaves hin with hin | ⟨rfl, -⟩
    · exact hnot' hin
    · exact hnot t.mem_loaded

theorem closings (h : Reckoned s) : (closing s'.todo ++ s'.closed).Nodup := by
  rw [t.closing_eq, t.closed, List.append_assoc, List.nodup_append]
  refine ⟨?_, h.closings, fun lease hlease other hother heq => ?_⟩
  · cases t.goes with
    | retired => exact .nil
    | drop => exact .nil
    | close => exact List.nodup_singleton _
  · rw [(t.closable lease hlease).1] at heq
    exact t.not_ended h (heq ▸ hother)

end Taken

theorem Reckoned.take (h : Reckoned s) {more : List Task} {left : List (String × ℕ)}
    (hfind : s.registry.loaded.find? (·.key = key) = some one) (hgoes : Goes s key one.lease left more)
    (htodo : s.todo = task :: rest) (htask : dropping [task] = [] ∧ closing [task] = [])
    (hregistry : s'.registry = (s.registry.retire key).2)
    (hcount : s'.count = (s.takeLibrary key one).count) (houtside : s'.outside = s.outside)
    (hclosed : s'.closed = s.closed) (hleaving : s'.leaving = s.leaving ++ left)
    (htodo' : s'.todo = more ++ rest) (hstage : Stage s') : Reckoned s' := by
  have t : Taken s s' key one task rest left more :=
    ⟨hfind, hgoes, htodo, htask, hregistry, houtside, hclosed, hleaving, htodo'⟩
  refine .of_agenda ?_ (fun lease hlease => ?_) (fun p => t.owned h) (t.counted h hcount)
    (t.records.nodup_iff.mpr h.records) (fun lease hlease => ?_) (fun lease => t.ended h)
    (t.closings h) (t.agenda h) hstage
  · have hsound := Ranked.Registry.sound_retire h.sound key
    have hsame : s'.registry.publish = (s.registry.publish.retire key).2 := by
      rw [hregistry, Ranked.Registry.retire_found hfind,
        @Ranked.Registry.retire_found s.registry.publish key one hfind]
      rfl
    rw [hsame]
    exact hsound
  · rw [hregistry, Ranked.Registry.retire_found hfind, Ranked.Registry.mem_publish] at hlease
    obtain ⟨p, hp, rfl⟩ := hlease
    rw [t.providers_eq]
    exact List.mem_map_of_mem hp
  · rw [t.nextLease_eq]
    exact h.below lease (t.holders hlease)

/-- A library has been taken in with its providers, at the next lease. -/
structure Entered (s s' : Leases) (one : Ranked.Loaded) (more : List Ranked.Provider) (task : Task)
    (rest : List Task) : Prop where
  todo : s.todo = task :: rest
  lists : dropping [task] = [] ∧ closing [task] = []
  lease : one.lease = s.registry.nextLease
  holds : ∀ p ∈ more, p.hold = s.registry.nextLease ∧ p.from = one.path
  loaded : s'.registry.loaded = s.registry.loaded ++ [one]
  providers : s'.registry.providers = s.registry.providers ++ more
  nextLease : s'.registry.nextLease = s.registry.nextLease + 1
  shown : ∀ lease ∈ s'.registry.snapshot.leases, lease ∈ s'.registry.providers.map (·.hold)
  outside : s'.outside = s.outside
  closed : s'.closed = s.closed
  leaving : s'.leaving = s.leaving
  todo' : s'.todo = rest

namespace Entered

variable {more : List Ranked.Provider} (e : Entered s s' one more task rest)
include e

theorem dropping_eq : dropping s'.todo = dropping s.todo := by
  rw [e.todo, e.todo', dropping_cons e.lists.1]

theorem closing_eq : closing s'.todo = closing s.todo := by
  rw [e.todo, e.todo', closing_cons e.lists.2]

theorem fresh (h : Reckoned s) : one.lease ∉ s.holders :=
  fun hin => Nat.ne_of_lt (h.below _ hin) e.lease

theorem records : s'.records.Perm (one.lease :: s.records) := by
  rw [Leases.records, Leases.records, e.loaded, e.leaving, e.dropping_eq, List.map_append,
    List.append_assoc]
  exact List.perm_middle

theorem provided (hlease : lease ∈ s'.registry.providers.map (·.hold)) :
    lease = s.registry.nextLease ∨ lease ∈ s.registry.providers.map (·.hold) := by
  rw [e.providers, List.map_append, List.mem_append] at hlease
  refine hlease.symm.imp_left fun hin => ?_
  obtain ⟨p, hp, rfl⟩ := List.mem_map.mp hin
  exact (e.holds p hp).1

theorem holders (hlease : lease ∈ s'.holders) : lease = s.registry.nextLease ∨ lease ∈ s.holders := by
  simp only [Leases.holders, List.mem_append, e.records.mem_iff, List.mem_cons, e.lease,
    e.outside] at hlease ⊢
  rcases hlease with (hin | hin) | hin | hin | hin
  · exact .inl hin
  · exact .inr (.inl hin)
  · exact (e.provided hin).imp_right fun hin => .inr (.inl hin)
  · exact (e.provided (e.shown lease hin)).imp_right fun hin => .inr (.inl hin)
  · exact .inr (.inr (.inr (.inr hin)))

theorem owned (h : Reckoned s) {p : Ranked.Provider} (hp : p ∈ s'.registry.providers) :
    ∃ l ∈ s'.registry.loaded, l.lease = p.hold ∧ l.path = p.from := by
  rw [e.loaded]
  rw [e.providers] at hp
  rcases List.mem_append.mp hp with hp | hp
  · obtain ⟨l, hl, heq⟩ := h.owned p hp
    exact ⟨l, List.mem_append_left _ hl, heq⟩
  · obtain ⟨hhold, hfrom⟩ := e.holds p hp
    exact ⟨one, List.mem_append_right _ (List.mem_singleton_self _), by rw [e.lease, hhold],
      hfrom.symm⟩

theorem counted (h : Reckoned s) (hlength : more.length = one.providers)
    (hcount : s'.count = ((s.acquire (one.lease :: List.replicate one.providers one.lease)).republish
      s'.registry).count) : Counts s' s'.holders := by
  have hholds : more.map (·.hold) = List.replicate one.providers one.lease := by
    refine List.eq_replicate_iff.mpr ⟨by rw [List.length_map, hlength], fun lease hin => ?_⟩
    obtain ⟨p, hp, rfl⟩ := List.mem_map.mp hin
    rw [e.lease]
    exact (e.holds p hp).1
  have hcounts : Counts (s.acquire (one.lease :: List.replicate one.providers one.lease))
      (s.registry.snapshot.leases ++ (one.lease :: more.map (·.hold) ++ (s.records ++
        (s.registry.providers.map (·.hold) ++ s.outside)))) := by
    refine h.counted.acquire.congr fun lease => ?_
    rw [hholds]
    simp only [Leases.holders, List.count_append]
    omega
  intro lease
  have hnew := hcounts.republish s'.registry lease
  have hrecords := e.records.count_eq lease
  rw [hcount, hnew, Leases.holders, e.providers, e.outside]
  simp only [List.count_append, List.count_cons, List.map_append] at hrecords ⊢
  omega

theorem ended (h : Reckoned s) (hlease : lease ∈ closing s'.todo ++ s'.closed) :
    lease ∉ s'.registry.loaded.map (·.lease) ∧ lease ∉ s'.leaving.map Prod.snd ∧
      lease ∉ s'.outside ∧ lease < s'.registry.nextLease := by
  rw [e.closing_eq, e.closed] at hlease
  rw [e.loaded, e.leaving, e.outside, e.nextLease]
  obtain ⟨hnot, hleaving, hout, hbelow⟩ := h.ended lease hlease
  refine ⟨fun hmem => ?_, hleaving, hout, Nat.lt_succ_of_lt hbelow⟩
  rw [List.map_append, List.mem_append, List.map_singleton, List.mem_singleton, e.lease] at hmem
  rcases hmem with hmem | rfl
  · exact hnot hmem
  · exact Nat.lt_irrefl _ hbelow

end Entered

theorem Reckoned.absorbed (h : Reckoned s) {registry : Ranked.Registry}
    (htodo : s.todo = task :: rest) (htask : task.quiet = true)
    (hcollects : task.collects = false) {path canonical : Path} {source : String} {opened : Ranked.Opened}
    (hloaded : s.registry.absorb path source canonical opened = (.loaded one, registry)) :
    Reckoned (({ s with todo := rest }.acquire (one.lease ::
      List.replicate one.providers one.lease)).republish registry) := by
  obtain ⟨hshown, hrest, hrefused⟩ := h.plain htodo (not_unloads_of_quiet htask) hcollects
  have hbyKey : s.registry.byKey = index (fun p : Ranked.Provider => p.key) s.registry.providers :=
    h.sound.byKey
  have hsound := Ranked.Registry.sound_absorb (hshown ▸ h.sound) path source canonical opened
  rw [hloaded] at hsound
  obtain ⟨hlease, hpath, -, more, hlength, hmore, hregistry⟩ :=
    Ranked.Registry.absorb_loaded hbyKey hloaded
  obtain ⟨hdrop, hclose, -⟩ := lists_quiet (List.forall_mem_singleton.mpr htask)
  have e : Entered s (({ s with todo := rest }.acquire (one.lease ::
      List.replicate one.providers one.lease)).republish registry) one more task rest := by
    subst hregistry
    refine ⟨htodo, ⟨hdrop, hclose⟩, hlease, hpath ▸ hmore, rfl, rfl, rfl, fun lease hin => ?_, rfl, rfl,
      rfl, rfl⟩
    obtain ⟨p, hp, rfl⟩ := Ranked.Registry.mem_publish.mp hin
    exact List.mem_map_of_mem hp
  have hpublish : registry.publish = registry := by
    rw [hregistry]
    rfl
  refine .of_agenda (hpublish.symm ▸ hsound) e.shown (fun p => e.owned h) (e.counted h hlength rfl) ?_
    (fun lease hin => ?_) (fun lease => e.ended h) ?_ (h.behind htodo)
    (.plain hpublish hrest fun why hanswer => absurd hanswer (hrefused why))
  · rw [e.records.nodup_iff, List.nodup_cons]
    refine ⟨fun hin => e.fresh h ?_, h.records⟩
    rw [holders, List.mem_append]
    exact .inl hin
  · rw [e.nextLease]
    rcases e.holders hin with rfl | hin
    · exact Nat.lt_succ_self _
    · exact Nat.lt_succ_of_lt (h.below lease hin)
  · rw [e.closing_eq, e.closed]
    exact h.closings

theorem Reckoned.absorb (h : Reckoned s) (htodo : s.todo = task :: rest)
    (htask : task.quiet = true) (hcollects : task.collects = false) (path canonical : Path)
    (source : String) (opened : Ranked.Opened) (kept : Kept) :
    Reckoned ({ s with todo := rest }.absorb path source canonical opened kept).2 := by
  rw [Leases.absorb]
  split
  · next one registry hloaded =>
    exact (h.absorbed htodo htask hcollects hloaded).congr rfl rfl rfl rfl rfl rfl rfl rfl
  · exact h.turn htodo htask hcollects rfl rfl rfl rfl rfl rfl (List.nil_append _).symm nofun

theorem lists_unloads (h : task.unloads = true) : dropping [task] = [] ∧ closing [task] = [] := by
  cases task with
  | unload | holds | ask | refuse | take => exact ⟨rfl, rfl⟩
  | _ => cases h

/-- Only what the services read changes. -/
theorem Reckoned.shows (h : Reckoned s) (registry : Ranked.Registry)
    (htodo : s.todo = [task]) (htask : task.unloads = true)
    (hsame : registry = { s.registry with snapshot := registry.snapshot })
    (hshown : ∀ lease ∈ registry.snapshot.leases, lease ∈ s.registry.providers.map (·.hold))
    (hregistry : s'.registry = registry) (hcount : s'.count = (s.republish registry).count)
    (hleaving : s'.leaving = s.leaving) (houtside : s'.outside = s.outside) (hclosed : s'.closed = s.closed)
    (htodo' : ∀ t ∈ s'.todo, s'.todo = [t] ∧ t.unloads = true) (hstage : Stage s') : Reckoned s' := by
  obtain ⟨hdrop, hclose⟩ := lists_unloads htask
  rw [← htodo] at hdrop hclose
  obtain ⟨hdrop', hclose'⟩ : dropping s'.todo = [] ∧ closing s'.todo = [] := by
    cases hall : s'.todo with
    | nil => exact ⟨rfl, rfl⟩
    | cons t more =>
      obtain ⟨hone, hunloads⟩ := htodo' t (hall ▸ List.mem_cons_self ..)
      rw [← hall, hone]
      exact lists_unloads hunloads
  have hloaded : s'.registry.loaded = s.registry.loaded := by rw [hregistry, hsame]
  have hproviders : s'.registry.providers = s.registry.providers := by rw [hregistry, hsame]
  have hnext : s'.registry.nextLease = s.registry.nextLease := by rw [hregistry, hsame]
  have hpublish : s'.registry.publish = s.registry.publish := by
    rw [hregistry, hsame]
    rfl
  have hrecords : s'.records = s.records := by
    rw [Leases.records, Leases.records, hloaded, hleaving, hdrop, hdrop']
  have hagenda : Agenda s'.todo s'.closed s'.leaving s'.outside := by
    refine .of_not fun t ht => ?_
    have hunloads := (htodo' t ht).2
    refine ⟨?_, (lists_unloads hunloads).1⟩
    cases t <;> simp [Task.unloads, Task.settles] at hunloads ⊢
  refine .of_agenda (hpublish ▸ h.sound) (fun lease hin => ?_) ?_ ?_ (hrecords ▸ h.records)
    (fun lease hin => ?_) ?_ ?_ hagenda hstage
  · rw [hproviders]
    exact hshown lease (hregistry ▸ hin)
  · rw [hproviders, hloaded]
    exact h.owned
  · have hcounts : Counts s (s.registry.snapshot.leases ++ (s.records ++
        (s.registry.providers.map (·.hold) ++ s.outside))) := by
      refine h.counted.congr fun lease => ?_
      simp only [holders, List.count_append]
      omega
    intro lease
    have hnew := hcounts.republish registry lease
    rw [hcount, hnew, holders, hrecords, hproviders, hregistry, houtside]
    simp only [List.count_append]
    omega
  · rw [hnext]
    rw [holders, hrecords, hproviders, houtside, hregistry] at hin
    refine h.below lease ?_
    simp only [holders, List.mem_append] at hin ⊢
    rcases hin with hin | hin | hin | hin
    · exact .inl hin
    · exact .inr (.inl hin)
    · exact .inr (.inl (hshown lease hin))
    · exact .inr (.inr (.inr hin))
  · rw [hclose', hclosed, hloaded, hleaving, houtside, hnext, ← hclose]
    exact h.ended
  · rw [hclose', hclosed, ← hclose]
    exact h.closings

theorem Reckoned.goesOn (h : Reckoned s) {next : Task} (htodo : s.todo = [task])
    (htask : task.unloads = true) (hnext : next.unloads = true)
    (hstage : Stage { s with todo := [next] }) : Reckoned { s with todo := [next] } := by
  refine h.shows s.registry htodo htask rfl h.shown rfl ?_ rfl rfl rfl ?_ hstage
  · funext lease
    exact (Nat.add_sub_cancel ..).symm
  · intro t ht
    cases List.mem_singleton.mp ht
    exact ⟨rfl, hnext⟩

theorem Reckoned.unloading (h : Reckoned s) (htodo : s.todo = .unload key :: rest) :
    rest = [] ∧ s.registry.publish = s.registry ∧ s.registry = s.called ∧ s.answer = none := by
  rcases h.stage with ⟨-, hall, -⟩ | ⟨other, before, hshown, hbefore, hcollecting, hcalled, hanswer⟩ |
    ⟨one, t, hone, -, -, -, ht, -⟩ | ⟨why, lease, hone, -⟩
  · cases hall _ (htodo ▸ List.mem_cons_self ..)
  · rw [htodo] at hbefore
    cases before with
    | nil =>
      rw [List.nil_append, List.cons.injEq] at hbefore
      exact ⟨hbefore.2, hshown, hcalled, hanswer⟩
    | cons t before =>
      rw [List.cons_append, List.cons.injEq] at hbefore
      have hnot := hcollecting t (List.mem_cons_self ..)
      rw [← hbefore.1] at hnot
      cases hnot
  · rw [htodo, List.cons.injEq] at hone
    rw [← hone.1] at ht
    rcases ht with ht | ⟨ht | ht, -⟩ <;> cases ht
  · rw [htodo, List.cons.injEq] at hone
    cases hone.1

theorem Reckoned.unload (h : Reckoned s) (htodo : s.todo = .unload key :: rest) (answer : Answer) :
    Reckoned ({ s with todo := rest }.perform answer (.unload key)) := by
  obtain ⟨rfl, hshown, hcalled, hanswer⟩ := h.unloading htodo
  have hover : ∀ unloaded : Unloaded, (∀ why, unloaded ≠ .refused why) →
      Reckoned { s with todo := [], answer := some unloaded } := by
    intro unloaded hnot
    refine h.shows s.registry htodo rfl rfl h.shown rfl ?_ rfl rfl rfl nofun
      (.plain hshown nofun fun why heq => absurd (Option.some.inj heq) (hnot why))
    funext lease
    exact (Nat.add_sub_cancel ..).symm
  simp only [perform]
  split
  · exact hover .notFound nofun
  · next one hone =>
    have hkey : one.key = key := by simpa using List.find?_some hone
    split
    · refine h.shows (s.registry.publishWithout one.lease) htodo rfl rfl ?_ rfl rfl rfl rfl rfl
        ?_ (.asking one (.holds key one.lease) rfl (hkey ▸ hone) ?_ (hcalled ▸ hshown) (.inl ?_) hanswer)
      · intro lease hin
        obtain ⟨p, hp, -, rfl⟩ := Ranked.Registry.mem_publishWithout.mp hin
        exact List.mem_map_of_mem hp
      · intro t ht
        cases List.mem_singleton.mp ht
        exact ⟨rfl, rfl⟩
      · show s.registry.publishWithout one.lease = s.called.publishWithout one.lease
        rw [hcalled]
      · rw [hkey]
    · exact hover .linked nofun

theorem Reckoned.asking (h : Reckoned s) (htodo : s.todo = task :: rest)
    (htask : task = .holds key lease ∨ task = .ask key lease ∨ task = .take key lease) :
    rest = [] ∧ ∃ one : Ranked.Loaded, one.key = key ∧ one.lease = lease ∧
      s.registry.loaded.find? (·.key = key) = some one ∧
      s.registry = s.called.publishWithout lease ∧ s.called.publish = s.called ∧ s.answer = none ∧
      (task ≠ .holds key lease → lease ∉ s.outside) := by
  have hunloads : task.unloads = true := by
    rcases htask with rfl | rfl | rfl <;> rfl
  rcases h.stage with ⟨-, hall, -⟩ | ⟨other, before, -, hbefore, hcollecting, -, -⟩ |
    ⟨one, t, hone, hfind, hcalled, hshown, ht, hanswer⟩ | ⟨why, other, hone, -⟩
  · rw [hall task (htodo ▸ List.mem_cons_self ..)] at hunloads
    cases hunloads
  · rw [htodo] at hbefore
    cases before with
    | nil =>
      rw [List.nil_append, List.cons.injEq] at hbefore
      rcases htask with rfl | rfl | rfl <;> cases hbefore.1
    | cons t before =>
      rw [List.cons_append, List.cons.injEq] at hbefore
      have hcollects := hcollecting t (List.mem_cons_self ..)
      rw [← hbefore.1] at hcollects
      rcases htask with rfl | rfl | rfl <;> cases hcollects
  · rw [htodo, List.cons.injEq] at hone
    obtain ⟨rfl, rfl⟩ := hone
    have hsame : one.key = key ∧ one.lease = lease := by
      rcases ht with rfl | ⟨rfl | rfl, -⟩ <;> rcases htask with htask | htask | htask <;> cases htask <;>
        exact ⟨rfl, rfl⟩
    obtain ⟨rfl, rfl⟩ := hsame
    exact ⟨rfl, one, rfl, rfl, hfind, hcalled, hshown, hanswer, fun hnot => (ht.resolve_left hnot).2⟩
  · rw [htodo, List.cons.injEq] at hone
    rw [hone.1] at htask
    rcases htask with htask | htask | htask <;> cases htask

/-- While an unload asks, what the count has beside the registry's own is what is held outside. -/
theorem Reckoned.holds_outside (h : Reckoned s) (hone : one.lease = lease)
    (hfind : s.registry.loaded.find? (·.key = key) = some one)
    (hcalled : s.registry = s.called.publishWithout lease) :
    s.count lease - (1 + s.registry.providers.countP (·.hold = lease)) = s.outside.count lease := by
  have hmem : lease ∈ s.registry.loaded.map (·.lease) :=
    hone ▸ List.mem_map_of_mem (List.mem_of_find?_eq_some hfind)
  have hrecord : s.records.count lease = 1 := by
    refine List.count_eq_one_of_mem h.records ?_
    rw [Leases.records, List.mem_append]
    exact .inl hmem
  have hshown : s.registry.snapshot.leases.count lease = 0 := by
    rw [List.count_eq_zero, hcalled, Ranked.Registry.mem_publishWithout]
    rintro ⟨p, -, hne, heq⟩
    exact hne heq
  have hmine : (s.registry.providers.map (·.hold)).count lease =
      s.registry.providers.countP (·.hold = lease) := by
    rw [List.count, List.countP_map]
    rfl
  have hcounted := h.counted lease
  simp only [holders, List.count_append] at hcounted
  omega

theorem Reckoned.holds (h : Reckoned s) (htodo : s.todo = .holds key lease :: rest) (answer : Answer) :
    Reckoned ({ s with todo := rest }.perform answer (.holds key lease)) := by
  obtain ⟨rfl, one, rfl, rfl, hfind, hcalled, hshown, hanswer, -⟩ := h.asking htodo (.inl rfl)
  have hrefuse : ∀ why, Reckoned { s with todo := [.refuse why] } := fun why =>
    h.goesOn htodo rfl rfl (.refusing why one.lease rfl hcalled hshown hanswer)
  have hcount := h.holds_outside rfl hfind hcalled
  simp only [perform]
  split
  · exact hrefuse _
  · next hnone =>
    have houtside : one.lease ∉ s.outside := by
      rw [← List.count_eq_zero, ← hcount]
      exact Nat.eq_zero_of_not_pos hnone
    split
    · exact h.goesOn htodo rfl rfl
        (.asking one _ rfl hfind hcalled hshown (.inr ⟨.inl rfl, houtside⟩) hanswer)
    · split
      · exact h.goesOn htodo rfl rfl
          (.asking one _ rfl hfind hcalled hshown (.inr ⟨.inr rfl, houtside⟩) hanswer)
      · exact hrefuse _

theorem Reckoned.ask (h : Reckoned s) (htodo : s.todo = .ask key lease :: rest) (answer : Answer) :
    Reckoned ({ s with todo := rest }.perform answer (.ask key lease)) := by
  obtain ⟨rfl, one, rfl, rfl, hfind, hcalled, hshown, hanswer, houtside⟩ := h.asking htodo (.inr (.inl rfl))
  simp only [perform]
  split
  · exact h.goesOn htodo rfl rfl
      (.asking one _ rfl hfind hcalled hshown (.inr ⟨.inr rfl, houtside nofun⟩) hanswer)
  · exact h.goesOn htodo rfl rfl (.refusing _ one.lease rfl hcalled hshown hanswer)

theorem Reckoned.refuse (h : Reckoned s) {why : Refusal}
    (htodo : s.todo = .refuse why :: rest) (answer : Answer) :
    Reckoned ({ s with todo := rest }.perform answer (.refuse why)) := by
  rcases h.stage with ⟨-, hall, -⟩ | ⟨other, before, -, hbefore, hcollecting, -, -⟩ |
    ⟨one, t, hone, -, -, -, ht, -⟩ | ⟨other, lease, hone, hcalled, hshown, -⟩
  · cases hall _ (htodo ▸ List.mem_cons_self ..)
  · rw [htodo] at hbefore
    cases before with
    | nil =>
      rw [List.nil_append, List.cons.injEq] at hbefore
      cases hbefore.1
    | cons t before =>
      rw [List.cons_append, List.cons.injEq] at hbefore
      have hcollects := hcollecting t (List.mem_cons_self ..)
      rw [← hbefore.1] at hcollects
      cases hcollects
  · rw [htodo, List.cons.injEq] at hone
    rw [← hone.1] at ht
    rcases ht with ht | ⟨ht | ht, -⟩ <;> cases ht
  · rw [htodo, List.cons.injEq] at hone
    obtain ⟨-, rfl⟩ := hone
    have hback : s.registry.publish = s.called := by
      rw [hcalled, ← hshown]
      rfl
    refine h.shows s.registry.publish htodo rfl rfl ?_ rfl rfl rfl rfl rfl nofun
      (.plain rfl nofun fun _ _ => ⟨rfl, hback⟩)
    intro lease hin
    obtain ⟨p, hp, rfl⟩ := Ranked.Registry.mem_publish.mp hin
    exact List.mem_map_of_mem hp

theorem Reckoned.takes (h : Reckoned s) (htodo : s.todo = .take key lease :: rest) (answer : Answer) :
    Reckoned ({ s with todo := rest }.perform answer (.take key lease)) := by
  obtain ⟨rfl, one, rfl, rfl, hfind, hcalled, -, -, houtside⟩ := h.asking htodo (.inr (.inr rfl))
  simp only [perform, hfind, Option.elim_some]
  refine h.take hfind (.close (houtside nofun)) htodo ⟨rfl, rfl⟩ rfl rfl rfl rfl
    (List.append_nil _).symm rfl ?_
  refine .plain ?_ (fun t ht => ?_) nofun
  · show ((s.registry.retire one.key).2).publish = (s.registry.retire one.key).2
    rw [Ranked.Registry.retire_found hfind]
    rfl
  · rcases List.mem_cons.mp ht with rfl | ht
    · rfl
    · rw [List.mem_singleton.mp ht]
      rfl

theorem Reckoned.retire (h : Reckoned s) (htodo : s.todo = .retire key :: rest) (answer : Answer) :
    Reckoned ({ s with todo := rest }.perform answer (.retire key)) := by
  obtain ⟨hshown, hrest, hrefused⟩ := h.plain htodo rfl rfl
  simp only [perform]
  cases hfind : s.registry.loaded.find? (·.key = key) with
  | none =>
    exact h.turn htodo rfl rfl rfl rfl rfl rfl rfl rfl (List.nil_append _).symm nofun
  | some one =>
    have hpublish : (s.registry.retire key).2.publish = (s.registry.retire key).2 := by
      rw [Ranked.Registry.retire_found hfind]
      rfl
    rw [Option.elim_some]
    split
    · exact h.take hfind .retired htodo ⟨rfl, rfl⟩ rfl rfl rfl rfl rfl
        (List.nil_append _).symm (.plain hpublish hrest fun why heq => absurd heq (hrefused why))
    · refine h.take hfind .drop htodo ⟨rfl, rfl⟩ rfl rfl rfl rfl
        (List.append_nil _).symm rfl (.plain hpublish (fun t ht => ?_) fun why heq =>
          absurd heq (hrefused why))
      rcases List.mem_cons.mp ht with rfl | ht
      · rfl
      · exact hrest t ht

theorem Reckoned.hear (h : Reckoned s) (at_ opening : ℕ) (id stamp : String) (parts : Bool) (holds : ℕ) :
    Reckoned (s.hear at_ opening id stamp parts holds) := by
  rw [Leases.hear]
  split
  · exact h.congr rfl rfl rfl rfl rfl rfl rfl rfl
  · exact h

theorem Reckoned.settle (h : Reckoned s) (htodo : s.todo = .settle key lease :: rest) (answer : Answer) :
    Reckoned ({ s with todo := rest }.perform answer (.settle key lease)) := by
  have htask : (Task.settle key lease).OfLeaving key lease := .inl rfl
  have hstays := h.stays htodo htask
  simp only [perform]
  split
  · exact hstays
  · next hcount =>
    have houtside := h.alone (h.leaving htodo htask).1 hcount
    cases s.kept lease with
    | none => exact hstays
    | some kept =>
      rw [Option.elim_some]
      split
      · exact h.asks htodo houtside
      · split
        · exact h.agreed htodo htask houtside
        · exact hstays

theorem Reckoned.withdraw (h : Reckoned s) (htodo : s.todo = task :: rest)
    (htask : task.quiet = true) (hcollects : task.collects = false) (sources : List Source) (at_ : ℕ)
    (source : Source) (id : String) :
    Reckoned (Leases.withdraw { s with todo := rest, sources } at_ source id) := by
  have hpop : ∀ sources, Reckoned { s with todo := rest, sources } := fun sources =>
    h.turn htodo htask hcollects rfl rfl rfl rfl rfl rfl (List.nil_append _).symm nofun
  rw [Leases.withdraw]
  split
  · exact hpop _
  · simp only
    split
    · exact hpop _
    · refine h.turn htodo htask hcollects rfl rfl rfl rfl rfl rfl rfl fun t ht => ?_
      rcases List.mem_cons.mp ht with rfl | ht
      · rfl
      · rw [List.mem_singleton.mp ht]
        rfl

theorem Reckoned.candidate (h : Reckoned s) (htodo : s.todo = task :: rest)
    (htask : task.quiet = true) (hcollects : task.collects = false) (at_ : ℕ) (source : Source)
    (c : Candidate) (offer : Offer) :
    Reckoned (Leases.candidate { s with todo := rest } at_ source c offer) := by
  have hpop : Reckoned { s with todo := rest } :=
    h.turn htodo htask hcollects rfl rfl rfl rfl rfl rfl (List.nil_append _).symm nofun
  rw [Leases.candidate]
  split
  · exact hpop
  · cases offer with
    | refused => exact hpop.congr rfl rfl rfl rfl rfl rfl rfl rfl
    | declined => exact hpop.congr rfl rfl rfl rfl rfl rfl rfl rfl
    | rejected =>
      apply Reckoned.hear
      exact hpop.congr rfl rfl rfl rfl rfl rfl rfl rfl
    | loaded library slot parts =>
      simp only
      split
      · apply Reckoned.hear
        exact hpop.congr rfl rfl rfl rfl rfl rfl rfl rfl
      · refine h.turn htodo htask hcollects rfl rfl rfl rfl rfl rfl rfl fun t ht => ?_
        rcases List.mem_cons.mp ht with rfl | ht
        · rfl
        · rw [List.mem_singleton.mp ht]
          rfl

theorem Reckoned.offered (h : Reckoned s) (htodo : s.todo = task :: rest)
    (htask : task.quiet = true) (hcollects : task.collects = false) (at_ : ℕ) (source : Source)
    (c : Candidate) (opening : ℕ) (library : Ranked.LibraryView) (slot parts : Bool) (canonical : Path) :
    Reckoned (Leases.offered { s with todo := rest } at_ source c opening library slot parts canonical) := by
  have habsorb := h.absorb htodo htask hcollects (servedPath source.name c.id) canonical source.name
    (.loaded library) ⟨.served at_ opening c.id c.stamp, slot, parts⟩
  rw [Leases.offered]
  split
  · next heq =>
    rw [heq] at habsorb
    exact habsorb.congr rfl rfl rfl rfl rfl rfl rfl rfl
  · next heq =>
    rw [heq] at habsorb
    exact habsorb.hear ..

theorem Reckoned.refreshSource (h : Reckoned s) {at_ : ℕ}
    (htodo : s.todo = .refreshSource at_ :: rest) (answer : Answer) :
    Reckoned ({ s with todo := rest }.perform answer (.refreshSource at_)) := by
  simp only [perform]
  split
  · refine h.turn htodo rfl rfl rfl rfl rfl rfl rfl rfl rfl fun t ht => ?_
    rcases List.mem_append.mp ht with ht | ht
    · obtain ⟨id, -, rfl⟩ := List.mem_map.mp ht
      rfl
    · obtain ⟨c, -, rfl⟩ := List.mem_map.mp ht
      rfl
  · exact h.turn htodo rfl rfl rfl rfl rfl rfl rfl rfl (List.nil_append _).symm nofun

/-- What one task comes to keeps the reckoning. -/
theorem Reckoned.perform (h : Reckoned s) (htodo : s.todo = task :: rest)
    (answer : Answer) : Reckoned ({ s with todo := rest }.perform answer task) := by
  have hpop : task.quiet = true → task.collects = false → Reckoned { s with todo := rest } :=
    fun htask hcollects =>
      h.turn htodo htask hcollects rfl rfl rfl rfl rfl rfl (List.nil_append _).symm nofun
  cases task with
  | collect => exact h.collect htodo
  | settle key lease => exact h.settle htodo answer
  | askLeaving key lease =>
    have htask : (Task.askLeaving key lease).OfLeaving key lease := .inr rfl
    simp only [Leases.perform]
    split
    · exact h.agreed htodo htask (h.asked key lease (htodo ▸ List.mem_cons_self ..))
    · exact h.stays htodo htask
  | drop lease => exact h.drop htodo
  | close lease =>
    simp only [Leases.perform]
    split
    · exact (h.close htodo).hear ..
    · exact h.close htodo
  | retire key => exact h.retire htodo answer
  | unload key => exact h.unload htodo answer
  | holds key lease => exact h.holds htodo answer
  | ask key lease => exact h.ask htodo answer
  | refuse why => exact h.refuse htodo answer
  | take key lease => exact h.takes htodo answer
  | load path source =>
    simp only [Leases.perform]
    split
    · exact hpop rfl rfl
    · exact hpop rfl rfl
    · exact h.absorb htodo rfl rfl ..
  | registerLocal name =>
    simp only [Leases.perform]
    split
    · exact hpop rfl rfl
    · exact hpop rfl rfl
    · exact h.absorb htodo rfl rfl ..
  | refreshSource at_ => exact h.refreshSource htodo answer
  | gone at_ id =>
    simp only [Leases.perform]
    cases s.sources[at_]? with
    | none => exact hpop rfl rfl
    | some source => exact h.withdraw htodo rfl rfl ..
  | candidate at_ c =>
    simp only [Leases.perform]
    cases s.sources[at_]? with
    | none => exact hpop rfl rfl
    | some source => exact h.candidate htodo rfl rfl ..
  | withdraw at_ id =>
    simp only [Leases.perform]
    cases s.sources[at_]? with
    | none => exact hpop rfl rfl
    | some source => exact h.withdraw htodo rfl rfl ..
  | offer at_ c opening library slot parts =>
    simp only [Leases.perform]
    cases s.sources[at_]? with
    | none => exact hpop rfl rfl
    | some source => exact h.offered htodo rfl rfl ..

theorem Reckoned.free (h : Reckoned s) (htodo : s.todo = .close lease :: rest) :
    s.count lease = 0 := by
  have hmem : lease ∈ closing s.todo ++ s.closed := by
    rw [htodo]
    exact List.mem_append_left _ (List.mem_cons_self ..)
  have hsealed := h.sealed hmem
  have hlater := h.dropped
  rw [htodo, List.pairwise_cons] at hlater
  have hdropping : lease ∉ dropping s.todo := by
    intro hin
    obtain ⟨t, ht, heq⟩ := List.mem_filterMap.mp hin
    cases t with
    | drop other =>
      cases heq
      rw [htodo] at ht
      refine hlater.1 _ ((List.mem_cons.mp ht).resolve_left nofun) lease rfl rfl
    | _ => cases heq
  rw [h.counted, List.count_eq_zero]
  simp only [holders, Leases.records, List.mem_append, not_or]
  exact ⟨⟨hsealed.loaded, hsealed.leaving, hdropping⟩, hsealed.providers, hsealed.snapshot,
    hsealed.outside⟩

theorem Reckoned.call (h : Reckoned s) (htodo : s.todo = []) (call : Call) :
    Reckoned { s with todo := s.tasks call, called := s.registry, answer := none } := by
  have hshown : s.registry.publish = s.registry := by
    rcases h.stage with ⟨hshown, -⟩ | ⟨key, before, -, hbefore, -⟩ | ⟨one, t, hone, -⟩ |
      ⟨why, lease, hone, -⟩
    · exact hshown
    · rw [htodo] at hbefore
      exact absurd hbefore.symm (by simp)
    · rw [htodo] at hone
      cases hone
    · rw [htodo] at hone
      cases hone
  have hquiet : ∀ t ∈ s.tasks call, t.quiet = true ∧ t.unloads = false ∨ ∃ key, call = .unload key := by
    intro t ht
    cases call with
    | unload key => exact .inr ⟨key, rfl⟩
    | refresh =>
      left
      rcases List.mem_cons.mp ht with rfl | ht
      · exact ⟨rfl, rfl⟩
      · obtain ⟨at_, -, rfl⟩ := List.mem_map.mp ht
        exact ⟨rfl, rfl⟩
    | collect =>
      rw [List.mem_singleton.mp ht]
      exact .inl ⟨rfl, rfl⟩
    | load path source =>
      rcases List.mem_cons.mp ht with rfl | ht
      · exact .inl ⟨rfl, rfl⟩
      · rw [List.mem_singleton.mp ht]
        exact .inl ⟨rfl, rfl⟩
    | registerLocal name =>
      rcases List.mem_cons.mp ht with rfl | ht
      · exact .inl ⟨rfl, rfl⟩
      · rw [List.mem_singleton.mp ht]
        exact .inl ⟨rfl, rfl⟩
    | retire key =>
      rcases List.mem_cons.mp ht with rfl | ht
      · exact .inl ⟨rfl, rfl⟩
      · rw [List.mem_singleton.mp ht]
        exact .inl ⟨rfl, rfl⟩
  have hall : ∀ t ∈ s.tasks call, t.settles = false ∧ t.quiet = true ∨ ∃ key, t = .unload key := by
    intro t ht
    rcases hquiet t ht with ⟨hquiet, -⟩ | ⟨key, rfl⟩
    · left
      refine ⟨?_, hquiet⟩
      cases t <;> simp [Task.quiet, Task.settles] at hquiet ⊢
    · rcases List.mem_cons.mp ht with rfl | ht
      · exact .inl ⟨rfl, rfl⟩
      · exact .inr ⟨key, List.mem_singleton.mp ht⟩
  have hlists : dropping (s.tasks call) = [] ∧ closing (s.tasks call) = [] := by
    refine ⟨?_, ?_⟩ <;>
    · rw [List.eq_nil_iff_forall_not_mem]
      intro x hx
      obtain ⟨t, ht, heq⟩ := List.mem_filterMap.mp hx
      rcases hall t ht with ⟨-, hquiet⟩ | ⟨key, rfl⟩
      · cases t <;> simp [Task.quiet] at heq hquiet
      · cases heq
  refine h.same rfl rfl rfl rfl (hlists.1.trans (htodo ▸ rfl))
    (.of_eq (congrArg (· ++ _) (hlists.2.trans (htodo ▸ rfl)))) (.of_not fun t ht => ?_) ?_
  · rcases hall t ht with ⟨hnot, hquiet⟩ | ⟨key, rfl⟩
    · refine ⟨hnot, ?_⟩
      cases t <;> first | rfl | cases hquiet
    · exact ⟨rfl, rfl⟩
  · cases hcall : call with
    | unload key =>
      refine .collecting key [.collect] hshown rfl (fun t ht => ?_) rfl rfl
      rw [List.mem_singleton.mp ht]
      rfl
    | _ =>
      rw [← hcall]
      refine .plain hshown (fun t ht => ?_) (by intros; contradiction)
      rcases hquiet t ht with ⟨-, hnot⟩ | ⟨key, heq⟩
      · exact hnot
      · rw [hcall] at heq
        cases heq

theorem leaseOf_mem {e : Ranked.SnapshotEntry} (h : s.leaseOf e = some lease) :
    lease ∈ s.registry.snapshot.leases :=
  List.mem_of_getElem? h

theorem Reckoned.holdAll (h : Reckoned s) {leases : List ℕ} (hreaches : ∀ lease ∈ leases, s.Reaches lease) :
    Reckoned (leases.foldl Leases.hold s) := by
  induction leases generalizing s with
  | nil => exact h
  | cons lease leases ih =>
    refine ih (h.hold (hreaches lease (List.mem_cons_self ..))) fun other hother => ?_
    exact (hreaches other (List.mem_cons_of_mem _ hother)).imp_left (List.mem_cons_of_mem _)

/-- Whether it is neither a call nor a part of one. -/
def Act.beside : Act → Bool
  | .call _ | .perform _ => false
  | _ => true

/-- What a step is: a call begins, or goes on, or beside it a source is added, or holds are taken that
are in reach, or one is let go. -/
inductive Comes (s : Leases) (act : Act) : Leases → Prop
  | call (call : Call) (hact : act = .call call) (htodo : s.todo = []) :
      Comes s act { s with todo := s.tasks call, called := s.registry, answer := none }
  | addSource (source : Source) (hact : act.beside = true) :
      Comes s act { s with sources := s.sources ++ [source] }
  | perform (answer : Answer) (task : Task) (rest : List Task) (hact : act = .perform answer)
      (htodo : s.todo = task :: rest) : Comes s act ({ s with todo := rest }.perform answer task)
  | hold (leases : List ℕ) (hact : act.beside = true) (hreaches : ∀ lease ∈ leases, s.Reaches lease) :
      Comes s act (leases.foldl Leases.hold s)
  | letGo (lease : ℕ) (hact : act.beside = true) (hmem : lease ∈ s.outside) :
      Comes s act { s.release [lease] with outside := s.outside.erase lease }

theorem comes_hold {act : Act} (hact : act.beside = true) (hreaches : s.Reaches lease) :
    Comes s act (s.hold lease) :=
  .hold [lease] hact fun _ hin => List.mem_singleton.mp hin ▸ hreaches

theorem step_comes {act : Act} (h : step s act = some s') : Comes s act s' := by
  cases act with
  | call call =>
    simp only [step] at h
    split at h
    · next htodo =>
      cases h
      exact .call call rfl htodo
    · cases h
  | addSource name hears =>
    simp only [step] at h
    split at h
    · cases h
      exact .addSource _ rfl
    · cases h
  | perform answer =>
    simp only [step] at h
    split at h
    · cases h
    · next task rest htodo =>
      cases h
      exact .perform answer task rest rfl htodo
  | handle at_ =>
    simp only [step] at h
    split at h
    · next htodo =>
      obtain ⟨p, hp, rfl⟩ := Option.map_eq_some_iff.mp h
      exact comes_hold rfl (.inr (.inr ⟨htodo, List.mem_map_of_mem (List.mem_of_getElem? hp)⟩))
    · cases h
  | get key =>
    obtain ⟨lease, hlease, rfl⟩ := Option.map_eq_some_iff.mp h
    obtain ⟨e, -, he⟩ := Option.bind_eq_some_iff.mp hlease
    exact comes_hold rfl (.inr (.inl (leaseOf_mem he)))
  | list kind cap =>
    cases h
    refine .hold _ rfl fun lease hin => ?_
    obtain ⟨e, -, he⟩ := List.mem_filterMap.mp hin
    exact .inr (.inl (leaseOf_mem he))
  | clone lease =>
    simp only [step] at h
    split at h
    · next hin =>
      cases h
      exact comes_hold rfl (.inl hin)
    · cases h
  | letGo lease =>
    simp only [step] at h
    split at h
    · next hin =>
      cases h
      exact .letGo lease rfl hin
    · cases h

theorem reckoned_step : Lib.Kept step Reckoned := by
  intro s act s' h hstep
  cases step_comes hstep with
  | call call _ htodo => exact h.call htodo call
  | addSource source => exact h.congr rfl rfl rfl rfl rfl rfl rfl rfl
  | perform answer task rest _ htodo => exact h.perform htodo answer
  | hold leases _ hreaches => exact h.holdAll hreaches
  | letGo lease _ hmem => exact h.letGo hmem

end Leases

end Guatiao.Library
