import Guatiao.Library.Books

/-!
# Refreshes keep their books

What a source serves under an id is the last build taken in for it, and it is registered unless
the host retired it; every library registered from a source is served by it. What each id was
last tried under is what the last listing says.
-/

namespace Guatiao.Library

open Lib

namespace Event

variable {trace : List Event} {source id : String}

variable {events : List Event}

theorem foldl_quiet {α : Type} {f : α → Event → α} {a : α}
    (h : ∀ e ∈ events, f a e = a) : events.foldl f a = a := by
  induction events with
  | nil => rfl
  | cons e rest ih =>
    rw [List.foldl_cons, h e (List.mem_cons_self ..)]
    exact ih fun e' he' => h e' (List.mem_cons_of_mem _ he')

theorem mem_of_lastListing {candidates : List Candidate}
    (h : lastListing trace source = some candidates) : .listed source candidates ∈ trace := by
  induction trace using List.reverseRecOn with
  | nil => cases h
  | append_singleton trace e ih =>
    rw [lastListing, List.foldl_concat] at h
    rw [List.mem_append, List.mem_singleton]
    cases e with
    | listed name cs =>
      simp only [hear] at h
      split at h
      · next hname =>
        rw [Option.some.injEq] at h
        rw [hname, h]
        exact .inr rfl
      · exact .inl (ih h)
    | _ => exact .inl (ih h)

theorem lastTried_eq {before between : List Event} {stamp : String}
    (hopened : ∀ s, .opened source id s ∉ between)
    (hlisted : ∀ candidates, .listed source candidates ∈ between → id ∈ candidates.map Candidate.id) :
    lastTried (before ++ .opened source id stamp :: between) source id = some stamp := by
  rw [lastTried, List.foldl_append, List.foldl_cons]
  have hopen : try_ source id (before.foldl (try_ source id) none) (.opened source id stamp) =
      some stamp := if_pos ⟨rfl, rfl⟩
  rw [hopen]
  refine foldl_quiet fun e he => ?_
  cases e with
  | listed name candidates =>
    refine if_neg ?_
    rintro ⟨rfl, hout⟩
    exact hout (hlisted candidates he)
  | opened name k s =>
    refine if_neg ?_
    rintro ⟨rfl, rfl⟩
    exact hopened s he
  | _ => rfl

/-- Every candidate opened had another stamp than it was last tried under. -/
def Anew (trace : List Event) : Prop :=
  ∀ before source id stamp after, trace = before ++ .opened source id stamp :: after →
    lastTried before source id ≠ some stamp

theorem anew_nil : Anew [] := by
  intro before source id stamp after h
  simp at h

theorem Anew.append (h : Anew trace)
    (hevents : ∀ before source id stamp after, events = before ++ .opened source id stamp :: after →
      lastTried (trace ++ before) source id ≠ some stamp) : Anew (trace ++ events) := by
  intro before source id stamp after heq
  rcases List.append_eq_append_iff.mp heq with ⟨more, hbefore, hevents'⟩ | ⟨more, htrace, hmore⟩
  · rw [hbefore]
    exact hevents more source id stamp after hevents'
  · cases more with
    | nil =>
      rw [List.append_nil] at htrace
      rw [List.nil_append] at hmore
      have hnow := hevents [] source id stamp after hmore.symm
      rwa [List.append_nil, htrace] at hnow
    | cons e rest =>
      rw [List.cons_append, List.cons.injEq] at hmore
      rw [← hmore.1] at htrace
      exact h before source id stamp rest htrace

theorem Anew.quiet (h : Anew trace)
    (hevents : ∀ source id stamp, .opened source id stamp ∉ events) : Anew (trace ++ events) :=
  h.append fun before source id stamp _ heq =>
    absurd (heq ▸ List.mem_append_right before (List.mem_cons_self ..)) (hevents source id stamp)

theorem Anew.openedAnew (h : Anew trace) : Books.OpenedAnew trace := by
  intro before between after source id stamp stamp' heq hbetween
  by_contra hnot
  rw [not_or, not_not, not_exists] at hnot
  obtain ⟨rfl, hlisted⟩ := hnot
  refine h _ source id stamp after heq (lastTried_eq hbetween fun candidates hmem => ?_)
  by_contra hout
  exact hlisted candidates ⟨hmem, hout⟩

end Event

namespace Registry

variable {r r' : Registry}

theorem mem_without {lease : ℕ} : lease ∈ r.without r' ↔
    (∃ l ∈ r.loaded, l.lease = lease) ∧ ∀ l ∈ r'.loaded, l.lease ≠ lease := by
  simp [without]

theorem without_eq_nil (h : ∀ l ∈ r.loaded, ∃ l' ∈ r'.loaded, l'.lease = l.lease) :
    r.without r' = [] := by
  rw [List.eq_nil_iff_forall_not_mem]
  intro lease hmem
  obtain ⟨⟨l, hl, rfl⟩, hnot⟩ := mem_without.mp hmem
  obtain ⟨l', hl', heq⟩ := h l hl
  exact hnot l' hl' heq

@[simp] theorem without_self (r : Registry) : r.without r = [] :=
  without_eq_nil fun l hl => ⟨l, hl, rfl⟩

end Registry

namespace Refreshing

variable {s : Refreshing} {source id : String} {answer : Answer} {c : Candidate}

theorem mem_withdraw (h : s.registry.Sound) (source id : String) (l : Loaded) :
    l ∈ (s.withdraw source id).registry.loaded ↔ l ∈ s.registry.loaded ∧
      ¬ ((∃ stamp, s.serving.get id = some stamp) ∧
        s.registry.loaded.find? (·.path = servedPath source id) = some l) := by
  unfold withdraw
  split
  · next hnone => simp [hnone]
  · next stamp hstamp =>
    cases hfind : s.registry.loaded.find? (·.path = servedPath source id) with
    | none =>
      rw [retireAt_none (s := { s with serving := s.serving.remove id }) stamp hfind]
      simp
    | some one =>
      rw [retireAt_found (s := { s with serving := s.serving.remove id }) h stamp hfind]
      simp only [h.mem_eraseP (h.find_key (List.mem_of_find?_eq_some hfind)), hstamp,
        Option.some.injEq, exists_eq', true_and]
      exact and_congr_right fun _ => not_congr eq_comm

theorem withdraw_registry (h : s.registry.Sound) (source id : String) :
    (s.withdraw source id).registry.nextLease = s.registry.nextLease ∧
      (s.withdraw source id).serving.get id = none := by
  unfold withdraw
  split
  · next hnone => exact ⟨rfl, hnone⟩
  · next stamp hstamp =>
    have hserving := (retireAt_stamps { s with serving := s.serving.remove id }
      (servedPath source id) source id stamp).1
    rw [hserving, SortedMap.get_remove_self]
    refine ⟨?_, rfl⟩
    cases hfind : s.registry.loaded.find? (·.path = servedPath source id) with
    | none => rw [retireAt_none (s := { s with serving := s.serving.remove id }) stamp hfind]
    | some one => rw [retireAt_found (s := { s with serving := s.serving.remove id }) h stamp hfind]

/-- A library offered to the registry is in, under the next lease, or nothing has changed. -/
theorem absorb_taken (h : s.registry.Sound) (source : String) (canonical : Path) (c : Candidate)
    (library : LibraryView) :
    (∃ one : Loaded, one.lease = s.registry.nextLease ∧ one.source = source ∧
        one.id = library.id ∧ one.path = servedPath source c.id ∧
        (s.absorb source canonical c (.loaded library)).registry.loaded =
          s.registry.loaded ++ [one] ∧
        (s.absorb source canonical c (.loaded library)).registry.nextLease =
          s.registry.nextLease + 1 ∧
        (s.absorb source canonical c (.loaded library)).serving =
          s.serving.insert c.id c.stamp) ∨
      (s.absorb source canonical c (.loaded library)).registry = s.registry ∧
        (s.absorb source canonical c (.loaded library)).serving = s.serving := by
  cases houtcome : s.registry.absorb (servedPath source c.id) source canonical (.loaded library) with
  | mk loading r =>
    have hsame : (∀ one, loading ≠ .loaded one) → r = s.registry := by
      intro hnot
      have hrefused : (s.registry.absorb (servedPath source c.id) source canonical
          (.loaded library)).2 = s.registry := Registry.absorb_refused (by rwa [houtcome])
      rwa [houtcome] at hrefused
    cases loading with
    | loaded one =>
      obtain ⟨library', taken, hlibrary, -, -, hone, hr⟩ := Registry.absorb_loaded h.byKey houtcome
      obtain rfl := Opened.loaded.inj hlibrary
      refine .inl ⟨one, ?_⟩
      simp only [absorb, houtcome, and_true]
      rw [hr, hone]
      exact ⟨rfl, rfl, rfl, rfl, rfl, rfl⟩
    | skipped why =>
      obtain rfl := hsame nofun
      refine .inr ?_
      simp only [absorb, houtcome, true_and]
    | error e =>
      obtain rfl := hsame nofun
      refine .inr ?_
      simp only [absorb, houtcome, refuse, true_and]

end Refreshing

/-- What each source serves under an id, of those called `N`, is the last build taken in for it,
and is registered unless the host retired it; whatever is registered is served, or is filed
where no source files. `U` holds of the pairs that are listed. -/
structure Booked (N : String → Prop) (U : String → String → Prop) (r : Registry)
    (serving : String → String → Option String) (trace : List Event) : Prop where
  sound : r.Sound
  served : ∀ name k stamp, serving name k = some stamp → N name ∧ U name k ∧
    ∃ lease, Event.lastBuild trace name k = some (stamp, lease) ∧
      (.hostRetired lease ∉ trace → ∃ l ∈ r.loaded, l.lease = lease ∧ l.source = name ∧ l.id = k ∧
        l.path = servedPath name k)
  origin : ∀ l ∈ r.loaded,
    (l.path = servedPath l.source l.id ∧ ∃ stamp, serving l.source l.id = some stamp ∧
        Event.lastBuild trace l.source l.id = some (stamp, l.lease)) ∨
      ∀ name, N name → ∀ k, l.path ≠ servedPath name k
  gone : ∀ lease, .hostRetired lease ∈ trace → lease < r.nextLease ∧ ∀ l ∈ r.loaded, l.lease ≠ lease

/-- Whether no two pairs have one path. -/
def Apart (U : String → String → Prop) : Prop := ∀ name k name' k', U name k → U name' k' →
  servedPath name k = servedPath name' k' → name = name' ∧ k = k'

namespace Booked

variable {N : String → Prop} {U : String → String → Prop} {r r' : Registry}
  {serving : String → String → Option String} {trace trace' : List Event} {name k : String}

theorem start : Booked N U .new (fun _ _ => none) [] where
  sound := Registry.sound_new
  served := nofun
  origin := nofun
  gone := nofun

theorem quiet (h : Booked N U r serving trace)
    (hbuild : ∀ name k, Event.lastBuild trace' name k = Event.lastBuild trace name k)
    (hretired : ∀ lease, .hostRetired lease ∈ trace' ↔ .hostRetired lease ∈ trace) :
    Booked N U r serving trace' where
  sound := h.sound
  served name k stamp hserving := by
    rw [hbuild]
    simpa only [hretired] using h.served name k stamp hserving
  origin l hl := by
    rw [hbuild]
    exact h.origin l hl
  gone lease hlease := h.gone lease ((hretired lease).mp hlease)

theorem found (h : Booked N U r serving trace) (hU : Apart U) (hN : N name) (hk : U name k)
    {l : Loaded} (hl : l ∈ r.loaded) (hpath : l.path = servedPath name k) :
    l.source = name ∧ l.id = k := by
  rcases h.origin l hl with ⟨hown, stamp, hstamp, -⟩ | hout
  · exact hU _ _ _ _ (h.served _ _ _ hstamp).2.1 hk (hown.symm.trans hpath)
  · exact absurd hpath (hout name hN k)

/-- An id is withdrawn: it serves nothing, and what is at its path leaves. -/
theorem withdraw (h : Booked N U r serving trace) (hU : Apart U) (hN : N name) (hk : U name k)
    (hsound : r'.Sound) (hnext : r'.nextLease = r.nextLease)
    (hloaded : ∀ l, l ∈ r'.loaded ↔ l ∈ r.loaded ∧ ¬ ((∃ stamp, serving name k = some stamp) ∧
      r.loaded.find? (·.path = servedPath name k) = some l))
    {serving' : String → String → Option String} (hnone : serving' name k = none)
    (hothers : ∀ name' k', ¬ (name' = name ∧ k' = k) → serving' name' k' = serving name' k') :
    Booked N U r' serving' trace where
  sound := hsound
  served name' k' stamp hserving := by
    have hother : ¬ (name' = name ∧ k' = k) := by
      rintro ⟨rfl, rfl⟩
      rw [hnone] at hserving
      cases hserving
    rw [hothers name' k' hother] at hserving
    obtain ⟨hN', hU', lease, hbuild, hin⟩ := h.served name' k' stamp hserving
    refine ⟨hN', hU', lease, hbuild, fun hretired => ?_⟩
    obtain ⟨l, hl, hlease, hsource, hid, hpath⟩ := hin hretired
    refine ⟨l, (hloaded l).mpr ⟨hl, ?_⟩, hlease, hsource, hid, hpath⟩
    rintro ⟨-, hfind⟩
    have hown := h.found hU hN hk hl (by simpa using List.find?_some hfind)
    exact hother ⟨hsource.symm.trans hown.1, hid.symm.trans hown.2⟩
  origin l hl := by
    obtain ⟨hl, hleft⟩ := (hloaded l).mp hl
    refine (h.origin l hl).imp_left ?_
    rintro ⟨hpath, stamp, hstamp, hbuild⟩
    refine ⟨hpath, stamp, ?_, hbuild⟩
    rw [hothers _ _ ?_]
    · exact hstamp
    -- The library of this pair is the one found at its path.
    rintro ⟨hsource, hid⟩
    rw [hsource, hid] at hpath hstamp hbuild
    refine hleft ⟨⟨stamp, hstamp⟩, ?_⟩
    cases hfind : r.loaded.find? (·.path = servedPath name k) with
    | none => exact absurd (by simpa using hpath) (List.find?_eq_none.mp hfind l hl)
    | some one =>
      have hone := List.mem_of_find?_eq_some hfind
      have honepath : one.path = servedPath name k := by simpa using List.find?_some hfind
      obtain ⟨hsource', hid'⟩ := h.found hU hN hk hone honepath
      rcases h.origin one hone with ⟨-, stamp', -, hbuild'⟩ | hout
      · rw [hsource', hid', hbuild, Option.some.injEq, Prod.mk.injEq] at hbuild'
        rw [h.sound.eq_of_lease hone hl hbuild'.2.symm]
      · exact absurd honepath (hout name hN k)
  gone lease hlease := by
    obtain ⟨hlt, hnot⟩ := h.gone lease hlease
    exact ⟨hnext ▸ hlt, fun l hl => hnot l ((hloaded l).mp hl).1⟩

variable {one : Loaded}

/-- A build is taken in for an id that served nothing. -/
theorem taken (h : Booked N U r serving trace) (hN : N name) (hk : U name k)
    (hsound : r'.Sound) (hbefore : serving name k = none) (stamp : String)
    (hlease : one.lease = r.nextLease) (hsource : one.source = name) (hid : one.id = k)
    (hpath : one.path = servedPath name k) (hloaded : r'.loaded = r.loaded ++ [one])
    (hnext : r'.nextLease = r.nextLease + 1) {serving' : String → String → Option String}
    (hserving : serving' name k = some stamp)
    (hothers : ∀ name' k', ¬ (name' = name ∧ k' = k) → serving' name' k' = serving name' k')
    (hbuild : Event.lastBuild trace' name k = some (stamp, r.nextLease))
    (hbuilds : ∀ name' k', ¬ (name' = name ∧ k' = k) →
      Event.lastBuild trace' name' k' = Event.lastBuild trace name' k')
    (hretired : ∀ lease, .hostRetired lease ∈ trace' ↔ .hostRetired lease ∈ trace) :
    Booked N U r' serving' trace' where
  sound := hsound
  served name' k' stamp' hserving' := by
    by_cases hsame : name' = name ∧ k' = k
    · obtain ⟨rfl, rfl⟩ := hsame
      rw [hserving, Option.some.injEq] at hserving'
      refine ⟨hN, hk, r.nextLease, hserving' ▸ hbuild, fun _ => ⟨one, ?_, hlease, hsource, hid, hpath⟩⟩
      rw [hloaded]
      exact List.mem_append_right _ (List.mem_singleton.mpr rfl)
    · rw [hothers _ _ hsame] at hserving'
      obtain ⟨hN', hU', lease, hbuild', hin⟩ := h.served name' k' stamp' hserving'
      refine ⟨hN', hU', lease, (hbuilds _ _ hsame).trans hbuild', fun hnot => ?_⟩
      obtain ⟨l, hl, hrest⟩ := hin fun hmem => hnot ((hretired lease).mpr hmem)
      rw [hloaded]
      exact ⟨l, List.mem_append_left _ hl, hrest⟩
  origin l hl := by
    rw [hloaded, List.mem_append, List.mem_singleton] at hl
    rcases hl with hl | rfl
    · refine (h.origin l hl).imp_left ?_
      rintro ⟨hown, stamp', hstamp', hbuild'⟩
      have hother : ¬ (l.source = name ∧ l.id = k) := by
        rintro ⟨hsource', hid'⟩
        rw [hsource', hid', hbefore] at hstamp'
        cases hstamp'
      refine ⟨hown, stamp', ?_, ?_⟩
      · rwa [hothers _ _ hother]
      · rwa [hbuilds _ _ hother]
    · rw [hsource, hid]
      exact .inl ⟨hpath, stamp, hserving, by rw [hbuild, hlease]⟩
  gone lease hmem := by
    obtain ⟨hlt, hnot⟩ := h.gone lease ((hretired lease).mp hmem)
    refine ⟨by omega, fun l hl => ?_⟩
    rw [hloaded, List.mem_append, List.mem_singleton] at hl
    rcases hl with hl | rfl
    · exact hnot l hl
    · omega

theorem retired (h : Booked N U r serving trace) (hone : one ∈ r.loaded)
    (hsound : r'.Sound) (hnext : r'.nextLease = r.nextLease)
    (hloaded : ∀ l, l ∈ r'.loaded ↔ l ∈ r.loaded ∧ l ≠ one) {leases : List ℕ}
    (hleases : ∀ lease, lease ∈ leases ↔ lease = one.lease) :
    Booked N U r' serving (trace ++ leases.map .hostRetired) where
  sound := hsound
  served name k stamp hserving := by
    obtain ⟨hN, hU, lease, hbuild, hin⟩ := h.served name k stamp hserving
    refine ⟨hN, hU, lease, ?_, fun hnot => ?_⟩
    · rw [Event.lastBuild, List.foldl_append, Event.foldl_quiet (by simp [Event.build])]
      exact hbuild
    · simp only [List.mem_append, List.mem_map, Event.hostRetired.injEq, exists_eq_right, hleases,
        not_or] at hnot
      obtain ⟨l, hl, hlease, hrest⟩ := hin hnot.1
      exact ⟨l, (hloaded l).mpr ⟨hl, fun heq => hnot.2 (heq ▸ hlease.symm)⟩, hlease, hrest⟩
  origin l hl := by
    rw [Event.lastBuild, List.foldl_append, Event.foldl_quiet (by simp [Event.build])]
    exact h.origin l ((hloaded l).mp hl).1
  gone lease hmem := by
    rw [hnext]
    simp only [List.mem_append, List.mem_map, Event.hostRetired.injEq, exists_eq_right,
      hleases] at hmem
    rcases hmem with hmem | rfl
    · exact ⟨(h.gone lease hmem).1, fun l hl => (h.gone lease hmem).2 l ((hloaded l).mp hl).1⟩
    · refine ⟨h.sound.below one hone, fun l hl heq => ?_⟩
      obtain ⟨hl, hne⟩ := (hloaded l).mp hl
      exact hne (h.sound.eq_of_lease hl hone heq)

theorem filed (h : Booked N U r serving trace) (hsound : r'.Sound)
    (hlease : one.lease = r.nextLease) (hpath : ∀ name, N name → ∀ k, one.path ≠ servedPath name k)
    (hloaded : r'.loaded = r.loaded ++ [one]) (hnext : r'.nextLease = r.nextLease + 1) :
    Booked N U r' serving trace where
  sound := hsound
  served name k stamp hserving := by
    obtain ⟨hN, hU, lease, hbuild, hin⟩ := h.served name k stamp hserving
    refine ⟨hN, hU, lease, hbuild, fun hnot => ?_⟩
    obtain ⟨l, hl, hrest⟩ := hin hnot
    rw [hloaded]
    exact ⟨l, List.mem_append_left _ hl, hrest⟩
  origin l hl := by
    rw [hloaded, List.mem_append, List.mem_singleton] at hl
    rcases hl with hl | rfl
    · exact h.origin l hl
    · exact .inr hpath
  gone lease hmem := by
    obtain ⟨hlt, hnot⟩ := h.gone lease hmem
    refine ⟨by omega, fun l hl => ?_⟩
    rw [hloaded, List.mem_append, List.mem_singleton] at hl
    rcases hl with hl | rfl
    · exact hnot l hl
    · omega

/-- Two records of one library, but for its key. -/
structure Alike (l l' : Loaded) : Prop where
  lease : l'.lease = l.lease
  source : l'.source = l.source
  id : l'.id = l.id
  path : l'.path = l.path

theorem renamed (h : Booked N U r serving trace) (hsound : r'.Sound)
    (hnext : r'.nextLease = r.nextLease) (hinto : ∀ l ∈ r.loaded, ∃ l' ∈ r'.loaded, Alike l l')
    (hfrom : ∀ l' ∈ r'.loaded, ∃ l ∈ r.loaded, Alike l l') : Booked N U r' serving trace where
  sound := hsound
  served name k stamp hserving := by
    obtain ⟨hN, hU, lease, hbuild, hin⟩ := h.served name k stamp hserving
    refine ⟨hN, hU, lease, hbuild, fun hnot => ?_⟩
    obtain ⟨l, hl, hlease, hsource, hid, hpath⟩ := hin hnot
    obtain ⟨l', hl', halike⟩ := hinto l hl
    exact ⟨l', hl', halike.lease.trans hlease, halike.source.trans hsource, halike.id.trans hid,
      halike.path.trans hpath⟩
  origin l' hl' := by
    obtain ⟨l, hl, halike⟩ := hfrom l' hl'
    rw [halike.lease, halike.source, halike.id, halike.path]
    exact h.origin l hl
  gone lease hmem := by
    obtain ⟨hlt, hnot⟩ := h.gone lease hmem
    refine ⟨hnext ▸ hlt, fun l' hl' => ?_⟩
    obtain ⟨l, hl, halike⟩ := hfrom l' hl'
    rw [halike.lease]
    exact hnot l hl

end Booked

namespace Refreshing

variable {s : Refreshing} {name k : String} {answer : Answer} {c : Candidate} {trace : List Event}

theorem lastTried_turn (name : String) (answer : Answer) (s : Refreshing) (c : Candidate)
    (trace : List Event) (name' k : String) :
    Event.lastTried (trace ++ turnEvents name answer s c) name' k =
      if name = name' ∧ c.id = k ∧ s.tried.get c.id ≠ some c.stamp then some c.stamp
      else Event.lastTried trace name' k := by
  simp only [turnEvents, Event.lastTried, List.foldl_append]
  rw [Event.foldl_quiet (by simp [Event.try_]), Event.foldl_quiet (by simp [Event.try_])]
  split
  · next hsame => simp [hsame]
  · next hnew => simp [Event.try_, hnew]

theorem lastBuild_turn (name : String) (answer : Answer) (s : Refreshing) (c : Candidate)
    (trace : List Event) (name' k : String) :
    Event.lastBuild (trace ++ turnEvents name answer s c) name' k =
      (((s.candidate name answer c).registry.without s.registry).map
        (.loaded name c.id c.stamp)).foldl (Event.build name' k) (Event.lastBuild trace name' k) := by
  simp only [turnEvents, Event.lastBuild, List.foldl_append]
  congr 1
  rw [Event.foldl_quiet (by simp [Event.build])]
  split <;> rfl

theorem hostRetired_turn {lease : ℕ} : .hostRetired lease ∈ trace ++ turnEvents name answer s c ↔
    .hostRetired lease ∈ trace := by
  simp [turnEvents]

theorem anew_turn (h : Event.Anew trace) (htried : s.tried.get c.id = Event.lastTried trace name c.id) :
    Event.Anew (trace ++ turnEvents name answer s c) := by
  refine h.append fun before source id stamp after heq => ?_
  unfold turnEvents at heq
  split at heq
  · have hmem : Event.opened source id stamp ∈ before ++ .opened source id stamp :: after :=
      List.mem_append_right _ (List.mem_cons_self ..)
    rw [← heq] at hmem
    simp at hmem
  · next hnew =>
    rw [List.append_assoc, List.singleton_append] at heq
    cases before with
    | nil =>
      rw [List.nil_append, List.cons.injEq, Event.opened.injEq] at heq
      obtain ⟨⟨rfl, rfl, rfl⟩, -⟩ := heq
      rw [List.append_nil, ← htried]
      exact hnew
    | cons e rest =>
      rw [List.cons_append, List.cons.injEq] at heq
      have hmem : Event.opened source id stamp ∈ rest ++ .opened source id stamp :: after :=
        List.mem_append_right _ (List.mem_cons_self ..)
      rw [← heq.2] at hmem
      simp at hmem

variable {N : String → Prop} {U : String → String → Prop}
  {serving : String → String → Option String}

theorem booked_withdraw (h : Booked N U s.registry (Function.update serving name (s.serving.get ·)) trace)
    (hU : Apart U) (hN : N name) (hk : U name k) : Booked N U (s.withdraw name k).registry
      (Function.update serving name ((s.withdraw name k).serving.get ·)) trace := by
  obtain ⟨hnext, hnone⟩ := withdraw_registry h.sound name k
  refine h.withdraw hU hN hk (sound_withdraw h.sound name k) hnext (fun l => ?_) ?_ ?_
  · rw [Function.update_self]
    exact mem_withdraw h.sound name k l
  · rw [Function.update_self]
    exact hnone
  · intro name' k' hother
    by_cases hname : name' = name
    · rw [hname, Function.update_self, Function.update_self]
      exact (withdraw_stamps s name k).1 k' fun hk => hother ⟨hname, hk⟩
    · rw [Function.update_of_ne hname, Function.update_of_ne hname]

/-- A turn of a candidate that is listed. -/
theorem booked_candidate (h : Booked N U s.registry (Function.update serving name (s.serving.get ·)) trace)
    (hU : Apart U) (hN : N name) (hk : U name c.id) : Booked N U (s.candidate name answer c).registry
      (Function.update serving name ((s.candidate name answer c).serving.get ·))
      (trace ++ turnEvents name answer s c) := by
  have hquiet : (s.candidate name answer c).registry.without s.registry = [] →
      Booked N U (s.candidate name answer c).registry
        (Function.update serving name ((s.candidate name answer c).serving.get ·)) trace →
      Booked N U (s.candidate name answer c).registry
        (Function.update serving name ((s.candidate name answer c).serving.get ·))
        (trace ++ turnEvents name answer s c) := by
    intro hnone hbooked
    refine hbooked.quiet (fun name' k' => ?_) fun lease => hostRetired_turn
    rw [lastBuild_turn, hnone]
    rfl
  by_cases hopens : ∃ library, s.Opens answer c library
  · obtain ⟨library, hopens⟩ := hopens
    have hwithdrawn := booked_withdraw (s := { s with tried := s.tried.insert c.id c.stamp }) h hU hN hk
    have hbefore := withdraw_registry (s := { s with tried := s.tried.insert c.id c.stamp })
      h.sound name c.id
    have hmem := mem_withdraw (s := { s with tried := s.tried.insert c.id c.stamp })
      h.sound name c.id
    have hcandidate : s.candidate name answer c = _ := candidate_opens hopens
    generalize withdraw { s with tried := s.tried.insert c.id c.stamp } name c.id = m at *
    have hsound : (s.candidate name answer c).registry.Sound := sound_candidate h.sound name answer c
    rcases absorb_taken hwithdrawn.sound name (answer.canonical c.id) c library with
      ⟨one, hlease, hsource, hid, hpath, hloaded, hnext, hserving⟩ | ⟨hregistry, hserving⟩
    · rw [← hcandidate] at hloaded hnext hserving
      have hcame : (s.candidate name answer c).registry.without s.registry = [m.registry.nextLease] := by
        rw [Registry.without, hloaded, List.map_append, List.filter_append]
        have hold : (m.registry.loaded.map Loaded.lease).filter
            (· ∉ s.registry.loaded.map Loaded.lease) = [] := by
          rw [List.filter_eq_nil_iff]
          intro lease hin
          obtain ⟨l, hl, rfl⟩ := List.mem_map.mp hin
          simpa using ⟨l, ((hmem l).mp hl).1, rfl⟩
        have hnew : m.registry.nextLease ∉ s.registry.loaded.map Loaded.lease := by
          rw [hbefore.1]
          intro hin
          obtain ⟨l, hl, heq⟩ := List.mem_map.mp hin
          have hlt := h.sound.below l hl
          dsimp only at heq
          omega
        rw [hold, List.nil_append, List.map_singleton, hlease, List.filter_singleton,
          decide_eq_true hnew]
        rfl
      refine hwithdrawn.taken hN hk hsound ?_ c.stamp hlease hsource (hid.trans hopens.2.2)
        hpath hloaded hnext ?_ ?_ ?_ ?_ fun lease => hostRetired_turn
      · rw [Function.update_self]
        exact hbefore.2
      · rw [Function.update_self, hserving]
        exact SortedMap.get_insert_self ..
      · intro name' k' hother
        by_cases hname : name' = name
        · rw [hname, Function.update_self, Function.update_self, hserving]
          exact SortedMap.get_insert_of_ne (fun hk => hother ⟨hname, hk⟩) _ _
        · rw [Function.update_of_ne hname, Function.update_of_ne hname]
      · rw [lastBuild_turn, hcame]
        exact if_pos ⟨rfl, rfl⟩
      · intro name' k' hother
        rw [lastBuild_turn, hcame]
        exact if_neg fun heq => hother ⟨heq.1.symm, heq.2.symm⟩
    · rw [← hcandidate] at hregistry hserving
      rw [hregistry, hserving]
      rw [hregistry, hserving] at hquiet
      exact hquiet (Registry.without_eq_nil fun l hl => ⟨l, ((hmem l).mp hl).1, rfl⟩) hwithdrawn
  · obtain ⟨hregistry, hserving, -⟩ := candidate_passed name fun library hlib => hopens ⟨library, hlib⟩
    rw [hregistry, hserving]
    rw [hregistry, hserving] at hquiet
    exact hquiet (Registry.without_self _) h

variable {listed : List Candidate}

/-- Between two turns of a refresh of one source. -/
structure Follows (N : String → Prop) (U : String → String → Prop)
    (serving : String → String → Option String) (name : String) (s : Refreshing)
    (trace : List Event) : Prop where
  booked : Booked N U s.registry (Function.update serving name (s.serving.get ·)) trace
  tried : ∀ k, s.tried.get k = Event.lastTried trace name k
  served : ∀ k, s.tried.get k = none → s.serving.get k = none
  anew : Event.Anew trace

theorem Follows.candidate (h : Follows N U serving name s trace) (hU : Apart U) (hN : N name)
    (hk : U name c.id) :
    Follows N U serving name (s.candidate name answer c)
      (trace ++ turnEvents name answer s c) where
  booked := booked_candidate h.booked hU hN hk
  tried k' := by
    rw [tried_candidate, lastTried_turn, h.tried]
    simp only [true_and, ← h.tried]
    grind
  served k' hnone := by
    rw [tried_candidate] at hnone
    split at hnone
    · cases hnone
    · next hne =>
      rw [(candidate_stamps s name answer c hne).1]
      exact h.served k' hnone
  anew := anew_turn h.anew (h.tried c.id)

variable (answer) in
theorem Follows.candidates (h : Follows N U serving name s trace) (hU : Apart U) (hN : N name)
    (seen : List String) (hlisted : ∀ c ∈ listed, U name c.id) :
    Follows N U serving name (s.candidates name answer listed seen)
      (trace ++ (s.turns name answer listed seen).flatMap fun t => turnEvents name answer t.1 t.2) := by
  induction listed generalizing s trace seen with
  | nil => simpa [Refreshing.candidates, turns] using h
  | cons c rest ih =>
    have hrest : ∀ c ∈ rest, U name c.id := fun c hc => hlisted c (List.mem_cons_of_mem _ hc)
    by_cases hseen : c.id ∈ seen
    · simp only [Refreshing.candidates, turns, if_pos hseen]
      have hrefused : Follows N U serving name
          (s.refuse name (some c.id) (.words "the source listed it twice")) trace :=
        ⟨h.booked, h.tried, h.served, h.anew⟩
      exact ih hrefused seen hrest
    · simp only [Refreshing.candidates, turns, if_neg hseen, List.flatMap_cons]
      rw [← List.append_assoc]
      exact ih (h.candidate hU hN (hlisted c (List.mem_cons_self ..))) (c.id :: seen) hrest

variable (answer) in
/-- A refresh of one source. -/
theorem Follows.follow (h : Follows N U serving name s trace) (hU : Apart U) (hN : N name)
    (hlisted : ∀ c ∈ listed, U name c.id)
    (hserved : ∀ k stamp, s.tried.get k = some stamp → U name k) :
    Follows N U serving name (s.follow name answer listed)
      (trace ++ s.followEvents name answer listed) := by
  have hgone : ∀ ids : List String, (∀ k ∈ ids, U name k) → ∀ s : Refreshing,
      Booked N U s.registry (Function.update serving name (s.serving.get ·)) trace →
      (∀ k, s.tried.get k = none → s.serving.get k = none) →
      Booked N U (ids.foldl (·.gone name ·) s).registry
        (Function.update serving name ((ids.foldl (·.gone name ·) s).serving.get ·)) trace ∧
      ∀ k, (ids.foldl (·.gone name ·) s).tried.get k = none →
        (ids.foldl (·.gone name ·) s).serving.get k = none := by
    intro ids hids
    induction ids with
    | nil => exact fun s hs hserved => ⟨hs, hserved⟩
    | cons id rest ih =>
      intro s hs hserved
      refine ih (fun k hk => hids k (List.mem_cons_of_mem _ hk)) (s.gone name id) ?_ fun k hnone => ?_
      · exact booked_withdraw (s := { s with tried := s.tried.remove id }) hs hU hN
          (hids id (List.mem_cons_self ..))
      · by_cases hk : k = id
        · rw [hk]
          exact (withdraw_registry (s := { s with tried := s.tried.remove id }) hs.sound name id).2
        · obtain ⟨hserving, htried⟩ := gone_stamps s name id hk
          rw [hserving]
          exact hserved k (htried ▸ hnone)
  obtain ⟨hbooked, hserving⟩ := hgone (s.goneIds listed) (fun k hk => by
    obtain ⟨⟨stamp, hstamp⟩, -⟩ := mem_goneIds.mp hk
    exact hserved k stamp hstamp) s h.booked h.served
  have hmid : Follows N U serving name ((s.goneIds listed).foldl (·.gone name ·) s)
      (trace ++ .listed name listed :: (s.registry.without
        ((s.goneIds listed).foldl (·.gone name ·) s).registry).map .retired) := by
    refine ⟨hbooked.quiet (fun name' k => ?_) (fun lease => by simp), fun k => ?_, hserving,
      h.anew.quiet (by simp)⟩
    · rw [Event.lastBuild, List.foldl_append]
      exact Event.foldl_quiet (by simp [Event.build])
    · rw [tried_allGone, Event.lastTried, List.foldl_append, List.foldl_cons,
        Event.foldl_quiet (by simp [Event.try_])]
      have htried := h.tried k
      rw [Event.lastTried] at htried
      simp only [Event.try_, true_and, ← htried]
      have hgoneIds : k ∈ s.goneIds listed ↔ _ := mem_goneIds
      by_cases hk : k ∈ listed.map Candidate.id
      · rw [if_neg fun hin => (hgoneIds.mp hin).2 hk, if_neg (not_not.mpr hk)]
      · rw [if_pos hk, ite_eq_left_iff]
        intro hnot
        by_contra hsome
        exact hnot (hgoneIds.mpr ⟨Option.ne_none_iff_exists'.mp hsome, hk⟩)
  have hdone := hmid.candidates answer hU hN [] hlisted
  rw [List.append_assoc] at hdone
  exact hdone

/-- All that a refresh is seen to do after the listing tells of its own source, and is no listing. -/
theorem mem_turnsEvents {e : Event}
    (h : e ∈ (s.registry.without ((s.goneIds listed).foldl (·.gone name ·) s).registry).map .retired ++
      (s.followTurns name answer listed).flatMap fun t => turnEvents name answer t.1 t.2) :
    (∃ lease, e = .retired lease) ∨ ∃ id stamp, e = .opened name id stamp ∨
      ∃ lease, e = .loaded name id stamp lease := by
  rw [List.mem_append, List.mem_map, List.mem_flatMap] at h
  rcases h with ⟨lease, -, rfl⟩ | ⟨t, -, ht⟩
  · exact .inl ⟨lease, rfl⟩
  · unfold turnEvents at ht
    simp only [List.mem_append, List.mem_map] at ht
    rcases ht with (ht | ⟨lease, -, rfl⟩) | ⟨lease, -, rfl⟩
    · split at ht
      · cases ht
      · exact .inr ⟨_, _, .inl (List.mem_singleton.mp ht)⟩
    · exact .inl ⟨lease, rfl⟩
    · exact .inr ⟨_, _, .inr ⟨lease, rfl⟩⟩

theorem lastListing_follow (s : Refreshing) (name : String) (answer : Answer)
    (listed : List Candidate) (trace : List Event) (name' : String) :
    Event.lastListing (trace ++ s.followEvents name answer listed) name' =
      if name = name' then some listed else Event.lastListing trace name' := by
  rw [Event.lastListing, List.foldl_append, followEvents, List.cons_append, List.foldl_cons]
  refine Event.foldl_quiet fun e he => ?_
  rcases mem_turnsEvents he with ⟨lease, rfl⟩ | ⟨id, stamp, rfl | ⟨lease, rfl⟩⟩ <;> rfl

theorem lastTried_follow (s : Refreshing) (answer : Answer) (listed : List Candidate)
    (trace : List Event) {name' : String} (hname : name ≠ name') (k : String) :
    Event.lastTried (trace ++ s.followEvents name answer listed) name' k =
      Event.lastTried trace name' k := by
  rw [Event.lastTried, List.foldl_append, followEvents, List.cons_append, List.foldl_cons,
    Event.foldl_quiet fun e he => ?_]
  · exact if_neg fun heq => hname heq.1
  · rcases mem_turnsEvents he with ⟨lease, rfl⟩ | ⟨id, stamp, rfl | ⟨lease, rfl⟩⟩
    · rfl
    · exact if_neg fun heq => hname heq.1
    · rfl

theorem candidates_same (s : Refreshing) (name : String) (answer : Answer) (rest : List Candidate)
    (seen : List String)
    (h : ∀ k, k ∉ seen → ∀ c, rest.find? (·.id = k) = some c → s.tried.get k = some c.stamp) :
    (s.candidates name answer rest seen).registry = s.registry ∧
      (s.candidates name answer rest seen).serving = s.serving ∧
      ((s.turns name answer rest seen).flatMap fun t => turnEvents name answer t.1 t.2) = [] := by
  induction rest generalizing s seen with
  | nil => exact ⟨rfl, rfl, rfl⟩
  | cons c rest ih =>
    by_cases hseen : c.id ∈ seen
    · simp only [candidates, turns, if_pos hseen]
      refine ih (s.refuse name (some c.id) (.words "the source listed it twice")) seen ?_
      intro k hk c' hc'
      have hne : c.id ≠ k := fun heq => hk (heq ▸ hseen)
      exact h k hk c' ((List.find?_cons_of_neg (by simpa using hne)).trans hc')
    · have hsame : s.tried.get c.id = some c.stamp :=
        h c.id hseen c (List.find?_cons_of_pos (by simp))
      have hcandidate : s.candidate name answer c = s := if_pos hsame
      have hevents : turnEvents name answer s c = [] := by
        simp [turnEvents, hcandidate, hsame]
      simp only [candidates, turns, if_neg hseen, hcandidate, List.flatMap_cons, hevents,
        List.nil_append]
      refine ih s (c.id :: seen) fun k hk c' hc' => ?_
      rw [List.mem_cons, not_or] at hk
      have hne : c.id ≠ k := fun heq => hk.1 heq.symm
      exact h k hk.2 c' ((List.find?_cons_of_neg (by simpa using hne)).trans hc')

theorem follow_same (name : String) (answer : Answer)
    (h : ∀ k, s.tried.get k = (listed.find? (·.id = k)).map Candidate.stamp) :
    (s.follow name answer listed).registry = s.registry ∧
      (s.follow name answer listed).serving = s.serving ∧
      (s.follow name answer listed).tried = s.tried ∧
      s.followEvents name answer listed = [.listed name listed] := by
  have hnone : s.goneIds listed = [] := by
    rw [List.eq_nil_iff_forall_not_mem]
    intro k hk
    obtain ⟨⟨stamp, hstamp⟩, hout⟩ := mem_goneIds.mp hk
    rw [h k] at hstamp
    obtain ⟨c, hc, -⟩ := Option.map_eq_some_iff.mp hstamp
    have hid : c.id = k := by simpa using List.find?_some hc
    exact hout (hid ▸ List.mem_map_of_mem (List.mem_of_find?_eq_some hc))
  obtain ⟨hregistry, hserving, hevents⟩ := candidates_same s name answer listed [] fun k _ c hc => by
    rw [h k, hc]
    rfl
  refine ⟨?_, ?_, SortedMap.ext_get fun k => ?_, ?_⟩
  · rw [follow, hnone]
    exact hregistry
  · rw [follow, hnone]
    exact hserving
  · rw [tried_follow, h k]
  · simp [followEvents, followTurns, hnone, hevents]

end Refreshing

namespace Sources

variable {s : Sources} {st st' : SourceState} {at_ : ℕ}

/-- The stamp a source serves an id under. -/
def serving (s : Sources) (name k : String) : Option String :=
  (s.sources.find? (·.name = name)).bind (·.serving.get k)

def names (s : Sources) : List String := s.sources.map SourceState.name

theorem find_of_names (h : s.names.Nodup) (hst : st ∈ s.sources) :
    s.sources.find? (·.name = st.name) = some st := by
  cases hfind : s.sources.find? (·.name = st.name) with
  | none => exact absurd (by simp) (List.find?_eq_none.mp hfind st hst)
  | some other =>
    have hname : other.name = st.name := by simpa using List.find?_some hfind
    rw [List.inj_on_of_nodup_map h (List.mem_of_find?_eq_some hfind) hst hname]

theorem serving_of_mem (h : s.names.Nodup) (hst : st ∈ s.sources) (k : String) :
    s.serving st.name k = st.serving.get k := by
  rw [serving, find_of_names h hst]
  rfl

theorem names_set (hst : s.sources[at_]? = some st) (st' : SourceState) (hname : st'.name = st.name)
    (registry : Registry) : names ⟨registry, s.sources.set at_ st'⟩ = s.names := by
  obtain ⟨hat, hget⟩ := List.getElem?_eq_some_iff.mp hst
  rw [names, names, List.map_set, hname, ← hget, ← List.map_set, List.set_getElem_self]

theorem serving_set (h : s.names.Nodup) (hst : s.sources[at_]? = some st)
    (st' : SourceState) (hname : st'.name = st.name) (registry : Registry) :
    serving ⟨registry, s.sources.set at_ st'⟩ =
      Function.update s.serving st.name (st'.serving.get ·) := by
  have hnames := names_set hst st' hname registry
  have hat : at_ < s.sources.length := (List.getElem?_eq_some_iff.mp hst).1
  have hmem : st' ∈ (⟨registry, s.sources.set at_ st'⟩ : Sources).sources :=
    List.mem_set hat st'
  funext name k
  by_cases hsame : name = st.name
  · rw [hsame, Function.update_self, ← hname]
    exact serving_of_mem (hnames ▸ h) hmem k
  · rw [Function.update_of_ne hsame, serving, serving]
    congr 1
    cases hfind : s.sources.find? (·.name = name) with
    | none =>
      rw [List.find?_eq_none] at hfind ⊢
      intro other hother
      rcases List.mem_or_eq_of_mem_set hother with hother | rfl
      · exact hfind other hother
      · simpa [hname] using Ne.symm hsame
    | some other =>
      have hothername : other.name = name := by simpa using List.find?_some hfind
      have hother : other ∈ (⟨registry, s.sources.set at_ st'⟩ : Sources).sources := by
        obtain ⟨i, hi⟩ := List.mem_iff_getElem?.mp (List.mem_of_find?_eq_some hfind)
        refine List.mem_iff_getElem?.mpr ⟨i, ?_⟩
        rw [List.getElem?_set_ne ?_]
        · exact hi
        · rintro rfl
          rw [hst, Option.some.injEq] at hi
          exact hsame (by rw [hi, hothername])
      rw [← hothername]
      exact find_of_names (hnames ▸ h) hother

end Sources

namespace Books

variable {N : String → Prop} {U : String → String → Prop} {b b' : Books}

/-- The books as they are between two calls of the host. -/
structure Kempt (N : String → Prop) (U : String → String → Prop) (b : Books) : Prop where
  names : b.sources.names.Nodup
  booked : Booked N U b.sources.registry b.sources.serving b.trace
  tried : ∀ st ∈ b.sources.sources, ∀ k, st.tried.get k = Event.lastTried b.trace st.name k
  listing : ∀ st ∈ b.sources.sources, ∀ k, st.tried.get k =
    (((Event.lastListing b.trace st.name).getD []).find? (·.id = k)).map Candidate.stamp
  served : ∀ st ∈ b.sources.sources, ∀ k, st.tried.get k = none → st.serving.get k = none
  anew : Event.Anew b.trace
  /-- Nothing has been seen of a source that is not added yet. -/
  unseen : ∀ name, name ∉ b.sources.names → Event.lastListing b.trace name = none ∧
    ∀ k, Event.lastTried b.trace name k = none

theorem kempt_new : Kempt N U new where
  names := .nil
  booked := Booked.start
  tried := nofun
  listing := nofun
  served := nofun
  anew := Event.anew_nil
  unseen := fun _ _ => ⟨rfl, fun _ => rfl⟩

/-- The books once a source has listed and what it began has been followed. -/
def followed (b : Books) (at_ : ℕ) (st : SourceState) (answer : Answer) (listed : List Candidate)
    (began : Refreshing) : Books :=
  ⟨⟨(began.follow st.name answer listed).registry, b.sources.sources.set at_ { st with
      serving := (began.follow st.name answer listed).serving
      tried := (began.follow st.name answer listed).tried }⟩,
    b.trace ++ began.followEvents st.name answer listed⟩

variable {at_ : ℕ} {answer : Answer} {st : SourceState} {listed : List Candidate}

theorem refreshSource_ok {wrong : List String} (hst : b.sources.sources[at_]? = some st)
    (hlist : answer.list = .ok (listed, wrong)) :
    b.refreshSource at_ answer =
      b.followed at_ st answer listed (b.sources.refreshing st (wrong ++ answer.wrongNotes)) := by
  simp only [refreshSource, Sources.refreshSource, refreshEvents, hst, hlist, followed]

theorem refreshSource_cases (b : Books) (at_ : ℕ) (answer : Answer) :
    (∃ st listed wrong, b.sources.sources[at_]? = some st ∧ answer.list = .ok (listed, wrong) ∧
      b.refreshSource at_ answer =
        b.followed at_ st answer listed (b.sources.refreshing st (wrong ++ answer.wrongNotes))) ∨
    b.refreshSource at_ answer = b := by
  cases hst : b.sources.sources[at_]? with
  | none => exact .inr (by simp [refreshSource, Sources.refreshSource, refreshEvents, hst])
  | some st =>
    cases hlist : answer.list with
    | error reason => exact .inr (by simp [refreshSource, Sources.refreshSource, refreshEvents, hst, hlist])
    | ok out => exact .inl ⟨st, out.1, out.2, rfl, rfl, refreshSource_ok hst hlist⟩

theorem mem_followed (h : b.sources.names.Nodup) {other : SourceState}
    (hst : b.sources.sources[at_]? = some st)
    {began : Refreshing} (hother : other ∈ (b.followed at_ st answer listed began).sources.sources) :
    other = { st with
      serving := (began.follow st.name answer listed).serving
      tried := (began.follow st.name answer listed).tried } ∨
    other ∈ b.sources.sources ∧ st.name ≠ other.name := by
  have hat := (List.getElem?_eq_some_iff.mp hst).1
  obtain ⟨i, hi⟩ := List.mem_iff_getElem?.mp hother
  by_cases hsame : at_ = i
  · rw [followed, ← hsame, List.getElem?_set_self hat, Option.some.injEq] at hi
    exact .inl hi.symm
  · rw [followed, List.getElem?_set_ne hsame] at hi
    refine .inr ⟨List.mem_of_getElem? hi, fun hname => hsame ?_⟩
    refine (List.getElem?_inj (by simpa [Sources.names] using hat) h).mp ?_
    rw [Sources.names, List.getElem?_map, List.getElem?_map, hst, hi, Option.map_some, hname,
      Option.map_some]

/-- A refresh of one source, whose pairs have paths of their own, keeps the books. -/
theorem Kempt.followed (h : Kempt N U b) (answer : Answer)
    {began : Refreshing} (hst : b.sources.sources[at_]? = some st)
    (hregistry : began.registry = b.sources.registry) (hserving : began.serving = st.serving)
    (htried : began.tried = st.tried) (hU : Apart U)
    (hN : ∀ name ∈ b.sources.names, N name) (hlists : ∀ name k,
      Event.Lists (b.followed at_ st answer listed began).trace name k → U name k) :
    Kempt N U (b.followed at_ st answer listed began) := by
  have hmem := List.mem_of_getElem? hst
  have hfollows : began.Follows N U b.sources.serving st.name b.trace := by
    have hsame : Function.update b.sources.serving st.name (began.serving.get ·) =
        b.sources.serving := by
      rw [Function.update_eq_self_iff]
      funext k
      rw [hserving]
      exact (Sources.serving_of_mem h.names hmem k).symm
    refine ⟨?_, ?_, ?_, h.anew⟩
    · rw [hsame, hregistry]
      exact h.booked
    · rw [htried]
      exact h.tried st hmem
    · rw [htried, hserving]
      exact h.served st hmem
  have hlisted : ∀ c ∈ listed, U st.name c.id := fun c hc =>
    hlists _ _ ⟨listed, List.mem_append_right _ (List.mem_cons_self ..), List.mem_map_of_mem hc⟩
  have htold : ∀ k stamp, began.tried.get k = some stamp → U st.name k := by
    intro k stamp hstamp
    rw [htried, h.listing st hmem k] at hstamp
    obtain ⟨c, hc, -⟩ := Option.map_eq_some_iff.mp hstamp
    cases hheard : Event.lastListing b.trace st.name with
    | none =>
      rw [hheard] at hc
      cases hc
    | some before =>
      rw [hheard] at hc
      have hid : c.id = k := by simpa using List.find?_some hc
      refine hlists _ _ ⟨before, List.mem_append_left _ (Event.mem_of_lastListing hheard), ?_⟩
      rw [← hid]
      exact List.mem_map_of_mem (List.mem_of_find?_eq_some hc)
  have hdone := hfollows.follow answer hU (hN _ (List.mem_map_of_mem hmem)) hlisted htold
  have hnames : (b.followed at_ st answer listed began).sources.names = b.sources.names :=
    Sources.names_set hst _ (by rfl) _
  refine ⟨hnames ▸ h.names, ?_, fun other hother k => ?_, fun other hother k => ?_,
    fun other hother k hnone => ?_, hdone.anew, fun name hname => ?_⟩
  · have hserves : (b.followed at_ st answer listed began).sources.serving =
        Function.update b.sources.serving st.name
          ((began.follow st.name answer listed).serving.get ·) :=
      Sources.serving_set h.names hst _ (by rfl) _
    rw [hserves]
    exact hdone.booked
  · rcases mem_followed h.names hst hother with rfl | ⟨hother, hname⟩
    · exact hdone.tried k
    · rw [Books.followed, Refreshing.lastTried_follow _ _ _ _ hname]
      exact h.tried other hother k
  · rw [Books.followed, Refreshing.lastListing_follow]
    rcases mem_followed h.names hst hother with rfl | ⟨hother, hname⟩
    · rw [if_pos rfl]
      exact Refreshing.tried_follow ..
    · rw [if_neg hname]
      exact h.listing other hother k
  · rcases mem_followed h.names hst hother with rfl | ⟨hother, -⟩
    · exact hdone.served k hnone
    · exact h.served other hother k hnone
  · rw [hnames] at hname
    have hne : st.name ≠ name := fun heq => hname (heq ▸ List.mem_map_of_mem hmem)
    rw [Books.followed, Refreshing.lastListing_follow, if_neg hne]
    refine ⟨(h.unseen name hname).1, fun k => ?_⟩
    rw [Refreshing.lastTried_follow _ _ _ _ hne]
    exact (h.unseen name hname).2 k

theorem Kempt.refreshSource (h : Kempt N U b) (at_ : ℕ) (answer : Answer) (hU : Apart U)
    (hN : ∀ name ∈ b.sources.names, N name)
    (hlists : ∀ name k, Event.Lists (b.refreshSource at_ answer).trace name k → U name k) :
    Kempt N U (b.refreshSource at_ answer) := by
  rcases b.refreshSource_cases at_ answer with ⟨st, listed, wrong, hst, -, heq⟩ | heq
  · rw [heq] at hlists ⊢
    exact h.followed answer hst rfl rfl rfl hU hN hlists
  · rwa [heq]

theorem names_refreshSource (b : Books) (at_ : ℕ) (answer : Answer) :
    (b.refreshSource at_ answer).sources.names = b.sources.names := by
  rcases b.refreshSource_cases at_ answer with ⟨st, listed, wrong, hst, -, heq⟩ | heq
  · rw [heq]
    exact Sources.names_set hst _ (by rfl) _
  · rw [heq]

theorem Kempt.addSource (h : Kempt N U b) {name : String} {sources : Sources}
    (hadd : b.sources.addSource name = some sources) : Kempt N U ⟨sources, b.trace⟩ := by
  unfold Sources.addSource at hadd
  split at hadd
  · cases hadd
  · next hnot =>
    obtain rfl := Option.some.inj hadd
    have hnew : name ∉ b.sources.names := by
      simpa [Sources.hasSource, Sources.names] using hnot
    have hmem : ∀ st, st ∈ b.sources.sources ++ [(⟨name, .empty, .empty⟩ : SourceState)] →
        st ∈ b.sources.sources ∨ st = ⟨name, .empty, .empty⟩ := fun st hst =>
      (List.mem_append.mp hst).imp_right List.mem_singleton.mp
    refine ⟨?_, ?_, fun st hst k => ?_, fun st hst k => ?_, fun st hst k hnone => ?_, h.anew,
      fun other hother => ?_⟩
    · simp only [Sources.names, List.map_append, List.map_singleton]
      exact List.nodup_append.mpr ⟨h.names, List.nodup_singleton _, fun a ha c hc heq =>
        hnew (List.mem_singleton.mp hc ▸ heq ▸ ha)⟩
    · have hserving : Sources.serving { b.sources with
          sources := b.sources.sources ++ [⟨name, .empty, .empty⟩] } = b.sources.serving := by
        funext other k
        simp only [Sources.serving, List.find?_append]
        cases b.sources.sources.find? (·.name = other) with
        | some st => rfl
        | none =>
          rw [Option.none_or, List.find?_singleton]
          split <;> rfl
      rw [hserving]
      exact h.booked
    · rcases hmem st hst with hst | rfl
      · exact h.tried st hst k
      · exact ((h.unseen name hnew).2 k).symm
    · rcases hmem st hst with hst | rfl
      · exact h.listing st hst k
      · rw [(h.unseen name hnew).1]
        rfl
    · rcases hmem st hst with hst | rfl
      · exact h.served st hst k hnone
      · rfl
    · simp only [Sources.names, List.map_append, List.mem_append, not_or] at hother
      exact h.unseen other hother.1

theorem booked_absorb {r : Registry} {serving : String → String → Option String} {trace : List Event}
    (h : Booked N U r serving trace) {path : Path}
    (hpath : ∀ name, N name → ∀ k, path ≠ servedPath name k) (source : String) (canonical : Path)
    (opened : Opened) : Booked N U (r.absorb path source canonical opened).2 serving trace ∧
      r.without (r.absorb path source canonical opened).2 = [] := by
  cases houtcome : (r.absorb path source canonical opened).1 with
  | loaded one =>
    obtain ⟨library, taken, -, -, -, hone, hr'⟩ := Registry.absorb_loaded h.sound.byKey
      (show r.absorb path source canonical opened = (.loaded one, _) by rw [← houtcome])
    have hsound := Registry.sound_absorb h.sound path source canonical opened
    rw [hr'] at hsound ⊢
    have hlease : one.lease = r.nextLease := by rw [hone]
    have hout : ∀ name, N name → ∀ k, one.path ≠ servedPath name k := by
      rw [hone]
      exact hpath
    exact ⟨h.filed hsound hlease hout rfl rfl, Registry.without_eq_nil fun l hl =>
      ⟨l, List.mem_append_left _ hl, rfl⟩⟩
  | skipped why =>
    rw [Registry.absorb_refused (by simp [houtcome])]
    exact ⟨h, Registry.without_self r⟩
  | error e =>
    rw [Registry.absorb_refused (by simp [houtcome])]
    exact ⟨h, Registry.without_self r⟩

/-- What a host does with the registry alone, filing nothing where a source does. -/
theorem booked_host {r r' : Registry} {serving : String → String → Option String}
    {trace : List Event} (h : Booked N U r serving trace) {act : Registry.Act}
    (hstep : r.step act = some r')
    (hpath : ∀ path, filesAt act = some path → ∀ name, N name → ∀ k, path ≠ servedPath name k) :
    Booked N U r' serving (trace ++ (r.without r').map .hostRetired) := by
  have hquiet : Booked N U r' serving trace ∧ r.without r' = [] →
      Booked N U r' serving (trace ++ (r.without r').map .hostRetired) := by
    rintro ⟨hbooked, hnone⟩
    rw [hnone, List.map_nil, List.append_nil]
    exact hbooked
  have hsound := Registry.sound_step r act r' h.sound hstep
  cases act with
  | load path source want canonical opened =>
    obtain rfl := Option.some.inj hstep
    refine hquiet ?_
    unfold Registry.loadFrom
    split
    · exact ⟨h, Registry.without_self r⟩
    · split
      · exact ⟨h, Registry.without_self r⟩
      · exact booked_absorb h (hpath path rfl) ..
  | registerLocal name want canonical opened =>
    obtain rfl := Option.some.inj hstep
    refine hquiet ?_
    unfold Registry.registerLocal
    split
    · exact ⟨h, Registry.without_self r⟩
    · exact booked_absorb h (hpath _ rfl) ..
  | absorb path source canonical opened =>
    obtain rfl := Option.some.inj hstep
    exact hquiet (booked_absorb h (hpath path rfl) ..)
  | retire key =>
    simp only [Registry.step, Option.some.injEq] at hstep
    cases hone : r.loaded.find? (·.key = key) with
    | none =>
      obtain rfl : r = r' := by
        simpa [Registry.takeLibrary, hone] using hstep
      exact hquiet ⟨h, Registry.without_self r⟩
    | some one =>
      rw [Registry.takeLibrary_found hone, Option.elim_some] at hstep
      have hmem := List.mem_of_find?_eq_some hone
      have hloaded : ∀ l, l ∈ r'.loaded ↔ l ∈ r.loaded ∧ l ≠ one := by
        intro l
        rw [← hstep]
        exact h.sound.mem_eraseP hone
      refine h.retired hmem hsound (by rw [← hstep]) hloaded fun lease => ?_
      rw [Registry.mem_without]
      constructor
      · rintro ⟨⟨l, hl, rfl⟩, hnot⟩
        by_contra hne
        exact hnot l ((hloaded l).mpr ⟨hl, fun heq => hne (heq ▸ rfl)⟩) rfl
      · rintro rfl
        refine ⟨⟨one, hmem, rfl⟩, fun l hl heq => ?_⟩
        obtain ⟨hl, hne⟩ := (hloaded l).mp hl
        exact hne (h.sound.eq_of_lease hl hmem heq)
  | keyedBy template =>
    obtain rfl := Option.some.inj hstep
    have hsame : (r.keyedBy template).loaded = r.loaded ∧
        (r.keyedBy template).nextLease = r.nextLease := by
      simp only [Registry.keyedBy]
      split <;> exact ⟨rfl, rfl⟩
    refine hquiet ⟨h.renamed hsound hsame.2 ?_ ?_, Registry.without_eq_nil ?_⟩
    all_goals
      rw [hsame.1]
      exact fun l hl => ⟨l, hl, by first | rfl | exact ⟨rfl, rfl, rfl, rfl⟩⟩
  | librariesKeyedBy template =>
    obtain rfl := Option.some.inj hstep
    refine hquiet ?_
    simp only [Registry.librariesKeyedBy] at hsound ⊢
    split at hsound
    · next hnodup =>
      rw [if_pos hnodup]
      refine ⟨h.renamed hsound rfl (fun l hl => ⟨_, List.mem_map_of_mem hl, rfl, rfl, rfl, rfl⟩) ?_,
        Registry.without_eq_nil fun l hl => ⟨_, List.mem_map_of_mem hl, rfl⟩⟩
      intro l' hl'
      obtain ⟨l, hl, rfl⟩ := List.mem_map.mp hl'
      exact ⟨l, hl, rfl, rfl, rfl, rfl⟩
    · next hnodup =>
      rw [if_neg hnodup]
      exact ⟨h, Registry.without_self r⟩

theorem Kempt.host (h : Kempt N U b) {act : Registry.Act} {registry : Registry}
    (hstep : b.sources.registry.step act = some registry)
    (hpath : ∀ path, filesAt act = some path → ∀ name, N name → ∀ k, path ≠ servedPath name k) :
    Kempt N U ⟨{ b.sources with registry },
      b.trace ++ (b.sources.registry.without registry).map .hostRetired⟩ := by
  have hlistings : ∀ name, Event.lastListing (b.trace ++
      (b.sources.registry.without registry).map .hostRetired) name =
        Event.lastListing b.trace name := by
    intro name
    rw [Event.lastListing, List.foldl_append]
    exact Event.foldl_quiet (by simp [Event.hear])
  have htried : ∀ name k, Event.lastTried (b.trace ++
      (b.sources.registry.without registry).map .hostRetired) name k =
        Event.lastTried b.trace name k := by
    intro name k
    rw [Event.lastTried, List.foldl_append]
    exact Event.foldl_quiet (by simp [Event.try_])
  refine ⟨h.names, booked_host h.booked hstep hpath, ?_, ?_, h.served, h.anew.quiet (by simp), ?_⟩
  · simpa only [htried] using h.tried
  · simpa only [hlistings] using h.listing
  · intro name hname
    simpa only [htried, hlistings] using h.unseen name hname

theorem step_grows {act : Act} (hstep : step b act = some b') :
    (∀ name ∈ b.sources.names, name ∈ b'.sources.names) ∧ b.trace <+: b'.trace := by
  cases act with
  | host act =>
    obtain ⟨registry, -, rfl⟩ := Option.map_eq_some_iff.mp hstep
    exact ⟨fun _ hname => hname, List.prefix_append ..⟩
  | addSource name =>
    obtain ⟨sources, hadd, rfl⟩ := Option.map_eq_some_iff.mp hstep
    unfold Sources.addSource at hadd
    split at hadd
    · cases hadd
    · obtain rfl := Option.some.inj hadd
      refine ⟨fun other hother => ?_, List.prefix_rfl⟩
      simp only [Sources.names, List.map_append, List.mem_append]
      exact .inl hother
  | refreshSource at_ answer =>
    obtain rfl := Option.some.inj hstep
    exact ⟨fun name hname => by rwa [names_refreshSource], List.prefix_append ..⟩

theorem run_grows {acts : List Act} (hrun : run step b acts = some b') :
    (∀ name ∈ b.sources.names, name ∈ b'.sources.names) ∧ b.trace <+: b'.trace := by
  induction acts generalizing b with
  | nil =>
    obtain rfl := Option.some.inj hrun
    exact ⟨fun _ hname => hname, List.prefix_rfl⟩
  | cons act rest ih =>
    obtain ⟨m, hstep, hrest⟩ := run_cons.mp hrun
    obtain ⟨hnames, htrace⟩ := step_grows hstep
    obtain ⟨hnames', htrace'⟩ := ih hrest
    exact ⟨fun name hname => hnames' name (hnames name hname), htrace.trans htrace'⟩

/-- A run keeps the books, where the pairs listed by its end have paths of their own and the host
files nothing at the path of a source added by its end. -/
theorem Kempt.run {acts : List Act} (h : Kempt N U b) (hrun : run step b acts = some b')
    (hU : Apart U) (hN : ∀ name ∈ b'.sources.names, N name)
    (hlists : ∀ name k, Event.Lists b'.trace name k → U name k)
    (helsewhere : ∀ act, .host act ∈ acts → ∀ path, filesAt act = some path →
      ∀ name, N name → ∀ k, path ≠ servedPath name k) : Kempt N U b' := by
  induction acts generalizing b with
  | nil =>
    obtain rfl := Option.some.inj hrun
    exact h
  | cons act rest ih =>
    obtain ⟨m, hstep, hrest⟩ := run_cons.mp hrun
    obtain ⟨hnames, htrace⟩ := run_grows hrest
    refine ih ?_ hrest fun act hact => helsewhere act (List.mem_cons_of_mem _ hact)
    have hlists' : ∀ name k, Event.Lists m.trace name k → U name k := fun name k hlists' =>
      hlists name k (hlists'.imp fun _ hcs => ⟨htrace.subset hcs.1, hcs.2⟩)
    cases act with
    | host act =>
      obtain ⟨registry, hregistry, rfl⟩ := Option.map_eq_some_iff.mp hstep
      exact h.host hregistry (helsewhere act (List.mem_cons_self ..))
    | addSource name =>
      obtain ⟨sources, hadd, rfl⟩ := Option.map_eq_some_iff.mp hstep
      exact h.addSource hadd
    | refreshSource at_ answer =>
      obtain rfl := Option.some.inj hstep
      refine h.refreshSource at_ answer hU (fun name hname => hN name (hnames name ?_)) hlists'
      rwa [names_refreshSource]

theorem refresh_rule (P : ℕ → Books → Prop) (b : Books) (answers : ℕ → Answer) (hstart : P 0 b)
    (hturn : ∀ at_ b', at_ < b.sources.sources.length → P at_ b' →
      P (at_ + 1) (b'.refreshSource at_ (answers at_))) :
    P b.sources.sources.length (b.refresh answers) := by
  suffices hall : ∀ n ≤ b.sources.sources.length,
      P n ((List.range n).foldl (fun b at_ => b.refreshSource at_ (answers at_)) b) from
    hall _ le_rfl
  intro n hn
  induction n with
  | zero => exact hstart
  | succ n ih =>
    rw [List.range_succ, List.foldl_append]
    exact hturn n _ hn (ih (Nat.le_of_succ_le hn))

theorem run_refresh (b : Books) (answers : ℕ → Answer) :
    run step b ((List.range b.sources.sources.length).map fun at_ =>
      .refreshSource at_ (answers at_)) = some (b.refresh answers) := by
  refine refresh_rule (fun n b' => run step b ((List.range n).map fun at_ =>
    .refreshSource at_ (answers at_)) = some b') b answers rfl fun at_ b' _ hb' => ?_
  rw [List.range_succ, List.map_append, run_append]
  exact ⟨b', hb', rfl⟩

theorem lastListing_refresh (h : b.sources.names.Nodup) (answers : ℕ → Answer) {wrong : List String}
    (hst : (b.refresh answers).sources.sources[at_]? = some st)
    (hlist : (answers at_).list = .ok (listed, wrong)) :
    Event.lastListing (b.refresh answers).trace st.name = some listed := by
  suffices hall : (b.refresh answers).sources.names = b.sources.names ∧
      ∀ at_ < b.sources.sources.length, ∀ name listed wrong, b.sources.names[at_]? = some name →
        (answers at_).list = .ok (listed, wrong) →
        Event.lastListing (b.refresh answers).trace name = some listed by
    obtain ⟨hnames, hheard⟩ := hall
    have hname : b.sources.names[at_]? = some st.name := by
      rw [← hnames, Sources.names, List.getElem?_map, hst]
      rfl
    refine hheard at_ ?_ st.name listed wrong hname hlist
    have hlt := (List.getElem?_eq_some_iff.mp hname).1
    rwa [Sources.names, List.length_map] at hlt
  refine refresh_rule (fun n b' => b'.sources.names = b.sources.names ∧
    ∀ at_ < n, ∀ name listed wrong, b.sources.names[at_]? = some name →
      (answers at_).list = .ok (listed, wrong) → Event.lastListing b'.trace name = some listed)
    b answers ⟨rfl, nofun⟩ ?_
  rintro n b' hn ⟨hnames, hheard⟩
  refine ⟨(names_refreshSource ..).trans hnames, fun i hi name listed wrong hname hlist => ?_⟩
  have hget : ∀ {i : ℕ} {name : String}, b.sources.names[i]? = some name →
      ∃ st, b'.sources.sources[i]? = some st ∧ st.name = name := by
    intro i name hname
    rw [← hnames, Sources.names, List.getElem?_map] at hname
    exact Option.map_eq_some_iff.mp hname
  by_cases hlast : i = n
  · rw [hlast] at hname hlist
    obtain ⟨st, hst, rfl⟩ := hget hname
    rw [refreshSource_ok hst hlist, followed, Refreshing.lastListing_follow, if_pos rfl]
  · have hbefore := hheard i (by omega) name listed wrong hname hlist
    rcases b'.refreshSource_cases n (answers n) with ⟨st, listed', wrong', hst, -, heq⟩ | heq
    · rw [heq, followed, Refreshing.lastListing_follow, if_neg, hbefore]
      rintro rfl
      have hsame : b.sources.names[n]? = some st.name := by
        rw [← hnames, Sources.names, List.getElem?_map, hst]
        rfl
      exact hlast ((List.getElem?_inj (List.getElem?_eq_some_iff.mp hname).1 h).mp
        (hname.trans hsame.symm))
    · rwa [heq]

theorem Kempt.same (h : Kempt N U b) {answers : ℕ → Answer} (hsame : b.SameListings answers) :
    (b.refresh answers).sources = b.sources ∧ ∃ listings,
      (b.refresh answers).trace = b.trace ++ listings ∧
      ∀ e ∈ listings, ∃ name candidates, e = .listed name candidates := by
  refine refresh_rule (fun _ b' => b'.sources = b.sources ∧ ∃ listings,
    b'.trace = b.trace ++ listings ∧ ∀ e ∈ listings, ∃ name candidates, e = .listed name candidates)
    b answers ⟨rfl, [], (List.append_nil _).symm, nofun⟩ ?_
  rintro at_ b' - ⟨hsources, listings, htrace, hlistings⟩
  rcases b'.refreshSource_cases at_ (answers at_) with ⟨st, listed, wrong, hst, hlist, heq⟩ | heq
  · rw [hsources] at hst
    have hmem := List.mem_of_getElem? hst
    have hlast : ∀ k, (b.sources.refreshing st (wrong ++ (answers at_).wrongNotes)).tried.get k =
        (listed.find? (·.id = k)).map Candidate.stamp := by
      intro k
      have hlisting := h.listing st hmem k
      rwa [hsame at_ st hst listed wrong hlist, Option.getD_some] at hlisting
    obtain ⟨hregistry, hserving, htried, hevents⟩ :=
      Refreshing.follow_same st.name (answers at_) hlast
    rw [heq, Books.followed, hsources, hregistry, hserving, htried, hevents,
      htrace]
    refine ⟨?_, listings ++ [.listed st.name listed], List.append_assoc .., fun e he => ?_⟩
    · obtain ⟨hat, hget⟩ := List.getElem?_eq_some_iff.mp hst
      have hset : b.sources.sources.set at_ st = b.sources.sources := by
        rw [← hget, List.set_getElem_self]
      exact congrArg (Sources.mk b.sources.registry) hset
    · rcases List.mem_append.mp he with he | he
      · exact hlistings e he
      · exact ⟨st.name, listed, List.mem_singleton.mp he⟩
  · rw [heq]
    exact ⟨hsources, listings, htrace, hlistings⟩

theorem Kempt.agrees (h : Kempt N U b) (hN : ∀ name ∈ b.sources.names, N name)
    (hst : st ∈ b.sources.sources)
    (hlisted : Event.lastListing b.trace st.name = some listed) : b.Agrees st listed := by
  have hserving := Sources.serving_of_mem h.names hst
  have hbuild : ∀ id l, b.Registered st.name id l → ∃ stamp, st.serving.get id = some stamp ∧
      Event.lastBuild b.trace st.name id = some (stamp, l.lease) := by
    intro id l hl
    rcases h.booked.origin l hl.loaded with ⟨-, stamp, hstamp, hbuild⟩ | hout
    · rw [hl.source, hl.id] at hstamp hbuild
      exact ⟨stamp, (hserving id).symm.trans hstamp, hbuild⟩
    · exact absurd hl.path (hout st.name (hN _ (List.mem_map_of_mem hst)) id)
  refine ⟨fun id => ⟨?_, ?_⟩, hbuild, fun id l hl => ?_⟩
  · rintro ⟨l, hl⟩
    obtain ⟨stamp, hstamp, hbuild⟩ := hbuild id l hl
    refine ⟨⟨stamp, hstamp⟩, ?_⟩
    rintro ⟨stamp', lease, hbuild', hretired⟩
    rw [hbuild, Option.some.injEq, Prod.mk.injEq] at hbuild'
    exact (h.booked.gone lease hretired).2 l hl.loaded hbuild'.2
  · rintro ⟨⟨stamp, hstamp⟩, hnot⟩
    obtain ⟨-, -, lease, hbuild, hin⟩ := h.booked.served st.name id stamp ((hserving id).trans hstamp)
    obtain ⟨l, hl, -, hsource, hid, hpath⟩ := hin fun hretired => hnot ⟨stamp, lease, hbuild, hretired⟩
    exact ⟨l, hl, hsource, hid, hpath⟩
  · obtain ⟨stamp, hstamp, -⟩ := hbuild id l hl
    have htried := h.listing st hst id
    rw [hlisted, Option.getD_some] at htried
    cases hfind : listed.find? (·.id = id) with
    | none =>
      rw [hfind] at htried
      rw [h.served st hst id htried] at hstamp
      cases hstamp
    | some c =>
      have hid : c.id = id := by simpa using List.find?_some hfind
      exact hid ▸ List.mem_map_of_mem (List.mem_of_find?_eq_some hfind)

/-- After every refresh, of each source that answered: a library is registered from it under an id
just where its record says the id is serving and the host has not retired the build, it is the build
opened under the recorded stamp, and the id is in the listing. A candidate is opened only under
another stamp than before, or once a listing left it out; and the same listings again open, load
and retire nothing. -/
theorem refresh_keepsBooks {acts : List Act} (hrun : run step new acts = some b)
    (answers : ℕ → Answer) (hpaths : PathsDiffer (b.refresh answers).trace)
    (helsewhere : ∀ act ∈ acts, act.Elsewhere (b.refresh answers).sources) :
    (∀ at_ st listed wrong, (b.refresh answers).sources.sources[at_]? = some st →
      (answers at_).list = .ok (listed, wrong) → (b.refresh answers).Agrees st listed) ∧
    OpenedAnew (b.refresh answers).trace ∧
    (b.SameListings answers → (b.refresh answers).sources = b.sources ∧ ∃ listings,
      (b.refresh answers).trace = b.trace ++ listings ∧
      ∀ e ∈ listings, ∃ name candidates, e = .listed name candidates) := by
  have hN : ∀ act, .host act ∈ acts → ∀ path, filesAt act = some path →
      ∀ name, name ∈ (b.refresh answers).sources.names → ∀ k, path ≠ servedPath name k := by
    intro act hact path hpath name hname k
    obtain ⟨st, hst, rfl⟩ := List.mem_map.mp hname
    exact helsewhere (.host act) hact path hpath st hst k
  have hall := run_append.mpr ⟨b, hrun, run_refresh b answers⟩
  obtain ⟨hnames, htrace⟩ := run_grows (run_refresh b answers)
  have hbefore : Kempt (· ∈ (b.refresh answers).sources.names)
      (Event.Lists (b.refresh answers).trace) b :=
    kempt_new.run hrun hpaths hnames
      (fun name k hlists => hlists.imp fun _ hcs => ⟨htrace.subset hcs.1, hcs.2⟩) hN
  have hafter : Kempt (· ∈ (b.refresh answers).sources.names)
      (Event.Lists (b.refresh answers).trace) (b.refresh answers) := by
    refine kempt_new.run hall hpaths (fun _ hname => hname) (fun _ _ hlists => hlists) ?_
    intro act hact
    rcases List.mem_append.mp hact with hact | hact
    · exact hN act hact
    · simp at hact
  refine ⟨fun at_ st listed wrong hst hlist => ?_, hafter.anew.openedAnew, hbefore.same⟩
  exact hafter.agrees (fun _ hname => hname) (List.mem_of_getElem? hst)
    (lastListing_refresh hbefore.names answers hst hlist)

/-- A source serves two libraries, the host retires one of them, and then the source lists only the
other. -/
theorem refresh_keepsBooks_retired : ∃ b st,
    run step new [.addSource "a", .refreshSource 0 (Sources.serves ["x", "y"]),
      .host (.retire "x")] = some b ∧
    (b.refresh fun _ => Sources.serves ["y"]).sources.sources[0]? = some st ∧
    (b.refresh fun _ => Sources.serves ["y"]).Agrees st [⟨"y", "1"⟩] ∧
    OpenedAnew (b.refresh fun _ => Sources.serves ["y"]).trace := by
  obtain ⟨b, hrun⟩ : ∃ b, run step new [.addSource "a",
      .refreshSource 0 (Sources.serves ["x", "y"]), .host (.retire "x")] = some b := ⟨_, rfl⟩
  obtain ⟨st, hst⟩ : ∃ st,
      (b.refresh fun _ => Sources.serves ["y"]).sources.sources[0]? = some st := by
    cases hrun
    exact ⟨_, rfl⟩
  have htrace : (b.refresh fun _ => Sources.serves ["y"]).trace =
      [.listed "a" [⟨"x", "1"⟩, ⟨"y", "1"⟩], .opened "a" "x" "1", .loaded "a" "x" "1" 0,
        .opened "a" "y" "1", .loaded "a" "y" "1" 1, .hostRetired 0,
        .listed "a" [⟨"y", "1"⟩]] := by
    cases hrun
    decide +kernel
  have hlisted : ∀ name k, Event.Lists (b.refresh fun _ => Sources.serves ["y"]).trace name k →
      name = "a" ∧ '/' ∉ k.toList := by
    rintro name k ⟨candidates, hmem, hk⟩
    rw [htrace] at hmem
    simp only [List.mem_cons, Event.listed.injEq, reduceCtorEq, List.not_mem_nil, or_false,
      false_or] at hmem
    rcases hmem with ⟨rfl, rfl⟩ | ⟨rfl, rfl⟩
    · simp only [List.map_cons, List.map_nil, List.mem_cons, List.not_mem_nil, or_false] at hk
      rcases hk with rfl | rfl <;> exact ⟨rfl, by decide⟩
    · simp only [List.map_cons, List.map_nil, List.mem_singleton] at hk
      exact ⟨rfl, by subst hk; decide⟩
  obtain ⟨hagrees, hanew, -⟩ := refresh_keepsBooks hrun (fun _ => Sources.serves ["y"])
    (fun name k name' k' hlists hlists' hpath => by
      obtain ⟨rfl, hk⟩ := hlisted name k hlists
      obtain ⟨rfl, hk'⟩ := hlisted name' k' hlists'
      exact servedPath_inj (by decide) hk (by decide) hk' hpath)
    (fun act hact => by
      simp only [List.mem_cons, List.not_mem_nil, or_false] at hact
      rcases hact with rfl | rfl | rfl
      · trivial
      · trivial
      · intro path h
        cases h)
  exact ⟨b, st, hrun, hst, hagrees 0 st _ [] hst rfl, hanew⟩

end Books

end Guatiao.Library
