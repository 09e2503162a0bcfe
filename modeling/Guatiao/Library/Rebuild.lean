import Guatiao.Library.Isolation

/-!
# What becomes of the old build

A changed build that opens is offered to the registry once the old one has left. Where the
registry refuses it, the old build is gone and the new one is not in. The registry refuses
a library whose key another holds, or one of whose providers has the key of another id. An old
build is lost as well to another id that leaves at its path.
-/

namespace Guatiao.Library

open Lib

namespace Registry

variable {r : Registry} {source : String} {library : LibraryView}

/-- No provider that is registered has the key of one of `views` and another id. -/
def Free (r : Registry) (source : String) (library : LibraryView) (views : List ProviderView) :
    Prop :=
  ∀ v ∈ views, ∀ p ∈ r.providers, p.key = r.keyOf source library v → p.id = v.id

/-- No two of a library's providers have one key and different ids. -/
def Distinct (r : Registry) (source : String) (library : LibraryView) (views views' : List ProviderView) :
    Prop :=
  ∀ v ∈ views, ∀ w ∈ views', r.keyOf source library v = r.keyOf source library w → v.id = w.id

/-- What has been taken has its own keys, which nobody else has. -/
structure Takes (r : Registry) (source : String) (library : LibraryView)
    (taken : List (ProviderView × String)) : Prop where
  keys : ∀ t ∈ taken, t.2 = r.keyOf source library t.1
  nodup : (taken.map Prod.snd).Nodup
  new : ∀ t ∈ taken, r.provider t.2 = none

theorem takes_nil (r : Registry) (source : String) (library : LibraryView) :
    r.Takes source library [] :=
  ⟨nofun, .nil, nofun⟩

variable {taken : List (ProviderView × String)}

theorem holder_eq_some (h : r.Sound) {path : Path}
    (htakes : r.Takes source library taken) {key id : String} {«from» : Path}
    (hholder : r.holder path taken key = some (id, «from»)) :
    (∃ p ∈ r.providers, p.key = key ∧ p.id = id ∧ ∀ q ∈ r.providers, q.key = key → q = p) ∨
      r.provider key = none ∧ ∃ t ∈ taken, t.2 = key ∧ t.1.id = id ∧ ∀ u ∈ taken, u.2 = key → u = t := by
  unfold holder at hholder
  split at hholder
  · next p hp =>
    obtain ⟨hmem, hkey⟩ := h.provider_iff.mp hp
    rw [Option.some.injEq, Prod.mk.injEq] at hholder
    refine Or.inl ⟨p, hmem, hkey, hholder.1, fun q hq hqkey => ?_⟩
    have hfound := h.provider_iff.mpr ⟨hq, hqkey⟩
    rw [hp, Option.some.injEq] at hfound
    exact hfound.symm
  · next hnone =>
    obtain ⟨t, hfind, heq⟩ := Option.map_eq_some_iff.mp hholder
    rw [Prod.mk.injEq] at heq
    have hkey : t.2 = key := by simpa using List.find?_some hfind
    have hmem := List.mem_of_find?_eq_some hfind
    refine Or.inr ⟨hnone, t, hmem, hkey, heq.1, fun u hu hukey => ?_⟩
    exact List.inj_on_of_nodup_map htakes.nodup hu hmem (hukey.trans hkey.symm)

theorem holder_eq_none (h : r.Sound) {path : Path}
    {key : String} (hholder : r.holder path taken key = none) :
    (∀ p ∈ r.providers, p.key ≠ key) ∧ r.provider key = none ∧ ∀ t ∈ taken, t.2 ≠ key := by
  unfold holder at hholder
  split at hholder
  · cases hholder
  · next hnone =>
    refine ⟨fun p hp hkey => ?_, hnone, fun t ht hkey => ?_⟩
    · rw [h.provider_iff.mpr ⟨hp, hkey⟩] at hnone
      cases hnone
    · rw [Option.map_eq_none_iff, List.find?_eq_none] at hholder
      exact hholder t ht (by simpa using hkey)

theorem Takes.push {view : ProviderView} (htakes : r.Takes source library taken)
    (hnone : r.provider (r.keyOf source library view) = none)
    (hout : ∀ t ∈ taken, t.2 ≠ r.keyOf source library view) :
    r.Takes source library (taken ++ [(view, r.keyOf source library view)]) := by
  refine ⟨?_, ?_, ?_⟩
  · simpa [or_imp, forall_and] using htakes.keys
  · rw [List.map_append, List.nodup_append]
    refine ⟨htakes.nodup, List.nodup_singleton _, fun k hk k' hk' heq => ?_⟩
    obtain ⟨t, ht, rfl⟩ := List.mem_map.mp hk
    rw [List.map_singleton, List.mem_singleton] at hk'
    exact hout t ht (heq.trans hk')
  · intro t ht
    rcases List.mem_append.mp ht with ht | ht
    · exact htakes.new t ht
    · rw [List.mem_singleton.mp ht]
      exact hnone

/-- The providers of a library get on with those registered, with those taken so far, and with each
other. -/
def GetOn (r : Registry) (source : String) (library : LibraryView) (before views : List ProviderView) :
    Prop :=
  r.Free source library views ∧ r.Distinct source library before views ∧
    r.Distinct source library views views

/-- One of them gets on with all the others. -/
def Fits (r : Registry) (source : String) (library : LibraryView) (before rest : List ProviderView)
    (view : ProviderView) : Prop :=
  (∀ p ∈ r.providers, p.key = r.keyOf source library view → p.id = view.id) ∧
    (∀ v ∈ before, r.keyOf source library v = r.keyOf source library view → v.id = view.id) ∧
    ∀ w ∈ rest, r.keyOf source library view = r.keyOf source library w → view.id = w.id

theorem getOn_cons {before rest : List ProviderView} {view : ProviderView} :
    r.GetOn source library before (view :: rest) ↔
      r.Fits source library before rest view ∧ r.GetOn source library before rest := by
  simp only [GetOn, Fits, Free, Distinct, List.forall_mem_cons]
  constructor
  · rintro ⟨⟨hfree, hfrees⟩, hbefore, ⟨-, hrest⟩, hamong⟩
    exact ⟨⟨hfree, fun v hv => (hbefore v hv).1, hrest⟩, hfrees, fun v hv => (hbefore v hv).2,
      fun v hv => (hamong v hv).2⟩
  · rintro ⟨⟨hfree, hfirst, hrest⟩, hfrees, hbefore, hamong⟩
    exact ⟨⟨hfree, hfrees⟩, fun v hv => ⟨hfirst v hv, hbefore v hv⟩, ⟨fun _ => trivial, hrest⟩,
      fun v hv => ⟨fun heq => (hrest v hv heq.symm).symm, hamong v hv⟩⟩

theorem getOn_push {before rest : List ProviderView} {view : ProviderView}
    (hfree : ∀ p ∈ r.providers, p.key ≠ r.keyOf source library view)
    (hout : ∀ v ∈ before, r.keyOf source library v ≠ r.keyOf source library view) :
    r.GetOn source library (before ++ [view]) rest ↔ r.GetOn source library before (view :: rest) := by
  rw [getOn_cons]
  simp only [GetOn, Fits, Distinct, List.forall_mem_append, List.forall_mem_singleton]
  constructor
  · rintro ⟨hfrees, ⟨hbefore, hview⟩, hamong⟩
    exact ⟨⟨fun p hp heq => absurd heq (hfree p hp), fun v hv heq => absurd heq (hout v hv), hview⟩,
      hfrees, hbefore, hamong⟩
  · rintro ⟨⟨-, -, hview⟩, hfrees, hbefore, hamong⟩
    exact ⟨hfrees, ⟨hbefore, hview⟩, hamong⟩

/-- Whoever holds a provider's key has the id of every view of this key. -/
theorem fits_iff_of_held (h : r.Sound) {path : Path} {rest : List ProviderView} {view : ProviderView}
    {heldBy : String} {first : Path} (htakes : r.Takes source library taken)
    (hholder : r.holder path taken (r.keyOf source library view) = some (heldBy, first))
    (hrest : r.GetOn source library (taken.map Prod.fst) rest) :
    r.Fits source library (taken.map Prod.fst) rest view ↔ heldBy = view.id := by
  rcases holder_eq_some h htakes hholder with ⟨p, hp, hpkey, rfl, honly⟩ | ⟨hnone, t, ht, htkey, rfl, honly⟩
  · refine ⟨fun hfits => hfits.1 p hp hpkey, fun heq => ⟨fun q hq hqkey => ?_, fun v hv hkey => ?_,
      fun w hw hkey => ?_⟩⟩
    · rw [honly q hq hqkey, heq]
    · obtain ⟨u, hu, rfl⟩ := List.mem_map.mp hv
      have hnew := htakes.new u hu
      rw [htakes.keys u hu, hkey, h.provider_iff.mpr ⟨hp, hpkey⟩] at hnew
      cases hnew
    · rw [← heq]
      exact hrest.1 w hw p hp (hpkey.trans hkey)
  · rw [htakes.keys t ht] at htkey
    refine ⟨fun hfits => hfits.2.1 t.1 (List.mem_map_of_mem ht) htkey, fun heq =>
      ⟨fun q hq hqkey => ?_, fun v hv hkey => ?_, fun w hw hkey => ?_⟩⟩
    · rw [h.provider_iff.mpr ⟨hq, hqkey⟩] at hnone
      cases hnone
    · obtain ⟨u, hu, rfl⟩ := List.mem_map.mp hv
      rw [honly u hu ((htakes.keys u hu).trans hkey), heq]
    · rw [← heq]
      exact hrest.2.1 t.1 (List.mem_map_of_mem ht) w hw (htkey.trans hkey)

/-- The providers of a library are taken in exactly if they get on. -/
theorem take_isOk_iff (h : r.Sound) (path : Path) {views : List ProviderView}
    (htakes : r.Takes source library taken) :
    (∃ out, r.take path source library views taken = .ok out) ↔
      r.GetOn source library (taken.map Prod.fst) views := by
  induction views generalizing taken with
  | nil =>
    exact ⟨fun _ => ⟨nofun, fun _ _ => nofun, nofun⟩, fun _ => ⟨taken, rfl⟩⟩
  | cons view rest ih =>
    simp only [take]
    split
    · next hholder =>
      obtain ⟨hfree, hnone, hout⟩ := holder_eq_none h hholder
      rw [ih (htakes.push hnone hout), List.map_append]
      refine getOn_push hfree fun v hv heq => ?_
      obtain ⟨t, ht, rfl⟩ := List.mem_map.mp hv
      exact hout t ht ((htakes.keys t ht).trans heq)
    · next heldBy first hholder =>
      have hfits : r.GetOn source library (taken.map Prod.fst) rest → _ :=
        fits_iff_of_held h htakes hholder
      rw [getOn_cons]
      split
      · next heq =>
        rw [ih htakes]
        exact ⟨fun hrest => ⟨(hfits hrest).mpr heq, hrest⟩, And.right⟩
      · next hne =>
        refine iff_of_false (fun hok => ?_) fun hon => hne ((hfits hon.2).mp hon.1)
        obtain ⟨out, hok⟩ := hok
        cases hok

/-- No library has the key of one, and each of its providers is free of those registered and of the
others. -/
def HasRoom (r : Registry) (source : String) (library : LibraryView) : Prop :=
  (∀ l ∈ r.loaded, l.key ≠ r.libraryKeyOf source library) ∧
    r.Free source library library.providers ∧
    r.Distinct source library library.providers library.providers

theorem absorb_loaded_iff (h : r.Sound) (path : Path) (canonical : Path) :
    (∃ one, (r.absorb path source canonical (.loaded library)).1 = .loaded one) ↔
      r.HasRoom source library := by
  have htake : (∃ out, r.take path source library library.providers [] = .ok out) ↔ _ :=
    take_isOk_iff h path (takes_nil r source library)
  have hnone : r.loaded.find? (·.key = r.libraryKeyOf source library) = none ↔
      ∀ l ∈ r.loaded, l.key ≠ r.libraryKeyOf source library := by
    simp only [List.find?_eq_none, decide_eq_true_eq, ne_eq]
  rw [HasRoom, ← hnone]
  simp only [absorb]
  split
  · next heq =>
    rw [heq]
    refine iff_of_false (fun hone => ?_) (fun hall => ?_)
    · obtain ⟨one, hone⟩ := hone
      cases hone
    · cases hall.1
  · next heq =>
    rw [and_iff_right heq]
    cases htaken : r.take path source library library.providers [] with
    | error e =>
      rw [htaken] at htake
      refine iff_of_false (fun hone => ?_) (fun hall => ?_)
      · obtain ⟨one, hone⟩ := hone
        cases hone
      · have hbefore : r.Distinct source library [] library.providers := by
          intro v hv
          cases hv
        obtain ⟨out, hout⟩ := htake.mpr ⟨hall.1, hbefore, hall.2⟩
        cases hout
    | ok taken =>
      have hall := htake.mp ⟨taken, htaken⟩
      exact iff_of_true ⟨_, rfl⟩ ⟨hall.1, hall.2.2⟩

end Registry

namespace Refreshing

variable {s : Refreshing} {source : String} {answer : Answer} {c : Candidate}

/-- At its turn an id leaves: it is served, and a library is registered at its path. -/
def Leaves (s : Refreshing) (source id : String) : Prop :=
  (∃ stamp, s.serving.get id = some stamp) ∧
    ∃ l ∈ s.registry.loaded, l.path = servedPath source id

/-- The new build's keys are free once the old one, at its path, has left. -/
def Room (s : Refreshing) (source : String) (library : LibraryView) : Prop :=
  (∀ l ∈ s.registry.loaded, l.key = s.registry.libraryKeyOf source library →
      s.registry.loaded.find? (·.path = servedPath source library.id) = some l) ∧
    (∀ v ∈ library.providers, ∀ p ∈ s.registry.providers,
      p.from ≠ servedPath source library.id → p.key = s.registry.keyOf source library v →
        p.id = v.id) ∧
    s.registry.Distinct source library library.providers library.providers

/-- A changed build whose old one leaves has room where it opens. -/
def RoomAt (s : Refreshing) (source : String) (answer : Answer) (c : Candidate) : Prop :=
  ∀ library, s.Opens answer c library → s.Leaves source c.id → s.Room source library

/-- A build opens and is taken in: it has room where its old one leaves, or the registry has. -/
def Enters (s : Refreshing) (source : String) (answer : Answer) (c : Candidate) : Prop :=
  ∃ library, s.Opens answer c library ∧
    (s.Leaves source c.id ∧ s.Room source library ∨
      ¬ s.Leaves source c.id ∧ s.registry.HasRoom source library)

instance (s : Refreshing) (source id : String) : Decidable (s.Leaves source id) :=
  decidable_of_iff ((s.serving.get id).isSome ∧
      ∃ l ∈ s.registry.loaded, l.path = servedPath source id) (by
    rw [Leaves, Option.isSome_iff_exists])

instance (s : Refreshing) (source : String) (library : LibraryView) :
    Decidable (s.Room source library) := by
  unfold Room Registry.Distinct
  infer_instance

instance (s : Refreshing) (source : String) (answer : Answer) (c : Candidate) :
    Decidable (s.RoomAt source answer c) :=
  match hopen : answer.open c.id c.stamp with
  | .opened (.loaded library) =>
    decidable_of_iff (s.tried.get c.id ≠ some c.stamp → library.id = c.id →
        s.Leaves source c.id → s.Room source library) (by
      simp only [RoomAt, Opens, hopen, Opening.opened.injEq, Opened.loaded.injEq]
      constructor
      · rintro h _ ⟨hnew, rfl, hid⟩ hleaves
        exact h hnew hid hleaves
      · intro h hnew hid hleaves
        exact h library ⟨hnew, rfl, hid⟩ hleaves)
  | .opened .noEntrySymbol => isTrue fun library h => by simp [Opens, hopen] at h
  | .opened .declined => isTrue fun library h => by simp [Opens, hopen] at h
  | .opened (.unsupportedAbi _) => isTrue fun library h => by simp [Opens, hopen] at h
  | .opened (.malformed _) => isTrue fun library h => by simp [Opens, hopen] at h
  | .refused _ => isTrue fun library h => by simp [Opens, hopen] at h

/-- The ids of the libraries a report says were loaded. -/
def loadedIds (s : Refreshing) : List String := s.report.loaded.map Served.id

/-- The ids of the libraries a report says were retired. -/
def retiredIds (s : Refreshing) : List String := s.report.retired.map Served.id

/-- What offering a library to the registry came to: it is in, and reported, or nothing is. -/
theorem absorb_cases (s : Refreshing) (source : String) (canonical : Path) (c : Candidate)
    (opened : Opened) :
    (s.absorb source canonical c opened).retiredIds = s.retiredIds ∧
      ((∃ one, (s.registry.absorb (servedPath source c.id) source canonical opened).1 = .loaded one) ∧
          (s.absorb source canonical c opened).loadedIds = s.loadedIds ++ [c.id] ∨
        (∀ one, (s.registry.absorb (servedPath source c.id) source canonical opened).1 ≠
            .loaded one) ∧
          (s.absorb source canonical c opened).loadedIds = s.loadedIds ∧
          (s.absorb source canonical c opened).registry = s.registry) := by
  rw [absorb_registry]
  have hrefused : (∀ one, (s.registry.absorb (servedPath source c.id) source canonical opened).1 ≠
      .loaded one) → _ := Registry.absorb_refused
  unfold absorb loadedIds retiredIds
  split
  · next one registry heq =>
    rw [heq]
    refine ⟨rfl, Or.inl ⟨⟨one, rfl⟩, ?_⟩⟩
    simp only [List.map_append, List.map_cons, List.map_nil]
  · next heq =>
    rw [heq] at hrefused ⊢
    exact ⟨rfl, Or.inr ⟨nofun, rfl, hrefused nofun⟩⟩
  · next heq =>
    rw [heq] at hrefused ⊢
    exact ⟨rfl, Or.inr ⟨nofun, rfl, hrefused nofun⟩⟩

theorem withdraw_cases (h : s.registry.Sound) (source id : String) :
    (∃ stamp old, s.serving.get id = some stamp ∧
        s.registry.loaded.find? (·.path = servedPath source id) = some old ∧
        (s.withdraw source id).registry = { s.registry with
          loaded := s.registry.loaded.eraseP (·.key = old.key)
          providers := s.registry.providers.filter (·.from ≠ servedPath source id)
          byKey := index Provider.key
            (s.registry.providers.filter (·.from ≠ servedPath source id)) } ∧
        (s.withdraw source id).retiredIds = s.retiredIds ++ [id]) ∨
      ¬ s.Leaves source id ∧ (s.withdraw source id).registry = s.registry ∧
        (s.withdraw source id).retiredIds = s.retiredIds := by
  unfold withdraw
  split
  · next hnone =>
    refine Or.inr ⟨fun hboth => ?_, rfl, rfl⟩
    obtain ⟨⟨stamp, hstamp⟩, -⟩ := hboth
    rw [hnone] at hstamp
    cases hstamp
  · next stamp hstamp =>
    cases hfind : s.registry.loaded.find? (·.path = servedPath source id) with
    | none =>
      rw [retireAt_none (s := { s with serving := s.serving.remove id }) stamp hfind]
      refine Or.inr ⟨fun hboth => ?_, rfl, rfl⟩
      obtain ⟨-, l, hl, hpath⟩ := hboth
      exact List.find?_eq_none.mp hfind l hl (by simpa using hpath)
    | some old =>
      rw [retireAt_found (s := { s with serving := s.serving.remove id }) h stamp hfind]
      refine Or.inl ⟨stamp, old, hstamp, rfl, rfl, ?_⟩
      simp only [retiredIds, List.map_append, List.map_cons, List.map_nil]

theorem room_iff (h : s.registry.Sound) {library : LibraryView} {id : String}
    (hid : library.id = id) {old : Loaded} {r : Registry}
    (hfind : s.registry.loaded.find? (·.path = servedPath source id) = some old)
    (hr : r = { s.registry with
      loaded := s.registry.loaded.eraseP (·.key = old.key)
      providers := s.registry.providers.filter (·.from ≠ servedPath source id)
      byKey := index Provider.key (s.registry.providers.filter (·.from ≠ servedPath source id)) })
    (hsound : r.Sound) (path canonical : Path) :
    (∃ one, (r.absorb path source canonical (.loaded library)).1 = .loaded one) ↔
      s.Room source library := by
  subst hid
  have hold := List.mem_of_find?_eq_some hfind
  rw [Registry.absorb_loaded_iff hsound, Room, hfind, hr]
  refine and_congr ?_ (and_congr ?_ Iff.rfl)
  · constructor
    · intro hall l hl hkey
      by_contra hne
      refine hall l ((h.mem_eraseP (h.find_key hold)).mpr ⟨hl, fun heq => ?_⟩) hkey
      exact hne (congrArg some heq.symm)
    · intro hall l hl hkey
      obtain ⟨hmem, hne⟩ := (h.mem_eraseP (h.find_key hold)).mp hl
      exact hne (Option.some.inj (hall l hmem hkey)).symm
  · constructor
    · intro hfree v hv p hp hfrom
      exact hfree v hv p (List.mem_filter.mpr ⟨hp, by simpa using hfrom⟩)
    · intro hfree v hv p hp
      obtain ⟨hmem, hfrom⟩ := List.mem_filter.mp hp
      exact hfree v hv p hmem (by simpa using hfrom)

/-- A turn: the build is taken in; or nothing is changed, and it has room where its old one leaves;
or the old one leaves without room for the new. -/
theorem candidate_cases (h : s.registry.Sound) (source : String) (answer : Answer) (c : Candidate) :
    s.Enters source answer c ∧
        (s.candidate source answer c).loadedIds = s.loadedIds ++ [c.id] ∧
        ((s.candidate source answer c).retiredIds = s.retiredIds ∨
          (s.candidate source answer c).retiredIds = s.retiredIds ++ [c.id]) ∨
      ¬ s.Enters source answer c ∧ (s.candidate source answer c).loadedIds = s.loadedIds ∧
        (s.RoomAt source answer c ∧ (s.candidate source answer c).retiredIds = s.retiredIds ∧
            (s.candidate source answer c).registry = s.registry ∨
          ¬ s.RoomAt source answer c ∧
            (s.candidate source answer c).retiredIds = s.retiredIds ++ [c.id]) := by
  by_cases hopens : ∃ library, s.Opens answer c library
  · obtain ⟨library, hopens⟩ := hopens
    have honly : ∀ library', s.Opens answer c library' → library' = library := by
      intro library' hopens'
      have heq := hopens'.2.1.symm.trans hopens.2.1
      cases heq
      rfl
    have hid := hopens.2.2
    rw [candidate_opens hopens]
    have hsound := sound_withdraw (s := { s with tried := s.tried.insert c.id c.stamp }) h source c.id
    have hids : (withdraw { s with tried := s.tried.insert c.id c.stamp } source c.id).loadedIds =
        s.loadedIds := congrArg (List.map Served.id) (withdraw_stamps ..).2.2
    obtain ⟨hretired, habsorb⟩ := absorb_cases
      (withdraw { s with tried := s.tried.insert c.id c.stamp } source c.id) source
      (answer.canonical c.id) c (.loaded library)
    rcases withdraw_cases (s := { s with tried := s.tried.insert c.id c.stamp }) h source c.id with
      ⟨stamp, old, hstamp, hfind, hregistry, hleft⟩ | ⟨hstays, hregistry, hleft⟩
    · have hleaves : s.Leaves source c.id :=
        ⟨⟨stamp, hstamp⟩, old, List.mem_of_find?_eq_some hfind, by simpa using List.find?_some hfind⟩
      have hroom := room_iff (s := { s with tried := s.tried.insert c.id c.stamp }) h hid hfind
        hregistry hsound (servedPath source c.id) (answer.canonical c.id)
      rcases habsorb with ⟨hone, hloaded⟩ | ⟨hnot, hloaded, -⟩
      · exact .inl ⟨⟨library, hopens, .inl ⟨hleaves, hroom.mp hone⟩⟩, by rw [hloaded, hids],
          .inr (hretired.trans hleft)⟩
      · have hnone : ¬ s.Room source library := fun hin => by
          obtain ⟨one, hone⟩ := hroom.mpr hin
          exact hnot one hone
        refine .inr ⟨?_, hloaded.trans hids, .inr ⟨fun hat => ?_, hretired.trans hleft⟩⟩
        · rintro ⟨library', hopens', ⟨-, hin⟩ | ⟨hstays, -⟩⟩
          · exact hnone (honly library' hopens' ▸ hin)
          · exact hstays hleaves
        · exact hnone (hat library hopens hleaves)
    · have hroom := @Registry.absorb_loaded_iff _ source library hsound (servedPath source c.id)
        (answer.canonical c.id)
      rw [hregistry] at hroom habsorb
      rcases habsorb with ⟨hone, hloaded⟩ | ⟨hnot, hloaded, hsame⟩
      · exact .inl ⟨⟨library, hopens, .inr ⟨hstays, hroom.mp hone⟩⟩, by rw [hloaded, hids],
          .inl (hretired.trans hleft)⟩
      · refine .inr ⟨?_, hloaded.trans hids, .inl ⟨fun _ _ hleaves => absurd hleaves hstays,
          hretired.trans hleft, hsame⟩⟩
        rintro ⟨library', hopens', ⟨hleaves, -⟩ | ⟨-, hin⟩⟩
        · exact hstays hleaves
        · obtain ⟨one, hone⟩ := hroom.mpr (honly library' hopens' ▸ hin)
          exact hnot one hone
  · have hnone : ∀ library, ¬ s.Opens answer c library := fun library hlib => hopens ⟨library, hlib⟩
    obtain ⟨hregistry, -, hloaded, hretired⟩ := candidate_passed source hnone
    refine .inr ⟨fun ⟨library, hlib, _⟩ => hnone library hlib, congrArg (List.map Served.id) hloaded,
      .inl ⟨fun library hlib => absurd hlib (hnone library), congrArg (List.map Served.id) hretired,
        hregistry⟩⟩

theorem roomAt_of_enters (h : s.Enters source answer c) : s.RoomAt source answer c := by
  obtain ⟨library, hopens, hroom⟩ := h
  intro library' hopens' hleaves
  have heq := hopens'.2.1.symm.trans hopens.2.1
  cases heq
  exact hroom.elim And.right fun hstays => absurd hleaves hstays.1

theorem candidate_ids (h : s.registry.Sound) (source : String) (answer : Answer) (c : Candidate) :
    ((s.candidate source answer c).loadedIds = s.loadedIds ∨
        (s.candidate source answer c).loadedIds = s.loadedIds ++ [c.id]) ∧
      ((s.candidate source answer c).retiredIds = s.retiredIds ∨
        (s.candidate source answer c).retiredIds = s.retiredIds ++ [c.id]) := by
  rcases candidate_cases h source answer c with ⟨-, hloaded, hretired⟩ |
    ⟨-, hloaded, ⟨-, hretired, -⟩ | ⟨-, hretired⟩⟩
  · exact ⟨.inr hloaded, hretired⟩
  · exact ⟨.inl hloaded, .inl hretired⟩
  · exact ⟨.inl hloaded, .inr hretired⟩

theorem mem_loaded_candidates (h : s.registry.Sound) (source : String) (answer : Answer)
    (rest : List Candidate) (seen : List String) (k : String) :
    k ∈ (s.candidates source answer rest seen).loadedIds ↔ k ∈ s.loadedIds ∨
      ∃ t ∈ s.turns source answer rest seen, t.2.id = k ∧ t.1.Enters source answer t.2 := by
  induction rest generalizing s seen with
  | nil => simp [candidates, turns]
  | cons c rest ih =>
    unfold candidates
    split
    · next hin =>
      rw [turns_seen hin]
      exact ih (s := s.refuse ..) h seen
    · next hin =>
      rw [turns_new hin, ih (sound_candidate h source answer c)]
      rcases candidate_cases h source answer c with ⟨henters, hloaded, -⟩ | ⟨hnot, hloaded, -⟩
      · rw [hloaded]
        simp [henters, or_assoc, eq_comm]
      · rw [hloaded]
        simp [hnot]

/-- The turns left add no id met before to what was loaded, and take none from what was retired. -/
theorem candidates_ids (h : s.registry.Sound) (source : String) (answer : Answer)
    (rest : List Candidate) (seen : List String) :
    (∀ k ∈ seen, k ∈ (s.candidates source answer rest seen).loadedIds → k ∈ s.loadedIds) ∧
      ∀ k ∈ s.retiredIds, k ∈ (s.candidates source answer rest seen).retiredIds := by
  induction rest generalizing s seen with
  | nil => exact ⟨fun _ _ hk => hk, fun _ hk => hk⟩
  | cons c rest ih =>
    unfold candidates
    split
    · exact ih (s := s.refuse ..) h seen
    · next hnot =>
      obtain ⟨hloaded, hretired⟩ := ih (sound_candidate h source answer c) (c.id :: seen)
      obtain ⟨hmore, hmore'⟩ := candidate_ids h source answer c
      refine ⟨fun k hk hin => ?_, fun k hk => hretired k ?_⟩
      · have hold := hloaded k (List.mem_cons_of_mem _ hk) hin
        rcases hmore with hmore | hmore
        · exact hmore ▸ hold
        · rw [hmore, List.mem_append, List.mem_singleton] at hold
          exact hold.resolve_right fun heq => hnot (heq ▸ hk)
      · rcases hmore' with hmore' | hmore'
        · exact hmore' ▸ hk
        · rw [hmore']
          exact List.mem_append_left _ hk

theorem roomAt_of_swapped (h : s.registry.Sound) {rest : List Candidate} {seen : List String}
    (hseen : ∀ k ∈ s.loadedIds, k ∈ seen)
    (hswapped : ∀ c ∈ rest, c.id ∈ (s.candidates source answer rest seen).retiredIds →
      c.id ∈ (s.candidates source answer rest seen).loadedIds) :
    ∀ t ∈ s.turns source answer rest seen, t.1.RoomAt source answer t.2 := by
  induction rest generalizing s seen with
  | nil => nofun
  | cons c rest ih =>
    unfold candidates at hswapped
    split at hswapped
    · next hin =>
      rw [turns_seen hin]
      exact ih (s := s.refuse ..) h hseen fun c hc => hswapped c (List.mem_cons_of_mem _ hc)
    · next hin =>
      rw [turns_new hin]
      have hids := candidates_ids (sound_candidate h source answer c) source answer rest (c.id :: seen)
      refine List.forall_mem_cons.mpr ⟨?_, ih (sound_candidate h source answer c) ?_ fun c hc =>
        hswapped c (List.mem_cons_of_mem _ hc)⟩
      · by_contra hroom
        obtain ⟨-, hloaded, ⟨hat, -⟩ | ⟨-, hretired⟩⟩ := (candidate_cases h source answer c).resolve_left
          fun henters => hroom (roomAt_of_enters henters.1)
        · exact hroom hat
        have hleft : c.id ∈ (s.candidate source answer c).retiredIds := by
          rw [hretired]
          exact List.mem_append_right _ (List.mem_singleton_self _)
        have hcame := hids.1 c.id (List.mem_cons_self ..)
          (hswapped c (List.mem_cons_self ..) (hids.2 c.id hleft))
        rw [hloaded] at hcame
        exact hin (hseen c.id hcame)
      · intro k hk
        rcases (candidate_ids h source answer c).1 with hsame | hmore
        · exact List.mem_cons_of_mem _ (hseen k (hsame ▸ hk))
        · rw [hmore, List.mem_append, List.mem_singleton] at hk
          rcases hk with hk | rfl
          · exact List.mem_cons_of_mem _ (hseen k hk)
          · exact List.mem_cons_self ..

theorem gone_ids (h : s.registry.Sound) (source id : String) :
    (s.gone source id).loadedIds = s.loadedIds ∧
      ((s.gone source id).retiredIds = s.retiredIds ∨
        (s.gone source id).retiredIds = s.retiredIds ++ [id]) := by
  refine ⟨congrArg (List.map Served.id)
    (withdraw_stamps { s with tried := s.tried.remove id } source id).2.2, ?_⟩
  rcases withdraw_cases (s := { s with tried := s.tried.remove id }) h source id with
    ⟨-, -, -, -, -, hleft⟩ | ⟨-, -, hsame⟩
  · exact Or.inr hleft
  · exact Or.inl hsame

end Refreshing

namespace Registry

variable {before r r' : Registry} {path : Path}

/-- What is registered is left of before, and then new. -/
structure Grown (before r : Registry) : Prop where
  split : ∃ left fresh, r.loaded = left ++ fresh ∧ left.Sublist before.loaded ∧
    ∀ l ∈ fresh, before.nextLease ≤ l.lease
  nextLease : before.nextLease ≤ r.nextLease

/-- Every library that was registered at a path still is. -/
def HasAll (before : Registry) (path : Path) (r : Registry) : Prop :=
  ∀ l ∈ before.loaded, l.path = path → l ∈ r.loaded

theorem grown_refl (r : Registry) : r.Grown r :=
  ⟨⟨r.loaded, [], (List.append_nil _).symm, List.Sublist.refl _, nofun⟩, le_refl _⟩

theorem Grown.shrink (h : before.Grown r) (hsub : r'.loaded.Sublist r.loaded)
    (hlease : r'.nextLease = r.nextLease) : before.Grown r' := by
  obtain ⟨⟨left, fresh, hsplit, hleft, hfresh⟩, hnext⟩ := h
  rw [hsplit, List.sublist_append_iff] at hsub
  obtain ⟨left', fresh', hsplit', hleft', hfresh'⟩ := hsub
  exact ⟨⟨left', fresh', hsplit', hleft'.trans hleft, fun l hl => hfresh l (hfresh'.subset hl)⟩,
    hlease ▸ hnext⟩

theorem Grown.absorb (h : before.Grown r) (hbefore : before.Sound) (hr : r.Sound) (path : Path)
    (source : String) (canonical : Path) (opened : Opened) :
    before.Grown (r.absorb path source canonical opened).2 ∧
      ∀ l ∈ before.loaded, l ∈ (r.absorb path source canonical opened).2.loaded → l ∈ r.loaded := by
  cases houtcome : (r.absorb path source canonical opened).1 with
  | loaded one =>
    obtain ⟨library, taken, -, -, -, hone, hr'⟩ := absorb_loaded hr.byKey
      (show r.absorb path source canonical opened = (.loaded one, _) by rw [← houtcome])
    obtain ⟨⟨left, fresh, hsplit, hleft, hfresh⟩, hnext⟩ := h
    have hlease : one.lease = r.nextLease := by rw [hone]
    rw [hr']
    refine ⟨⟨⟨left, fresh ++ [one], by rw [hsplit, List.append_assoc], hleft, fun l hl => ?_⟩,
      Nat.le_succ_of_le hnext⟩, fun l hl hin => ?_⟩
    · rcases List.mem_append.mp hl with hl | hl
      · exact hfresh l hl
      · rw [List.mem_singleton.mp hl, hlease]
        exact hnext
    · refine (List.mem_append.mp hin).resolve_right fun heq => ?_
      have hlt := hbefore.below l hl
      rw [List.mem_singleton.mp heq, hlease] at hlt
      omega
  | skipped why | error e =>
    rw [absorb_refused (by rw [houtcome]; exact nofun)]
    exact ⟨h, fun _ _ hin => hin⟩

/-- The library found first at a path was registered before, where any there was and all are left. -/
theorem Grown.find_mem (h : before.Grown r) (hbefore : before.Sound) (hall : before.HasAll path r)
    (hthere : ∃ l ∈ before.loaded, l.path = path) {old : Loaded}
    (hfind : r.loaded.find? (·.path = path) = some old) : old ∈ before.loaded := by
  obtain ⟨⟨left, fresh, hsplit, hleft, hfresh⟩, -⟩ := h
  obtain ⟨l, hl, hpath⟩ := hthere
  have hin := hall l hl hpath
  rw [hsplit] at hin hfind
  have hl' : l ∈ left := (List.mem_append.mp hin).resolve_right fun hnew =>
    absurd (hbefore.below l hl) (not_lt.mpr (hfresh l hnew))
  rw [List.find?_append] at hfind
  cases hfirst : left.find? (·.path = path) with
  | none => exact absurd hpath (by simpa using List.find?_eq_none.mp hfirst l hl')
  | some first =>
    rw [hfirst, Option.some_or] at hfind
    cases hfind
    exact hleft.subset (List.mem_of_find?_eq_some hfirst)

/-- Whatever is registered at a path, in one, is in the other. -/
structure Retains (path : Path) (r r' : Registry) : Prop where
  loaded : r.HasAll path r'
  providers : ∀ p ∈ r.providers, p.from = path → p ∈ r'.providers

theorem retains_refl (path : Path) (r : Registry) : r.Retains path r :=
  ⟨fun _ hl _ => hl, fun _ hp _ => hp⟩

theorem Retains.trans {r'' : Registry} (h : r.Retains path r') (h' : r'.Retains path r'') :
    r.Retains path r'' :=
  ⟨fun l hl hpath => h'.loaded l (h.loaded l hl hpath) hpath,
    fun p hp hfrom => h'.providers p (h.providers p hp hfrom) hfrom⟩

theorem retains_absorb (h : r.Sound) (file : Path) (source : String) (canonical : Path)
    (opened : Opened) : r.Retains path (r.absorb file source canonical opened).2 := by
  cases houtcome : (r.absorb file source canonical opened).1 with
  | loaded one =>
    obtain ⟨library, taken, -, -, -, -, hr'⟩ := absorb_loaded h.byKey
      (show r.absorb file source canonical opened = (.loaded one, _) by rw [← houtcome])
    rw [hr']
    exact ⟨fun _ hl _ => List.mem_append_left _ hl, fun _ hp _ => List.mem_append_left _ hp⟩
  | skipped why | error e =>
    rw [absorb_refused (by rw [houtcome]; exact nofun)]
    exact retains_refl path r

end Registry

namespace Refreshing

variable {s : Refreshing} {source id : String} {answer : Answer} {c : Candidate} {before : Registry}
  {path : Path}

theorem retains_withdraw (h : s.registry.Sound)
    (hout : ∀ stamp, s.serving.get id = some stamp → servedPath source id ≠ path) :
    s.registry.Retains path (s.withdraw source id).registry := by
  rcases withdraw_cases h source id with ⟨stamp, old, hstamp, hfind, hregistry, -⟩ | ⟨-, hsame, -⟩
  · have hold : old.path = servedPath source id := by simpa using List.find?_some hfind
    have hkey := h.find_key (List.mem_of_find?_eq_some hfind)
    rw [hregistry]
    refine ⟨fun l hl hpath => (h.mem_eraseP hkey).mpr ⟨hl, fun heq => ?_⟩, fun p hp hfrom => ?_⟩
    · exact hout stamp hstamp (hold.symm.trans (heq ▸ hpath))
    · exact List.mem_filter.mpr ⟨hp, by simpa [hfrom] using (hout stamp hstamp).symm⟩
  · rw [hsame]
    exact Registry.retains_refl path _

theorem retains_candidate (h : s.registry.Sound) (source : String)
    (hout : ∀ library, s.Opens answer c library → ∀ stamp, s.serving.get c.id = some stamp →
      servedPath source c.id ≠ path) :
    s.registry.Retains path (s.candidate source answer c).registry := by
  by_cases hopens : ∃ library, s.Opens answer c library
  · obtain ⟨library, hopens⟩ := hopens
    rw [candidate_opens hopens, absorb_registry]
    refine (retains_withdraw (s := { s with tried := s.tried.insert c.id c.stamp }) h
      (hout library hopens)).trans ?_
    exact Registry.retains_absorb
      (sound_withdraw (s := { s with tried := s.tried.insert c.id c.stamp }) h source c.id) ..
  · rw [(candidate_passed source fun library hlib => hopens ⟨library, hlib⟩).1]
    exact Registry.retains_refl path _

theorem grown_withdraw (hg : before.Grown s.registry) (hbefore : before.Sound)
    (h : s.registry.Sound) (source id : String) :
    before.Grown (s.withdraw source id).registry ∧
      (before.HasAll path (s.withdraw source id).registry → before.HasAll path s.registry ∧
        (servedPath source id = path → (∃ l ∈ before.loaded, l.path = path) →
          ∀ stamp, s.serving.get id ≠ some stamp)) := by
  rcases withdraw_cases h source id with ⟨-, old, -, hfind, hregistry, -⟩ | ⟨hstays, hsame, -⟩
  · have hkey := h.find_key (List.mem_of_find?_eq_some hfind)
    rw [hregistry]
    refine ⟨hg.shrink List.eraseP_sublist rfl, fun hall => ?_⟩
    have hback : before.HasAll path s.registry := fun l hl hpath =>
      List.mem_of_mem_eraseP (hall l hl hpath)
    refine ⟨hback, fun heq hthere => ?_⟩
    subst heq
    have hold := hg.find_mem hbefore hback hthere hfind
    have hpath : old.path = servedPath source id := by simpa using List.find?_some hfind
    exact absurd rfl ((h.mem_eraseP hkey).mp (hall old hold hpath)).2
  · rw [hsame]
    refine ⟨hg, fun hall => ⟨hall, fun heq hthere stamp hstamp => hstays ⟨⟨stamp, hstamp⟩, ?_⟩⟩⟩
    obtain ⟨l, hl, hpath⟩ := hthere
    exact ⟨l, hall l hl hpath, hpath.trans heq.symm⟩

/-- A turn leaves all that was at a path only where its id is not both served there and opened. -/
theorem grown_candidate (hg : before.Grown s.registry) (hbefore : before.Sound)
    (h : s.registry.Sound) (source : String) (answer : Answer) (c : Candidate) :
    before.Grown (s.candidate source answer c).registry ∧
      (before.HasAll path (s.candidate source answer c).registry →
        before.HasAll path s.registry ∧
          (servedPath source c.id = path → (∃ l ∈ before.loaded, l.path = path) →
            ∀ library, s.Opens answer c library → ∀ stamp, s.serving.get c.id ≠ some stamp)) := by
  by_cases hopens : ∃ library, s.Opens answer c library
  · obtain ⟨library, hopens⟩ := hopens
    rw [candidate_opens hopens, absorb_registry]
    obtain ⟨hgrown, hleft⟩ := grown_withdraw (s := { s with tried := s.tried.insert c.id c.stamp })
      hg hbefore h source c.id
    obtain ⟨hdone, hback⟩ := hgrown.absorb hbefore
      (sound_withdraw (s := { s with tried := s.tried.insert c.id c.stamp }) h source c.id)
      (servedPath source c.id) source (answer.canonical c.id) (.loaded library)
    refine ⟨hdone, fun hall => ?_⟩
    obtain ⟨hall', hnot⟩ := hleft fun l hl hpath => hback l hl (hall l hl hpath)
    exact ⟨hall', fun heq hthere _ _ => hnot heq hthere⟩
  · rw [(candidate_passed source fun library hlib => hopens ⟨library, hlib⟩).1]
    exact ⟨hg, fun hall => ⟨hall, fun _ _ library hlib => absurd ⟨library, hlib⟩ hopens⟩⟩

theorem allGone_loaded {began : Refreshing} (h : began.registry.Sound) (hnone : began.loadedIds = [])
    (source : String) (listed : List Candidate) :
    ((began.goneIds listed).foldl (·.gone source ·) began).registry.Sound ∧
      ((began.goneIds listed).foldl (·.gone source ·) began).loadedIds = [] :=
  (gone_rule (fun s => s.registry.Sound ∧ s.loadedIds = []) began source
    (began.tried.nodup_keys.filter _)
    (fun _ id _ _ hs => ⟨sound_gone hs.1 source id, (gone_ids hs.1 source id).1.trans hs.2⟩)
    ⟨h, hnone⟩).1

theorem mem_loaded_follow {began : Refreshing} (h : began.registry.Sound) (hnone : began.loadedIds = [])
    (source : String) (answer : Answer) (listed : List Candidate) (k : String) :
    k ∈ (began.follow source answer listed).loadedIds ↔
      ∃ t ∈ began.followTurns source answer listed, t.2.id = k ∧ t.1.Enters source answer t.2 := by
  obtain ⟨hsound, hids⟩ := allGone_loaded h hnone source listed
  rw [follow, mem_loaded_candidates hsound, hids, followTurns]
  simp

end Refreshing

namespace Sources

open Refreshing

variable {s : Sources} {at_ : ℕ} {st : SourceState} {answer : Answer} {listed : List Candidate}
  {wrong : List String}

/-- Whatever is registered where a build listed and not taken in is filed is still registered and
found; an id is retired, of those listed, only where it is loaded. -/
structure KeepsOld (s : Sources) (st : SourceState) (listed : List Candidate)
    (out : Refreshed × Sources) : Prop where
  kept : ∀ c ∈ listed, c.id ∉ out.1.loaded.map Served.id → ∀ l ∈ s.registry.loaded,
    l.path = servedPath st.name c.id → l ∈ out.2.registry.loaded ∧
      ∀ p ∈ s.registry.providers, p.hold = l.lease → out.2.registry.provider p.key = some p
  swapped : ∀ c ∈ listed, c.id ∈ out.1.retired.map Served.id → c.id ∈ out.1.loaded.map Served.id

/-- The turns of a refresh once its source has listed. -/
def turns (s : Sources) (st : SourceState) (answer : Answer) (listed : List Candidate)
    (wrong : List String) : List (Refreshing × Candidate) :=
  (s.refreshing st (wrong ++ answer.wrongNotes)).followTurns st.name answer listed

/-- Every changed build that opens where an old one is registered has room at its turn. -/
def Rooms (s : Sources) (st : SourceState) (answer : Answer) (listed : List Candidate)
    (wrong : List String) : Prop :=
  ∀ t ∈ s.turns st answer listed wrong, t.1.RoomAt st.name answer t.2

/-- Where an id leaves at the path of another one listed, and something is registered there, that one
is taken in. -/
def Spares (s : Sources) (st : SourceState) (answer : Answer) (listed : List Candidate)
    (wrong : List String) : Prop :=
  ∀ c ∈ listed, (∃ l ∈ s.registry.loaded, l.path = servedPath st.name c.id) →
    ∀ id, id ≠ c.id → servedPath st.name id = servedPath st.name c.id →
      st.Retires answer listed id →
      ∃ t ∈ s.turns st answer listed wrong, t.2.id = c.id ∧ t.1.Enters st.name answer t.2

/-- With room at every turn, what is registered at the path of an id not taken in is kept where no
other id leaves there. -/
theorem retains_follow (began : Refreshing) (hsound : began.registry.Sound)
    (hserving : began.serving = st.serving) (htried : began.tried = st.tried) {c : Candidate}
    (hc : c ∈ listed)
    (hrooms : ∀ t ∈ began.followTurns st.name answer listed, t.1.RoomAt st.name answer t.2)
    (hnone : ∀ t ∈ began.followTurns st.name answer listed, t.2.id = c.id →
      ¬ t.1.Enters st.name answer t.2)
    (halone : ∀ id, id ≠ c.id → servedPath st.name id = servedPath st.name c.id →
      ¬ st.Retires answer listed id) :
    began.registry.Retains (servedPath st.name c.id)
      (began.follow st.name answer listed).registry := by
  refine (follow_rule (fun s => s.registry.Sound ∧
      began.registry.Retains (servedPath st.name c.id) s.registry) (fun _ _ _ hs => hs) ?_ ?_
    ⟨hsound, Registry.retains_refl _ _⟩).2
  · rintro s id stamp hstamp hnot ⟨hagree, -⟩ ⟨hs, hkept⟩
    refine ⟨sound_gone hs st.name id, hkept.trans ?_⟩
    refine retains_withdraw (s := { s with tried := s.tried.remove id }) hs fun old hold heq => ?_
    have hne : id ≠ c.id := fun heq => hnot (heq ▸ List.mem_map_of_mem hc)
    rw [hserving] at hagree
    exact halone id hne heq ⟨⟨old, hagree ▸ hold⟩, .inl ⟨⟨stamp, htried ▸ hstamp⟩, hnot⟩⟩
  · rintro s c' hturn hfind ⟨hagree, hagree'⟩ ⟨hs, hkept⟩
    refine ⟨sound_candidate hs st.name answer c', hkept.trans ?_⟩
    by_cases hid : c'.id = c.id
    · obtain ⟨-, -, ⟨-, -, hsame⟩ | ⟨hroom, -⟩⟩ := (candidate_cases hs st.name answer c').resolve_left
        fun henters => hnone _ hturn hid henters.1
      · rw [hsame]
        exact Registry.retains_refl _ _
      · exact absurd (hrooms _ hturn) hroom
    · refine retains_candidate hs st.name ?_
      rintro library ⟨hnew, hopen, hown⟩ old hold heq
      rw [hserving] at hagree
      rw [hagree', htried] at hnew
      exact halone c'.id hid heq
        ⟨⟨old, hagree ▸ hold⟩, .inr ⟨c', library, hfind, hnew, hopen, hown⟩⟩

/-- Where all that was registered at a path is left, no id has left there. -/
theorem stays_of_hasAll (began : Refreshing) (hsound : began.registry.Sound)
    (hserving : began.serving = st.serving) (htried : began.tried = st.tried) {path : Path}
    (hthere : ∃ l ∈ began.registry.loaded, l.path = path)
    (hall : began.registry.HasAll path (began.follow st.name answer listed).registry) {id : String}
    (hpath : servedPath st.name id = path) : ¬ st.Retires answer listed id := by
  intro hretires
  -- As long as all is left, the id has not had its turn: its stamps are what they were.
  suffices hfollow : (began.follow st.name answer listed).registry.Sound ∧
      began.registry.Grown (began.follow st.name answer listed).registry ∧
      (began.registry.HasAll path (began.follow st.name answer listed).registry →
        (began.follow st.name answer listed).Agree began id) by
    have htried' := (hfollow.2.2 hall).2
    rw [tried_follow, htried] at htried'
    rcases hretires.2 with ⟨⟨stamp, hstamp⟩, hnot⟩ | ⟨c, -, hfind, hnew, -⟩
    · have hnone : listed.find? (·.id = id) = none := by
        simpa [List.find?_eq_none] using hnot
      rw [hnone, hstamp] at htried'
      cases htried'
    · rw [hfind] at htried'
      exact hnew htried'.symm
  refine follow_rule (fun s => s.registry.Sound ∧ began.registry.Grown s.registry ∧
      (began.registry.HasAll path s.registry → s.Agree began id)) (fun _ _ _ hs => hs) ?_ ?_
    ⟨hsound, Registry.grown_refl _, fun _ => ⟨rfl, rfl⟩⟩
  · rintro s k stamp - - ⟨hagree, -⟩ ⟨hs, hgrown, hstays⟩
    obtain ⟨hgrown', hleft⟩ := grown_withdraw (s := { s with tried := s.tried.remove k }) hgrown
      hsound hs st.name k
    refine ⟨sound_gone hs st.name k, hgrown', fun hall => ?_⟩
    obtain ⟨hall', hnot⟩ := hleft hall
    by_cases hk : id = k
    · obtain ⟨⟨old, hold⟩, -⟩ := hretires
      rw [← hserving, hk, ← hagree] at hold
      exact absurd hold (hnot (hk ▸ hpath) hthere old)
    · obtain ⟨hserving', htried'⟩ := gone_stamps s st.name k hk
      exact ⟨hserving'.trans (hstays hall').1, htried'.trans (hstays hall').2⟩
  · rintro s c - hfind ⟨hagree, hagree'⟩ ⟨hs, hgrown, hstays⟩
    obtain ⟨hgrown', hleft⟩ := grown_candidate hgrown hsound hs st.name answer c
    refine ⟨sound_candidate hs st.name answer c, hgrown', fun hall => ?_⟩
    obtain ⟨hall', hnot⟩ := hleft hall
    by_cases hk : id = c.id
    · subst hk
      obtain ⟨⟨old, hold⟩, ⟨-, hout⟩ | ⟨c', library, hfind', hnew, hopen, hown⟩⟩ := hretires
      · exact absurd (List.mem_map_of_mem (List.mem_of_find?_eq_some hfind)) hout
      · rw [hfind] at hfind'
        cases hfind'
        rw [← hserving, ← hagree] at hold
        rw [← htried, ← hagree'] at hnew
        exact absurd hold (hnot hpath hthere library ⟨hnew, hopen, hown⟩ old)
    · obtain ⟨hserving', htried'⟩ := candidate_stamps s st.name answer c hk
      exact ⟨hserving'.trans (hstays hall').1, htried'.trans (hstays hall').2⟩

theorem swapped_follow (began : Refreshing) (hsound : began.registry.Sound)
    (hnone : began.retiredIds = [])
    (hrooms : ∀ t ∈ began.followTurns st.name answer listed, t.1.RoomAt st.name answer t.2)
    {c : Candidate} (hc : c ∈ listed)
    (hretired : c.id ∈ (began.follow st.name answer listed).retiredIds) :
    c.id ∈ (began.follow st.name answer listed).loadedIds := by
  refine (follow_rule (fun s => s.registry.Sound ∧ (c.id ∈ s.retiredIds → c.id ∈ s.loadedIds))
    (fun _ _ _ hs => hs) ?_ ?_ ⟨hsound, ?_⟩).2 hretired
  · rintro s id stamp - hnot - ⟨hs, hswapped⟩
    refine ⟨sound_gone hs st.name id, fun hin => ?_⟩
    obtain ⟨hloaded, hretired⟩ := gone_ids hs st.name id
    rw [hloaded]
    refine hswapped ?_
    rcases hretired with hsame | hmore
    · exact hsame ▸ hin
    · rw [hmore, List.mem_append, List.mem_singleton] at hin
      refine hin.resolve_right fun heq => hnot ?_
      rw [← heq]
      exact List.mem_map_of_mem hc
  · rintro s c' hturn - - ⟨hs, hswapped⟩
    refine ⟨sound_candidate hs st.name answer c', fun hin => ?_⟩
    rcases candidate_cases hs st.name answer c' with ⟨-, hloaded, hretired⟩ |
      ⟨-, hloaded, ⟨-, hretired, -⟩ | ⟨hroom, -⟩⟩
    · rw [hloaded, List.mem_append, List.mem_singleton]
      rcases hretired with hsame | hmore
      · exact Or.inl (hswapped (hsame ▸ hin))
      · rw [hmore, List.mem_append, List.mem_singleton] at hin
        exact hin.imp_left hswapped
    · rw [hloaded]
      exact hswapped (hretired ▸ hin)
    · exact absurd (hrooms _ hturn) hroom
  · rw [hnone]
    nofun

theorem refreshSource_listed (hst : s.sources[at_]? = some st) (hlist : answer.list = .ok (listed, wrong)) :
    (s.refreshSource at_ answer).1 =
        ((s.refreshing st (wrong ++ answer.wrongNotes)).follow st.name answer listed).report ∧
      (s.refreshSource at_ answer).2.registry =
        ((s.refreshing st (wrong ++ answer.wrongNotes)).follow st.name answer listed).registry := by
  simp only [refreshSource, hst, hlist, and_self]

theorem rooms_of_swapped (hsound : s.registry.Sound)
    (hswapped : ∀ c ∈ listed,
      c.id ∈ ((s.refreshing st (wrong ++ answer.wrongNotes)).follow st.name answer listed).retiredIds →
        c.id ∈ ((s.refreshing st (wrong ++ answer.wrongNotes)).follow st.name answer listed).loadedIds) :
    s.Rooms st answer listed wrong := by
  obtain ⟨hleft, hnone⟩ := @allGone_loaded (s.refreshing st (wrong ++ answer.wrongNotes)) hsound rfl
    st.name listed
  refine roomAt_of_swapped hleft (fun k hk => ?_) hswapped
  rw [hnone] at hk
  exact hk

/-- In every state a host comes to, a refresh keeps the old build of every changed one not taken in,
exactly where every turn has room, and nothing leaves at the path of such a build. -/
theorem refresh_keepsOld {acts : List Act} (hrun : run step new acts = some s)
    (hst : s.sources[at_]? = some st) (hlist : answer.list = .ok (listed, wrong)) :
    s.KeepsOld st listed (s.refreshSource at_ answer) ↔
      s.Rooms st answer listed wrong ∧ s.Spares st answer listed wrong := by
  have hsound := sound_step.run Registry.sound_new hrun
  have hdone := sound_refreshSource hsound at_ answer
  obtain ⟨hreport, hregistry⟩ := refreshSource_listed hst hlist
  have hloaded := @mem_loaded_follow (s.refreshing st (wrong ++ answer.wrongNotes)) hsound rfl st.name
    answer listed
  constructor
  · intro hkeeps
    refine ⟨rooms_of_swapped hsound fun c hc hretired => ?_, fun c hc hthere id hne hpath hretires => ?_⟩
    · have hin := hkeeps.swapped c hc
      rw [hreport] at hin
      exact hin hretired
    · by_contra hnone
      refine stays_of_hasAll (s.refreshing st (wrong ++ answer.wrongNotes)) hsound rfl rfl hthere
        (fun l hl hfiled => ?_) hpath hretires
      rw [← hregistry]
      refine (hkeeps.kept c hc (fun hin => hnone ?_) l hl hfiled).1
      rw [hreport] at hin
      exact (hloaded c.id).mp hin
  · rintro ⟨hrooms, hspares⟩
    refine ⟨fun c hc hnot l hl hpath => ?_, fun c hc hretired => ?_⟩
    · rw [hreport] at hnot
      have hnone : ¬ ∃ t ∈ s.turns st answer listed wrong, t.2.id = c.id ∧
          t.1.Enters st.name answer t.2 := fun henters => hnot ((hloaded c.id).mpr henters)
      have hkept := retains_follow (s.refreshing st (wrong ++ answer.wrongNotes)) hsound rfl rfl hc
        hrooms (fun t ht hid henters => hnone ⟨t, ht, hid, henters⟩)
        fun id hne heq hretires => hnone (hspares c hc ⟨l, hl, hpath⟩ id hne heq hretires)
      rw [← hregistry] at hkept
      refine ⟨hkept.loaded l hl hpath, fun p hp hhold => hdone.provider_iff.mpr ⟨?_, rfl⟩⟩
      exact hkept.providers p hp ((hsound.from_eq hl hp hhold).trans hpath)
    · rw [hreport] at hretired ⊢
      exact swapped_follow (s.refreshing st (wrong ++ answer.wrongNotes)) hsound rfl hrooms hc hretired

/-- A source that lists one build of one library. -/
def builds (id version : String) : Answer where
  list := .ok ([⟨id, version⟩], [])
  wrongNotes := []
  «open» id version := .opened (.loaded ⟨id, version, [⟨id ++ "-p", "", none⟩]⟩)
  canonical id := .ofText id

/-- A new build of the library a source serves is listed, and has room. -/
theorem refresh_keepsOld_swap : ∃ s st,
    run step new [.addSource "a", .refreshSource 0 (builds "x" "1")] = some s ∧
    s.KeepsOld st [⟨"x", "2"⟩] (s.refreshSource 0 (builds "x" "2")) := by
  obtain ⟨s, hrun⟩ : ∃ s, run step new [.addSource "a", .refreshSource 0 (builds "x" "1")] = some s :=
    ⟨_, rfl⟩
  obtain ⟨st, hst⟩ : ∃ st, s.sources[0]? = some st := by
    cases hrun
    exact ⟨_, rfl⟩
  have hserving : st.serving.entries = [("x", "1")] := by
    cases hrun
    cases hst
    decide +kernel
  have hspares : s.Spares st (builds "x" "2") [⟨"x", "2"⟩] [] := by
    rintro c hc - id hne - ⟨⟨stamp, hstamp⟩, -⟩
    rw [← SortedMap.mem_entries_iff, hserving, List.mem_singleton, Prod.mk.injEq] at hstamp
    rw [List.mem_singleton.mp hc] at hne
    exact absurd hstamp.1 hne
  have hrooms : s.Rooms st (builds "x" "2") [⟨"x", "2"⟩] [] := by
    cases hrun
    cases hst
    unfold Rooms
    decide +kernel
  exact ⟨s, st, hrun, (refresh_keepsOld hrun hst rfl).mpr ⟨hrooms, hspares⟩⟩

/-- Libraries are keyed by id and version. The host has the second build of `x` from a file when
the source `a` comes to serve it: the first one is retired, the second refused as loaded already. -/
theorem refresh_loses_old : ∃ s st,
    run step new [.host (.librariesKeyedBy [.field .id, .text "@", .field .version]), .addSource "a",
      .refreshSource 0 (builds "x" "1"),
      .host (.load (.ofText "x.so") "" (.ofText "/x.so") (.ofText "/x.so")
        (.ok (.loaded ⟨"x", "2", [⟨"x-p", "", none⟩]⟩)))] = some s ∧
    s.sources[0]? = some st ∧
    ¬ s.KeepsOld st [⟨"x", "2"⟩] (s.refreshSource 0 (builds "x" "2")) := by
  obtain ⟨s, hrun⟩ : ∃ s, run step new
      [.host (.librariesKeyedBy [.field .id, .text "@", .field .version]), .addSource "a",
        .refreshSource 0 (builds "x" "1"),
        .host (.load (.ofText "x.so") "" (.ofText "/x.so") (.ofText "/x.so")
          (.ok (.loaded ⟨"x", "2", [⟨"x-p", "", none⟩]⟩)))] = some s := ⟨_, rfl⟩
  obtain ⟨st, hst⟩ : ∃ st, s.sources[0]? = some st := by
    cases hrun
    exact ⟨_, rfl⟩
  have hlost : ∃ l ∈ s.registry.loaded, l.path = servedPath st.name "x" ∧
      "x" ∉ (s.refreshSource 0 (builds "x" "2")).1.loaded.map Served.id ∧
      l ∉ (s.refreshSource 0 (builds "x" "2")).2.registry.loaded := by
    cases hrun
    cases hst
    decide +kernel
  refine ⟨s, st, hrun, hst, fun h => ?_⟩
  obtain ⟨l, hl, hpath, hnot, hgone⟩ := hlost
  exact hgone (h.kept ⟨"x", "2"⟩ (List.mem_singleton_self _) hnot l hl hpath).1

end Sources

end Guatiao.Library
