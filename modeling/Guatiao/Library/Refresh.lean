import Guatiao.Library.Retire
import Guatiao.Library.Source

/-!
# What a refresh of one source does

A refresh is a turn for each id listed no more and one for each candidate. What every turn
keeps, the refresh keeps; at its turn, an id has the stamps it had when the refresh began.
-/

namespace Guatiao.Library

open Lib

namespace Registry

theorem Sound.find_key {r : Registry} (h : Sound r) {l : Loaded} (hl : l ∈ r.loaded) :
    r.loaded.find? (·.key = l.key) = some l := by
  cases hfind : r.loaded.find? (·.key = l.key) with
  | none => exact absurd (List.find?_eq_none.mp hfind l hl) (by simp)
  | some l' =>
    have hkey : l'.key = l.key := by simpa using List.find?_some hfind
    rw [List.inj_on_of_nodup_map h.libraryKeys (List.mem_of_find?_eq_some hfind) hl hkey]

/-- What is recorded where `W` holds, of the path and the source, is recorded in both. -/
structure Keeps (W : Path → String → Prop) (r r' : Registry) : Prop where
  loaded : ∀ l : Loaded, W l.path l.source → (l ∈ r'.loaded ↔ l ∈ r.loaded)
  providers : ∀ p : Provider, W p.from p.source → (p ∈ r'.providers ↔ p ∈ r.providers)

variable {W : Path → String → Prop} {r r' r'' : Registry}

theorem Keeps.refl (W : Path → String → Prop) (r : Registry) : Keeps W r r :=
  ⟨fun _ _ => Iff.rfl, fun _ _ => Iff.rfl⟩

theorem Keeps.trans (h : Keeps W r r') (h' : Keeps W r' r'') : Keeps W r r'' :=
  ⟨fun l hl => (h'.loaded l hl).trans (h.loaded l hl),
    fun p hp => (h'.providers p hp).trans (h.providers p hp)⟩

theorem keeps_absorb (h : Sound r) {path : Path} {source : String} (canonical : Path)
    (opened : Opened) (hout : ¬ W path source) :
    Keeps W r (r.absorb path source canonical opened).2 := by
  cases houtcome : (r.absorb path source canonical opened).1 with
  | loaded one =>
    obtain ⟨library, taken, -, -, -, hone, hr'⟩ := absorb_loaded h.byKey
      (show r.absorb path source canonical opened = (.loaded one, _) by rw [← houtcome])
    rw [hr']
    constructor
    · intro l hl
      rw [List.mem_append, List.mem_singleton]
      refine ⟨fun hin => hin.resolve_right fun heq => ?_, Or.inl⟩
      rw [heq, hone] at hl
      exact hout hl
    · intro p hp
      rw [List.mem_append]
      refine ⟨fun hin => hin.resolve_right fun hmem => ?_, Or.inl⟩
      obtain ⟨t, -, rfl⟩ := List.mem_map.mp hmem
      exact hout hp
  | skipped why =>
    rw [absorb_refused (by rw [houtcome]; exact nofun)]
    exact .refl W r
  | error e =>
    rw [absorb_refused (by rw [houtcome]; exact nofun)]
    exact .refl W r

end Registry

namespace Refreshing

variable {s : Refreshing} {source id : String} {path : Path}

theorem retireAt_found (h : s.registry.Sound) {l : Loaded} (stamp : String)
    (hfind : s.registry.loaded.find? (·.path = path) = some l) :
    s.retireAt path source id stamp = { s with
      registry := { s.registry with
        loaded := s.registry.loaded.eraseP (·.key = l.key)
        providers := s.registry.providers.filter (·.from ≠ path)
        byKey := index Provider.key (s.registry.providers.filter (·.from ≠ path)) }
      report := { s.report with retired := s.report.retired ++ [⟨source, id, stamp, l.key⟩] } } := by
  have hpath : l.path = path := by simpa using List.find?_some hfind
  simp only [retireAt, hfind,
    Registry.takeLibrary_found (h.find_key (List.mem_of_find?_eq_some hfind)), hpath]

theorem retireAt_none (stamp : String) (hfind : s.registry.loaded.find? (·.path = path) = none) :
    s.retireAt path source id stamp = s := by
  simp only [retireAt, hfind]

theorem retireAt_stamps (s : Refreshing) (path : Path) (source id stamp : String) :
    (s.retireAt path source id stamp).serving = s.serving ∧
      (s.retireAt path source id stamp).tried = s.tried ∧
      (s.retireAt path source id stamp).report.loaded = s.report.loaded := by
  unfold retireAt
  split
  · exact ⟨rfl, rfl, rfl⟩
  · split <;> exact ⟨rfl, rfl, rfl⟩

theorem withdraw_stamps (s : Refreshing) (source id : String) :
    (∀ k, k ≠ id → (s.withdraw source id).serving.get k = s.serving.get k) ∧
      (s.withdraw source id).tried = s.tried ∧
      (s.withdraw source id).report.loaded = s.report.loaded := by
  unfold withdraw
  split
  · exact ⟨fun _ _ => rfl, rfl, rfl⟩
  · obtain ⟨hserving, htried, hloaded⟩ := retireAt_stamps
      { s with serving := s.serving.remove id } (servedPath source id) source id ‹_›
    refine ⟨fun k hk => ?_, htried, hloaded⟩
    rw [hserving]
    exact SortedMap.get_remove_of_ne hk s.serving

theorem absorb_stamps (s : Refreshing) (source : String) (canonical : Path) (c : Candidate)
    (opened : Opened) : (∀ k, k ≠ c.id →
        (s.absorb source canonical c opened).serving.get k = s.serving.get k) ∧
      (s.absorb source canonical c opened).tried = s.tried := by
  unfold absorb
  split
  · exact ⟨fun k hk => SortedMap.get_insert_of_ne hk _ s.serving, rfl⟩
  · exact ⟨fun _ _ => rfl, rfl⟩
  · exact ⟨fun _ _ => rfl, rfl⟩

theorem candidate_stamps (s : Refreshing) (source : String) (answer : Answer) (c : Candidate) {k : String}
    (hk : k ≠ c.id) : (s.candidate source answer c).serving.get k = s.serving.get k ∧
      (s.candidate source answer c).tried.get k = s.tried.get k := by
  have htried : (s.tried.insert c.id c.stamp).get k = s.tried.get k :=
    SortedMap.get_insert_of_ne hk _ s.tried
  simp only [candidate]
  split
  · exact ⟨rfl, rfl⟩
  · split
    · exact ⟨rfl, htried⟩
    · split
      · exact ⟨rfl, htried⟩
      · next library _ _ =>
        obtain ⟨hserving, htried', -⟩ := withdraw_stamps
          { s with tried := s.tried.insert c.id c.stamp } source c.id
        obtain ⟨hserving', htried''⟩ := absorb_stamps
          (withdraw { s with tried := s.tried.insert c.id c.stamp } source c.id) source
          (answer.canonical c.id) c (.loaded library)
        rw [hserving' k hk, hserving k hk, htried'', htried']
        exact ⟨rfl, htried⟩
    · next opened _ _ =>
      obtain ⟨hserving, htried'⟩ := absorb_stamps { s with tried := s.tried.insert c.id c.stamp }
        source (answer.canonical c.id) c opened
      rw [hserving k hk, htried']
      exact ⟨rfl, htried⟩

theorem gone_stamps (s : Refreshing) (source id : String) {k : String} (hk : k ≠ id) :
    (s.gone source id).serving.get k = s.serving.get k ∧
      (s.gone source id).tried.get k = s.tried.get k := by
  obtain ⟨hserving, htried, -⟩ := withdraw_stamps { s with tried := s.tried.remove id } source id
  unfold gone
  rw [hserving k hk, htried]
  exact ⟨rfl, SortedMap.get_remove_of_ne hk s.tried⟩

theorem sound_retireAt (h : s.registry.Sound) (path : Path) (source id stamp : String) :
    (s.retireAt path source id stamp).registry.Sound := by
  unfold retireAt
  split
  · exact h
  · split
    · exact h
    · next htake => exact Registry.sound_takeLibrary h htake

theorem sound_withdraw (h : s.registry.Sound) (source id : String) :
    (s.withdraw source id).registry.Sound := by
  unfold withdraw
  split
  · exact h
  · exact sound_retireAt (s := { s with serving := s.serving.remove id }) h ..

theorem absorb_registry (s : Refreshing) (source : String) (canonical : Path) (c : Candidate)
    (opened : Opened) : (s.absorb source canonical c opened).registry =
      (s.registry.absorb (servedPath source c.id) source canonical opened).2 := by
  unfold absorb
  split <;> rename_i heq <;> simp only [heq, refuse]

/-- What a candidate opens as, where it is opened, is a library of its own id. -/
def Opens (s : Refreshing) (answer : Answer) (c : Candidate) (library : LibraryView) : Prop :=
  s.tried.get c.id ≠ some c.stamp ∧ answer.open c.id c.stamp = .opened (.loaded library) ∧
    library.id = c.id

variable {answer : Answer} {c : Candidate}

theorem candidate_opens {library : LibraryView}
    (h : s.Opens answer c library) : s.candidate source answer c =
      (withdraw { s with tried := s.tried.insert c.id c.stamp } source c.id).absorb source
    (answer.canonical c.id) c (.loaded library) := by
  obtain ⟨htried, hopen, hid⟩ := h
  simp only [candidate, if_neg htried, hopen, hid, ne_eq, not_true_eq_false, if_false]

/-- A candidate that opens as no library of its id leaves all but the report's refusals, and
what was tried, as it was. -/
theorem candidate_passed (source : String) (h : ∀ library, ¬ s.Opens answer c library) :
    (s.candidate source answer c).registry = s.registry ∧
      (s.candidate source answer c).serving = s.serving ∧
      (s.candidate source answer c).report.loaded = s.report.loaded ∧
      (s.candidate source answer c).report.retired = s.report.retired := by
  simp only [candidate]
  split
  · exact ⟨rfl, rfl, rfl, rfl⟩
  · next htried =>
    split
    · exact ⟨rfl, rfl, rfl, rfl⟩
    · next library hopen =>
      split
      · exact ⟨rfl, rfl, rfl, rfl⟩
      · next hid => exact absurd ⟨htried, hopen, not_not.mp hid⟩ (h library)
    · next opened hnot _ =>
      cases opened with
      | loaded library => exact absurd rfl (hnot library)
      | _ => exact ⟨rfl, rfl, rfl, rfl⟩

theorem sound_gone (h : s.registry.Sound) (source id : String) :
    (s.gone source id).registry.Sound :=
  sound_withdraw (s := { s with tried := s.tried.remove id }) h source id

theorem sound_candidate (h : s.registry.Sound) (source : String) (answer : Answer) (c : Candidate) :
    (s.candidate source answer c).registry.Sound := by
  by_cases hopens : ∃ library, s.Opens answer c library
  · obtain ⟨library, hopens⟩ := hopens
    rw [candidate_opens hopens, absorb_registry]
    exact Registry.sound_absorb
      (sound_withdraw (s := { s with tried := s.tried.insert c.id c.stamp }) h source c.id) ..
  · rw [(candidate_passed source fun library hlib => hopens ⟨library, hlib⟩).1]
    exact h

variable {W : Path → String → Prop}

theorem keeps_withdraw (h : s.registry.Sound)
    (hout : ∀ stamp, s.serving.get id = some stamp → ∀ l ∈ s.registry.loaded,
      l.path = servedPath source id → ¬ W l.path l.source) :
    s.registry.Keeps W (s.withdraw source id).registry := by
  unfold withdraw
  split
  · exact .refl W _
  · next stamp hserving =>
    cases hfind : s.registry.loaded.find? (·.path = servedPath source id) with
    | none =>
      rw [retireAt_none (s := { s with serving := s.serving.remove id }) stamp hfind]
      exact .refl W _
    | some one =>
      rw [retireAt_found (s := { s with serving := s.serving.remove id }) h stamp hfind]
      have hone := List.mem_of_find?_eq_some hfind
      have hpath : one.path = servedPath source id := by simpa using List.find?_some hfind
      constructor
      · intro l hl
        simp only [h.mem_eraseP (h.find_key hone), and_iff_left_iff_imp]
        intro _ heq
        exact hout stamp hserving one hone hpath (heq ▸ hl)
      · intro p hp
        simp only [List.mem_filter, and_iff_left_iff_imp, decide_eq_true_eq]
        intro hin hfrom
        obtain ⟨l, hl, -, hlpath, hlsource⟩ := h.owned p hin
        rw [← hlpath, ← hlsource] at hp
        exact hout stamp hserving l hl (hlpath.trans hfrom) hp

theorem keeps_candidate (h : s.registry.Sound)
    (hout : ∀ library, s.Opens answer c library → ∀ stamp, s.serving.get c.id = some stamp →
      ∀ l ∈ s.registry.loaded, l.path = servedPath source c.id → ¬ W l.path l.source)
    (hown : ¬ W (servedPath source c.id) source) :
    s.registry.Keeps W (s.candidate source answer c).registry := by
  by_cases hopens : ∃ library, s.Opens answer c library
  · obtain ⟨library, hopens⟩ := hopens
    rw [candidate_opens hopens, absorb_registry]
    have hsound := sound_withdraw (s := { s with tried := s.tried.insert c.id c.stamp }) h source c.id
    have hkeeps := keeps_withdraw (s := { s with tried := s.tried.insert c.id c.stamp }) h
      (hout library hopens)
    exact hkeeps.trans (Registry.keeps_absorb hsound _ _ hown)
  · rw [(candidate_passed source fun library hlib => hopens ⟨library, hlib⟩).1]
    exact .refl W _

/-- Two states have the same stamps for an id. -/
def Agree (s s' : Refreshing) (id : String) : Prop :=
  s.serving.get id = s'.serving.get id ∧ s.tried.get id = s'.tried.get id

/-- What the turn of each id listed no more keeps, all of them keep; the other ids have the
stamps they had. -/
theorem gone_rule (P : Refreshing → Prop) (began : Refreshing) (source : String) {ids : List String}
    (hnodup : ids.Nodup)
    (hturn : ∀ s, ∀ id ∈ ids, s.Agree began id → P s → P (s.gone source id)) (h : P began) :
    P (ids.foldl (·.gone source ·) began) ∧
      ∀ k ∉ ids, (ids.foldl (·.gone source ·) began).Agree began k := by
  suffices hall : ∀ s, P s → (∀ k ∈ ids, s.Agree began k) →
      P (ids.foldl (·.gone source ·) s) ∧
        ∀ k ∉ ids, s.Agree began k → (ids.foldl (·.gone source ·) s).Agree began k by
    obtain ⟨hP, hagree⟩ := hall began h fun _ _ => ⟨rfl, rfl⟩
    exact ⟨hP, fun k hk => hagree k hk ⟨rfl, rfl⟩⟩
  induction ids with
  | nil => exact fun s hs _ => ⟨hs, fun _ _ hagree => hagree⟩
  | cons id rest ih =>
    intro s hs hagree
    obtain ⟨hnot, hrest⟩ := List.nodup_cons.mp hnodup
    have hP := hturn s id (List.mem_cons_self ..) (hagree id (List.mem_cons_self ..)) hs
    have hmove : ∀ k, k ≠ id → s.Agree began k → (s.gone source id).Agree began k := by
      intro k hk hagree
      obtain ⟨hserving, htried⟩ := gone_stamps s source id hk
      exact ⟨hserving.trans hagree.1, htried.trans hagree.2⟩
    obtain ⟨hdone, hothers⟩ := ih hrest
      (fun s id hid => hturn s id (List.mem_cons_of_mem _ hid)) (s.gone source id) hP
      fun k hk => hmove k (fun heq => hnot (heq ▸ hk)) (hagree k (List.mem_cons_of_mem _ hk))
    refine ⟨hdone, fun k hk hagree => hothers k (fun hin => hk (List.mem_cons_of_mem _ hin)) ?_⟩
    exact hmove k (fun heq => hk (heq ▸ List.mem_cons_self ..)) hagree

/-- The turns the loop over the candidates comes to: the state before each, and whose it is. -/
def turns (s : Refreshing) (source : String) (answer : Answer) :
    List Candidate → List String → List (Refreshing × Candidate)
  | [], _ => []
  | c :: rest, seen =>
    if c.id ∈ seen then
      (s.refuse source (some c.id) (.words "the source listed it twice")).turns source answer rest
        seen
    else (s, c) :: (s.candidate source answer c).turns source answer rest (c.id :: seen)

theorem turns_seen {rest : List Candidate} {seen : List String}
    (h : c.id ∈ seen) : s.turns source answer (c :: rest) seen =
      (s.refuse source (some c.id) (.words "the source listed it twice")).turns source answer rest
        seen :=
  if_pos h

theorem turns_new {rest : List Candidate} {seen : List String}
    (h : c.id ∉ seen) : s.turns source answer (c :: rest) seen =
      (s, c) :: (s.candidate source answer c).turns source answer rest (c.id :: seen) :=
  if_neg h

/-- What the turn of each candidate keeps, and every refusal, all of them keep. A turn is the
first candidate's of its id, which has the stamps it had. -/
theorem candidates_rule {P : Refreshing → Prop} {began s₀ : Refreshing} {listed : List Candidate}
    (hrefuse : ∀ s id reason, P s → P (s.refuse source id reason))
    (hturn : ∀ s c, (s, c) ∈ s₀.turns source answer listed [] →
      listed.find? (·.id = c.id) = some c → s.Agree began c.id → P s →
      P (s.candidate source answer c)) (hagree : ∀ c ∈ listed, s₀.Agree began c.id) (h : P s₀) :
    P (s₀.candidates source answer listed []) := by
  suffices hall : ∀ rest done seen s, listed = done ++ rest →
      (∀ id, id ∈ seen ↔ id ∈ done.map (·.id)) →
      (∀ c ∈ listed, c.id ∉ seen → s.Agree began c.id) →
      (∀ t ∈ s.turns source answer rest seen, t ∈ s₀.turns source answer listed []) → P s →
      P (s.candidates source answer rest seen) by
    refine hall listed [] [] s₀ rfl (fun id => ?_) (fun c hc _ => hagree c hc) (fun _ ht => ht) h
    simp only [List.map_nil]
  intro rest
  induction rest with
  | nil => exact fun _ _ _ _ _ _ _ hs => hs
  | cons c rest ih =>
    intro done seen s hlisted hseen hagree hturns hs
    have hlisted' : listed = (done ++ [c]) ++ rest := by
      rw [hlisted, List.append_assoc]
      rfl
    unfold candidates
    split
    · next hin =>
      rw [turns_seen hin] at hturns
      refine ih (done ++ [c]) seen _ hlisted' (fun id => ?_) hagree hturns (hrefuse s _ _ hs)
      rw [hseen, List.map_append, List.mem_append]
      refine ⟨Or.inl, fun h => h.elim (fun h => h) fun h => ?_⟩
      rw [List.mem_singleton.mp h]
      exact (hseen c.id).mp hin
    · next hin =>
      rw [turns_new hin] at hturns
      have hmem : c ∈ listed := by
        rw [hlisted]
        exact List.mem_append_right _ (List.mem_cons_self ..)
      refine ih (done ++ [c]) (c.id :: seen) _ hlisted' (fun id => ?_) (fun k hk hnot => ?_)
        (fun t ht => hturns t (List.mem_cons_of_mem _ ht)) ?_
      · rw [List.mem_cons, hseen, List.map_append, List.mem_append, List.map_singleton,
          List.mem_singleton, Or.comm]
      · rw [List.mem_cons, not_or] at hnot
        obtain ⟨hserving, htried⟩ := candidate_stamps s source answer c hnot.1
        obtain ⟨hserving', htried'⟩ := hagree k hk hnot.2
        exact ⟨hserving.trans hserving', htried.trans htried'⟩
      · refine hturn s c (hturns _ (List.mem_cons_self ..)) ?_ (hagree c hmem hin) hs
        rw [hlisted, List.find?_append, List.find?_eq_none.mpr fun x hx heq => ?_]
        · simp only [Option.none_or, List.find?_cons, decide_true]
        · refine hin ((hseen c.id).mpr ?_)
          have hid : x.id = c.id := by simpa using heq
          rw [← hid]
          exact List.mem_map_of_mem hx

/-- The turns of a refresh's candidates. -/
def followTurns (s : Refreshing) (source : String) (answer : Answer) (listed : List Candidate) :
    List (Refreshing × Candidate) :=
  ((s.goneIds listed).foldl (·.gone source ·) s).turns source answer listed []

theorem mem_goneIds {k : String} {listed : List Candidate} : k ∈ s.goneIds listed ↔
    (∃ stamp, s.tried.get k = some stamp) ∧ k ∉ listed.map Candidate.id := by
  rw [goneIds, List.mem_filter, SortedMap.mem_keys_iff, decide_eq_true_eq]

theorem follow_rule (P : Refreshing → Prop) {began : Refreshing} {source : String} {listed : List Candidate}
    (hrefuse : ∀ s id reason, P s → P (s.refuse source id reason))
    (hgone : ∀ s id stamp, began.tried.get id = some stamp → id ∉ listed.map Candidate.id →
      s.Agree began id → P s → P (s.gone source id))
    (hturn : ∀ s c, (s, c) ∈ began.followTurns source answer listed →
      listed.find? (·.id = c.id) = some c → s.Agree began c.id → P s →
      P (s.candidate source answer c)) (h : P began) :
    P (began.follow source answer listed) := by
  obtain ⟨hleft, hagree⟩ := gone_rule P began source
    (began.tried.nodup_keys.filter _)
    (fun s id hid hagree hs => by
      obtain ⟨⟨stamp, hstamp⟩, hnot⟩ := mem_goneIds.mp hid
      exact hgone s id stamp hstamp hnot hagree hs) h
  refine candidates_rule hrefuse hturn (fun c hc => hagree c.id fun hin => ?_) hleft
  exact (mem_goneIds.mp hin).2 (List.mem_map_of_mem hc)

theorem tried_candidate (s : Refreshing) (source : String) (answer : Answer) (c : Candidate)
    (k : String) : (s.candidate source answer c).tried.get k =
      if k = c.id then some c.stamp else s.tried.get k := by
  split
  · next heq =>
    rw [heq]
    simp only [candidate]
    split
    · next hsame => exact hsame
    · split
      · exact SortedMap.get_insert_self ..
      · split
        · exact SortedMap.get_insert_self ..
        · rw [(absorb_stamps ..).2, (withdraw_stamps ..).2.1]
          exact SortedMap.get_insert_self ..
      · rw [(absorb_stamps ..).2]
        exact SortedMap.get_insert_self ..
  · next hne => exact (candidate_stamps s source answer c hne).2

theorem tried_gone (s : Refreshing) (name id k : String) :
    (s.gone name id).tried.get k = if k = id then none else s.tried.get k := by
  split
  · next heq =>
    rw [heq, gone, (withdraw_stamps ..).2.1]
    exact SortedMap.get_remove_self ..
  · next hne => exact (gone_stamps s name id hne).2

theorem tried_allGone (s : Refreshing) (name : String) (ids : List String) (k : String) :
    (ids.foldl (·.gone name ·) s).tried.get k = if k ∈ ids then none else s.tried.get k := by
  induction ids generalizing s with
  | nil => simp
  | cons id rest ih =>
    rw [List.foldl_cons, ih, tried_gone]
    simp only [List.mem_cons]
    grind

/-- Once all candidates have had their turn, each id is tried under the stamp it was first listed
under. -/
theorem tried_candidates (s : Refreshing) (name : String) (answer : Answer) (rest : List Candidate)
    (seen : List String) (k : String) :
    (s.candidates name answer rest seen).tried.get k =
      if k ∈ seen then s.tried.get k
      else (rest.find? (·.id = k)).elim (s.tried.get k) fun c => some c.stamp := by
  induction rest generalizing s seen with
  | nil => simp [candidates]
  | cons c rest ih =>
    simp only [candidates]
    split
    · next hseen =>
      rw [ih]
      by_cases hk : k ∈ seen
      · simp [hk, refuse]
      · have hne : c.id ≠ k := fun heq => hk (heq ▸ hseen)
        simp [hk, refuse, hne]
    · next hseen =>
      rw [ih, tried_candidate]
      by_cases hk : k = c.id
      · simp [hk, hseen]
      · have hne : c.id ≠ k := fun heq => hk heq.symm
        by_cases hseen' : k ∈ seen <;> simp [hk, hseen', hne]

theorem tried_follow (s : Refreshing) (name : String) (answer : Answer) (listed : List Candidate)
    (k : String) : (s.follow name answer listed).tried.get k =
      (listed.find? (·.id = k)).map Candidate.stamp := by
  rw [follow, tried_candidates, if_neg List.not_mem_nil, tried_allGone]
  cases hfind : listed.find? (·.id = k) with
  | some c => rfl
  | none =>
    have hout : k ∉ listed.map Candidate.id := by
      simpa [List.find?_eq_none] using hfind
    rw [Option.elim_none, Option.map_none, ite_eq_left_iff]
    intro hnot
    by_contra hsome
    exact hnot (mem_goneIds.mpr ⟨Option.ne_none_iff_exists'.mp hsome, hout⟩)

theorem sound_follow (h : s.registry.Sound) (source : String) (answer : Answer)
    (listed : List Candidate) : (s.follow source answer listed).registry.Sound :=
  follow_rule (fun s => s.registry.Sound) (fun _ _ _ hs => hs)
    (fun _ id _ _ _ _ hs => sound_gone hs source id)
    (fun _ c _ _ _ hs => sound_candidate hs source answer c) h

end Refreshing

namespace Sources

variable {s s' : Sources}

theorem sound_refreshSource (h : s.registry.Sound) (at_ : ℕ) (answer : Answer) :
    (s.refreshSource at_ answer).2.registry.Sound := by
  simp only [refreshSource]
  split
  · exact h
  · split
    · exact h
    · exact Refreshing.sound_follow (s := s.refreshing ..) h ..

theorem sound_step : Kept step fun s => s.registry.Sound := by
  intro s act s' h hstep
  cases act with
  | host act =>
    obtain ⟨registry, hregistry, rfl⟩ := Option.map_eq_some_iff.mp hstep
    exact Registry.sound_step s.registry act registry h hregistry
  | addSource name =>
    simp only [step, addSource] at hstep
    split at hstep
    · cases hstep
    · cases hstep
      exact h
  | refreshSource at_ answer =>
    cases hstep
    exact sound_refreshSource h at_ answer

end Sources

end Guatiao.Library
