import Guatiao.Library.Refresh

/-!
# What one source's refresh leaves the others

A refresh retires by path, and the path is made of two free texts with a `:` between them.
The libraries and providers of other sources stay as they were where none of them is filed
at the path of an id this refresh retires.
-/

namespace Guatiao.Library

open Lib

/-- The pieces of a text that count in a path. -/
def Path.pieces (text : String) : List (List Char) := (text.toList.splitOn '/').filter counts

/-- The text of a path a source's library is filed at. -/
def servedText (source id : String) : String := "<" ++ source ++ ":" ++ id ++ ">"

theorem toList_servedText (source id : String) : (servedText source id).toList =
    '<' :: (source.toList ++ ':' :: (id.toList ++ ['>'])) := by
  simp [servedText]

theorem servedPath_eq (source id : String) :
    servedPath source id = ⟨false, Path.pieces (servedText source id)⟩ := by
  have htext := toList_servedText source id
  have hhead : (servedText source id).toList.head? ≠ some '/' := by
    rw [htext, List.head?_cons]
    decide
  have hfirst : ∀ rest, (servedText source id).toList.splitOn '/' ≠ ['.'] :: rest := by
    intro rest heq
    have hjoin : (['/'].intercalate ((servedText source id).toList.splitOn '/')) =
        (servedText source id).toList := List.intercalate_splitOn _
    rw [heq, htext] at hjoin
    cases rest <;> simp [List.intercalate] at hjoin
  have hpath : servedPath source id = .ofText (servedText source id) := rfl
  rw [hpath, Path.ofText]
  split
  · next rest heq => exact absurd heq (hfirst rest)
  · simp only [hhead, decide_false, Path.pieces]

theorem servedPath_eq_iff {source id source' id' : String} :
    servedPath source id = servedPath source' id' ↔
      Path.pieces (servedText source id) = Path.pieces (servedText source' id') := by
  rw [servedPath_eq, servedPath_eq, Path.mk.injEq, and_iff_right rfl]

theorem append_cons_inj {α : Type} {a : α} {xs ys xs' ys' : List α} (hxs : a ∉ xs) (hxs' : a ∉ xs')
    (h : xs ++ a :: ys = xs' ++ a :: ys') : xs = xs' ∧ ys = ys' := by
  rcases List.append_eq_append_iff.mp h with ⟨between, hxs'', hys⟩ | ⟨between, hxs'', hys⟩
  all_goals
    cases between with
    | nil => simp_all
    | cons b rest =>
      simp only [List.cons_append, List.cons.injEq] at hys
      simp_all

theorem servedPath_inj {source id source' id' : String}
    (hsource : ':' ∉ source.toList ∧ '/' ∉ source.toList) (hid : '/' ∉ id.toList)
    (hsource' : ':' ∉ source'.toList ∧ '/' ∉ source'.toList) (hid' : '/' ∉ id'.toList)
    (h : servedPath source id = servedPath source' id') : source = source' ∧ id = id' := by
  have hpieces : ∀ source id : String, '/' ∉ source.toList → '/' ∉ id.toList →
      Path.pieces (servedText source id) = [(servedText source id).toList] := by
    intro source id hsource hid
    have hnot : '/' ∉ (servedText source id).toList := by
      rw [toList_servedText]
      simp [hsource, hid]
    rw [Path.pieces, List.splitOn_eq_singleton hnot, List.filter_singleton, toList_servedText]
    simp [Path.counts]
  rw [servedPath_eq_iff, hpieces source id hsource.2 hid, hpieces source' id' hsource'.2 hid',
    toList_servedText, toList_servedText] at h
  simp only [List.cons.injEq, true_and, and_true] at h
  obtain ⟨hname, hrest⟩ := append_cons_inj hsource.1 hsource'.1 h
  exact ⟨String.toList_inj.mp hname, String.toList_inj.mp (List.append_cancel_right hrest)⟩

/-- The ids a refresh retires what it filed under: those served and listed no more, and those
listed under a stamp not tried yet, that open as a library of their id. -/
def SourceState.Retires (st : SourceState) (answer : Answer) (listed : List Candidate)
    (id : String) : Prop :=
  (∃ stamp, st.serving.get id = some stamp) ∧
    ((∃ stamp, st.tried.get id = some stamp) ∧ id ∉ listed.map Candidate.id ∨
      ∃ c library, listed.find? (·.id = id) = some c ∧ st.tried.get id ≠ some c.stamp ∧
        answer.open id c.stamp = .opened (.loaded library) ∧ library.id = id)

namespace Refreshing

theorem keeps_follow {W : Path → String → Prop} (began : Refreshing) (st : SourceState)
    {answer : Answer} {listed : List Candidate} (hsound : began.registry.Sound) (hserving : began.serving = st.serving)
    (htried : began.tried = st.tried)
    (hretired : ∀ id, st.Retires answer listed id → ∀ l ∈ began.registry.loaded,
      l.path = servedPath st.name id → ¬ W l.path l.source)
    (hown : ∀ id, ¬ W (servedPath st.name id) st.name) :
    began.registry.Keeps W (began.follow st.name answer listed).registry := by
  -- A library recorded where `W` holds was there when the refresh began.
  have hback : ∀ {s : Refreshing} {id : String}, st.Retires answer listed id →
      began.registry.Keeps W s.registry → ∀ l ∈ s.registry.loaded,
      l.path = servedPath st.name id → ¬ W l.path l.source := by
    intro s id hretires hkept l hl hpath hW
    exact hretired id hretires l ((hkept.loaded l hW).mp hl) hpath hW
  refine (follow_rule (fun s => s.registry.Sound ∧ began.registry.Keeps W s.registry)
    (fun _ _ _ hs => hs) ?_ ?_ ⟨hsound, .refl W _⟩).2
  · rintro s id stamp hstamp hnot ⟨hagree, -⟩ ⟨hs, hkept⟩
    refine ⟨sound_gone hs st.name id, hkept.trans ?_⟩
    refine keeps_withdraw (s := { s with tried := s.tried.remove id }) hs fun old hold => ?_
    rw [hserving] at hagree
    exact hback ⟨⟨old, hagree ▸ hold⟩, Or.inl ⟨⟨stamp, htried ▸ hstamp⟩, hnot⟩⟩ hkept
  · rintro s c - hc ⟨hagree, hagree'⟩ ⟨hs, hkept⟩
    refine ⟨sound_candidate hs st.name answer c, hkept.trans (keeps_candidate hs ?_ (hown c.id))⟩
    rintro library ⟨hnew, hopen, hid⟩ old hold
    rw [hserving] at hagree
    rw [hagree', htried] at hnew
    exact hback ⟨⟨old, hagree ▸ hold⟩, Or.inr ⟨c, library, hc, hnew, hopen, hid⟩⟩ hkept

end Refreshing

namespace Sources

variable {s : Sources} {at_ : ℕ} {st : SourceState} {answer : Answer}

/-- No library of another source is filed at the path of an id this refresh retires. -/
def Apart (s : Sources) (st : SourceState) (answer : Answer) : Prop :=
  ∀ listed wrong, answer.list = .ok (listed, wrong) → ∀ id, st.Retires answer listed id →
    ∀ l ∈ s.registry.loaded, l.path = servedPath st.name id → l.source = st.name

/-- Whatever other sources than `name` had is as it was: their libraries, their providers, each
found under its key, and what each of them serves. -/
structure Isolated (s : Sources) (at_ : ℕ) (name : String) (s' : Sources) : Prop where
  loaded : ∀ l : Loaded, l.source ≠ name → (l ∈ s'.registry.loaded ↔ l ∈ s.registry.loaded)
  providers : ∀ p : Provider, p.source ≠ name →
    (p ∈ s'.registry.providers ↔ p ∈ s.registry.providers)
  found : ∀ p ∈ s.registry.providers, p.source ≠ name → s'.registry.provider p.key = some p
  sources : ∀ i, i ≠ at_ → s'.sources[i]? = s.sources[i]?

theorem isolated_refl (h : s.registry.Sound) (at_ : ℕ) (name : String) : s.Isolated at_ name s :=
  ⟨fun _ _ => Iff.rfl, fun _ _ => Iff.rfl, fun _ hp _ => h.provider_iff.mpr ⟨hp, rfl⟩,
    fun _ _ => rfl⟩

theorem isolated_refreshSource (h : s.registry.Sound) (hst : s.sources[at_]? = some st)
    (hapart : s.Apart st answer) : s.Isolated at_ st.name (s.refreshSource at_ answer).2 := by
  cases hlist : answer.list with
  | error reason =>
    simp only [refreshSource, hst, hlist]
    exact isolated_refl h at_ st.name
  | ok out =>
    obtain ⟨listed, wrong⟩ := out
    have hsound := sound_refreshSource h at_ answer
    simp only [refreshSource, hst, hlist] at hsound ⊢
    have hkeeps : s.registry.Keeps (fun _ source => source ≠ st.name)
        ((s.refreshing st (wrong ++ answer.wrongNotes)).follow st.name answer listed).registry :=
      Refreshing.keeps_follow (s.refreshing st (wrong ++ answer.wrongNotes)) st h rfl rfl
      (fun id hretires l hl hpath => not_not.mpr (hapart listed wrong hlist id hretires l hl hpath))
      fun _ => not_not.mpr rfl
    refine ⟨hkeeps.loaded, hkeeps.providers, fun p hp hsource => ?_, fun i hi => ?_⟩
    · exact hsound.provider_iff.mpr ⟨(hkeeps.providers p hsource).mpr hp, rfl⟩
    · exact List.getElem?_set_ne hi.symm

/-- In every state a host comes to, a refresh of one source whose retired paths are its own leaves
every other source's libraries and providers as they were; and two libraries are filed at one
path just where their texts have the same pieces, so never where the names have no `:` or `/`
and the ids no `/`. -/
theorem refresh_isolated {acts : List Act} (hrun : run step new acts = some s)
    (hst : s.sources[at_]? = some st) (answer : Answer) :
    (s.Apart st answer → s.Isolated at_ st.name (s.refreshSource at_ answer).2) ∧
    (∀ source id source' id', servedPath source id = servedPath source' id' ↔
      Path.pieces (servedText source id) = Path.pieces (servedText source' id')) ∧
    ∀ source id source' id', ':' ∉ source.toList ∧ '/' ∉ source.toList → '/' ∉ id.toList →
      ':' ∉ source'.toList ∧ '/' ∉ source'.toList → '/' ∉ id'.toList →
      servedPath source id = servedPath source' id' → source = source' ∧ id = id' :=
  ⟨fun hapart => isolated_refreshSource (sound_step.run Registry.sound_new hrun) hst hapart,
    fun _ _ _ _ => servedPath_eq_iff,
    fun _ _ _ _ hsource hid hsource' hid' => servedPath_inj hsource hid hsource' hid'⟩

/-- A source that lists one library of one provider, or none. -/
def serves (ids : List String) : Answer where
  list := .ok (ids.map fun id => ⟨id, "1"⟩, [])
  wrongNotes := []
  «open» id _ := .opened (.loaded ⟨id, "1", [⟨id ++ "-p", "", none⟩]⟩)
  canonical id := .ofText id

/-- Two sources serve a library each, and one of them lists it no more. -/
theorem refresh_isolated_two : ∃ s,
    run step new [.addSource "a", .addSource "b", .refreshSource 0 (serves ["x"]),
      .refreshSource 1 (serves ["y"])] = some s ∧
    s.Isolated 0 "a" (s.refreshSource 0 (serves [])).2 := by
  obtain ⟨s, hrun⟩ : ∃ s, run step new [.addSource "a", .addSource "b",
      .refreshSource 0 (serves ["x"]), .refreshSource 1 (serves ["y"])] = some s := ⟨_, rfl⟩
  refine ⟨s, hrun, ?_⟩
  obtain ⟨st, hst⟩ : ∃ st, s.sources[0]? = some st := by
    cases hrun
    exact ⟨_, rfl⟩
  have hname : st.name = "a" := by
    cases hrun
    cases hst
    rfl
  have hserving : st.serving.entries = [("x", "1")] := by
    cases hrun
    cases hst
    decide +kernel
  have hloaded : ∀ l ∈ s.registry.loaded, l.path = servedPath "a" "x" → l.source = "a" := by
    cases hrun
    decide +kernel
  rw [← hname]
  refine (refresh_isolated hrun hst (serves [])).1 fun listed wrong _ id hretires l hl => ?_
  obtain ⟨⟨stamp, hstamp⟩, -⟩ := hretires
  rw [← SortedMap.mem_entries_iff, hserving, List.mem_singleton, Prod.mk.injEq] at hstamp
  rw [hstamp.1, hname]
  exact hloaded l hl

/-- The source `a` serves `b:c` and the source `a:b` serves `c`, at one path: once the second
lists it no more, the first one's library is retired. -/
theorem refresh_retires_another : ∃ s,
    run step new [.addSource "a", .addSource "a:b", .refreshSource 0 (serves ["b:c"]),
      .refreshSource 1 (serves ["c"])] = some s ∧
    servedPath "a" "b:c" = servedPath "a:b" "c" ∧
    ¬ s.Isolated 1 "a:b" (s.refreshSource 1 (serves [])).2 := by
  obtain ⟨s, hrun⟩ : ∃ s, run step new [.addSource "a", .addSource "a:b",
      .refreshSource 0 (serves ["b:c"]), .refreshSource 1 (serves ["c"])] = some s := ⟨_, rfl⟩
  have hlost : ∃ l ∈ s.registry.loaded, l.source ≠ "a:b" ∧
      l ∉ (s.refreshSource 1 (serves [])).2.registry.loaded := by
    cases hrun
    decide +kernel
  refine ⟨s, hrun, by decide +kernel, fun h => ?_⟩
  obtain ⟨l, hl, hsource, hgone⟩ := hlost
  exact hgone ((h.loaded l hsource).mpr hl)

end Sources

end Guatiao.Library
