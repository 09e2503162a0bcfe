import Guatiao.Library.Isolation
import Guatiao.Library.Reported
import Guatiao.Merge.Path
import Guatiao.Remote.Holding

/-!
# What a stamp tells

A stamp is spelled from a library's key, its version and a count of the loadings of its key. The
count goes up when a refresh has loaded the key, so a stamp tells one loading as long as every
loading is counted before it is listed: what is loaded through the registry is not counted, and
what a refresh has loaded can be listed before it is.
-/

namespace Guatiao.Remote

open Lib Library

/-- How a stamp is spelled. -/
def spelled (key version : String) (generation : ℕ) : String :=
  key ++ "#" ++ version ++ "#" ++ toString generation

theorem hash_notMem_toString (n : ℕ) : '#' ∉ (toString n).toList := by
  rw [show toString n = n.repr from rfl, Nat.toList_repr]
  intro hmem
  have hdigit := Nat.isDigit_of_mem_toDigits (by omega) (by omega) hmem
  exact absurd hdigit (by decide)

theorem spelled_inj {key version version' : String} {n n' : ℕ}
    (h : spelled key version n = spelled key version' n') : version = version' ∧ n = n' := by
  have hspelled : ∀ version n, (spelled key version n).toList =
      key.toList ++ '#' :: (version.toList ++ '#' :: (toString n).toList) := by
    intro version n
    simp [spelled]
  have hlist := congrArg String.toList h
  rw [hspelled, hspelled, List.append_cancel_left_eq, List.cons.injEq] at hlist
  have hreverse := congrArg List.reverse hlist.2
  rw [List.reverse_append, List.reverse_append, List.reverse_cons, List.reverse_cons,
    List.append_assoc, List.append_assoc] at hreverse
  obtain ⟨hcount, hversion⟩ := append_cons_inj
    (by simpa using hash_notMem_toString n) (by simpa using hash_notMem_toString n') hreverse
  refine ⟨String.toList_inj.mp (List.reverse_injective hversion), ?_⟩
  exact Merge.toString_inj (String.toList_inj.mp (List.reverse_injective hcount))

namespace Server

variable {s s' : Server}

/-- A listing or an opening gave a library so. -/
def Gave (s : Server) (g : Given) : Prop := Event.gave g ∈ s.log

/-- Everything given under one stamp of a library was made from one loading, and so is every table
a link holds under a stamp that was given. -/
structure OneLoading (s : Server) : Prop where
  listed : ∀ g g', s.Gave g → s.Gave g' → g.id = g'.id → g.stamp = g'.stamp → g.lease = g'.lease
  tables : ∀ g, s.Gave g → ∀ e ∈ g.tables, e.2.provider.hold = g.lease
  served : ∀ i library stamp held, Event.opened i library stamp held ∈ s.log →
    ∀ g, s.Gave g → g.id = library → g.stamp = stamp → ∀ e ∈ held, e.2.provider.hold = g.lease

variable {offers : Provider → List String} {i : ℕ} {keys : List String}

theorem mem_tablesOf {library stamp key : String}
    {providers : List Provider} {ids : TableIds} {e : ℕ × Table}
    (h : e ∈ (tablesOf offers library stamp key providers ids).1) :
    e.2.provider ∈ providers ∧ e.2.provider.library = key := by
  induction providers generalizing ids with
  | nil => exact absurd h List.not_mem_nil
  | cons p rest ih =>
    simp only [tablesOf] at h
    split at h
    · next hkey =>
      rcases List.mem_append.mp h with hhere | hthere
      · have hfold : ∀ (kinds : List String) (out : List (ℕ × Table) × TableIds),
            (∀ e ∈ out.1, e.2.provider = p) → ∀ e ∈ (kinds.foldl (fun out kind =>
              let next := out.2.tableId ⟨library, stamp, p.id, kind⟩
              (out.1 ++ [(next.1, Table.mk p kind)], next.2)) out).1, e.2.provider = p := by
          intro kinds
          induction kinds with
          | nil => exact fun _ hout => hout
          | cons kind kinds ih =>
            intro out hout
            apply ih
            intro e he
            rcases List.mem_append.mp he with he | he
            · exact hout e he
            · rw [List.mem_singleton.mp he]
        have hp := hfold (offers p) ([], ids) (by simp) e hhere
        rw [hp]
        exact ⟨List.mem_cons_self .., hkey⟩
      · obtain ⟨hmem, hlibrary⟩ := ih hthere
        exact ⟨List.mem_cons_of_mem _ hmem, hlibrary⟩
    · obtain ⟨hmem, hlibrary⟩ := ih h
      exact ⟨List.mem_cons_of_mem _ hmem, hlibrary⟩

/-- What is given of a library that is loaded, with tables of its own. -/
def GivenOf (s : Server) (g : Given) : Prop :=
  ∃ l ∈ s.registry.loaded, ∃ tables, g = s.give l tables ∧
    ∀ e ∈ tables, e.2.provider ∈ s.registry.providers ∧ e.2.provider.library = l.key

theorem givenOf_catalog {g : Given} (h : g ∈ (s.catalog offers).1) :
    s.GivenOf g := by
  suffices hall : ∀ (ls : List Loaded) (ids : TableIds), (∀ l ∈ ls, l ∈ s.registry.loaded) →
      g ∈ (s.catalogFrom offers ls ids).1 → s.GivenOf g from hall _ _ (fun _ hl => hl) h
  intro ls
  induction ls with
  | nil => exact fun _ _ hg => absurd hg List.not_mem_nil
  | cons l rest ih =>
    intro ids hls hg
    have hrest : ∀ l ∈ rest, l ∈ s.registry.loaded := fun l hl => hls l (List.mem_cons_of_mem _ hl)
    simp only [catalogFrom] at hg
    split at hg
    · exact ih _ hrest hg
    · rcases List.mem_cons.mp hg with rfl | hg
      · exact ⟨l, hls l (List.mem_cons_self ..), _, rfl, fun e he => mem_tablesOf he⟩
      · exact ih _ hrest hg

theorem givenOf_hold {library stamp : String} {g : Given}
    {ids : TableIds} (h : s.hold offers library stamp = some (g, ids)) :
    s.GivenOf g ∧ g.id = library ∧ g.stamp = stamp := by
  obtain ⟨l, hfind, hg⟩ := Option.map_eq_some_iff.mp h
  obtain ⟨rfl, -⟩ := Prod.mk.inj hg
  have hl := List.mem_of_find?_eq_some hfind
  obtain ⟨hid, hstamp⟩ := by simpa using List.find?_some hfind
  exact ⟨⟨l, hl, _, rfl, fun e he => mem_tablesOf he⟩, hid, hstamp⟩

theorem get_counted (keys : List String) (m : List (String × ℕ)) (key : String) :
    (AssocList.get key (keys.foldl (fun m key =>
      AssocList.set key ((AssocList.get key m).getD 0 + 1) m) m)).getD 0 =
        (AssocList.get key m).getD 0 + keys.count key := by
  induction keys generalizing m with
  | nil => rfl
  | cons k rest ih =>
    rw [List.foldl_cons, ih, List.count_cons]
    by_cases hk : key = k
    · subst hk
      rw [AssocList.get_set_self, Option.getD_some, beq_self_eq_true, if_pos rfl]
      omega
    · have hne : (k == key) = false := beq_false_of_ne (Ne.symm hk)
      rw [AssocList.get_set_of_ne hk, hne, if_neg Bool.false_ne_true]
      omega

theorem generation_counted (key : String) :
    generation { s with
      generations := keys.foldl (fun m key =>
        AssocList.set key ((AssocList.get key m).getD 0 + 1) m) s.generations
      counting := s.counting.eraseIdx i } key = s.generation key + keys.count key :=
  get_counted keys s.generations key

theorem mem_flatten_eraseIdx {counting : List (List String)}
    (h : counting[i]? = some keys) {key : String} (hkey : key ∈ counting.flatten) :
    key ∈ keys ∨ key ∈ (counting.eraseIdx i).flatten := by
  obtain ⟨ks, hks, hmem⟩ := List.mem_flatten.mp hkey
  obtain ⟨j, hlt, rfl⟩ := List.mem_iff_getElem.mp hks
  by_cases hj : j = i
  · subst hj
    rw [List.getElem?_eq_getElem hlt, Option.some.injEq] at h
    exact .inl (h ▸ hmem)
  · refine .inr (List.mem_flatten.mpr ⟨_, ?_, hmem⟩)
    exact List.mem_eraseIdx_iff_getElem.mpr ⟨j, hlt, hj, rfl⟩

/-- A listing or an opening gave the library a thread has tables of. -/
def GaveTables (s : Server) (library stamp : String) (tables : List (ℕ × Table)) : Prop :=
  ∃ g, s.Gave g ∧ g.id = library ∧ g.stamp = stamp ∧ g.tables = tables

/-- What was given so far, by key, version and count, is of one loading, and what is loaded now
would be given anew or as that loading. -/
structure Stamped (s : Server) : Prop where
  sound : s.registry.Sound
  named : s.registry.Named
  filed : ∀ l ∈ s.registry.loaded, l.key = l.id
  spelled : ∀ g, s.Gave g → g.stamp = spelled g.id g.version g.generation
  below : ∀ g, s.Gave g → g.generation ≤ s.generation g.id
  fresh : ∀ l ∈ s.registry.loaded, l.key ∉ s.counting.flatten → ∀ g, s.Gave g → g.id = l.id →
    g.version = l.version → g.generation = s.generation l.key → g.lease = l.lease
  one : ∀ g g', s.Gave g → s.Gave g' → g.id = g'.id → g.version = g'.version →
    g.generation = g'.generation → g.lease = g'.lease
  tables : ∀ g, s.Gave g → ∀ e ∈ g.tables, e.2.provider.hold = g.lease
  held : ∀ link ∈ s.links, ∀ library stamp tables, Job.held library stamp tables ∈ link.jobs →
    s.GaveTables library stamp tables
  opened : ∀ i library stamp tables, Event.opened i library stamp tables ∈ s.log →
    s.GaveTables library stamp tables

theorem Stamped.oneLoading (h : s.Stamped) : s.OneLoading := by
  have hlisted : ∀ g g', s.Gave g → s.Gave g' → g.id = g'.id → g.stamp = g'.stamp →
      g.lease = g'.lease := by
    intro g g' hg hg' hid hstamp
    rw [h.spelled g hg, h.spelled g' hg', hid] at hstamp
    obtain ⟨hversion, hgeneration⟩ := spelled_inj hstamp
    exact h.one g g' hg hg' hid hversion hgeneration
  refine ⟨hlisted, h.tables, ?_⟩
  intro i library stamp held hopened g hg hid hstamp e he
  obtain ⟨g', hg', hid', hstamp', rfl⟩ := h.opened i library stamp held hopened
  rw [h.tables g' hg' e he]
  exact hlisted g' g hg' hg (hid'.trans hid.symm) (hstamp'.trans hstamp.symm)

theorem stamped_new {sources : Sources} (hsound : sources.registry.Sound)
    (hnamed : sources.registry.Named) (hfiled : ∀ l ∈ sources.registry.loaded, l.key = l.id) :
    (new sources).Stamped where
  sound := hsound
  named := hnamed
  filed := hfiled
  spelled := by simp [new, Gave]
  below := by simp [new, Gave]
  fresh := by simp [new, Gave]
  one := by simp [new, Gave]
  tables := by simp [new, Gave]
  held := by simp [new]
  opened := by simp [new]

theorem Stamped.still (h : s.Stamped) (hsources : s'.sources = s.sources)
    (hgenerations : s'.generations = s.generations) (hcounting : s'.counting = s.counting)
    (hgave : ∀ g, s'.Gave g ↔ s.Gave g)
    (hheld : ∀ link ∈ s'.links, ∀ library stamp tables, Job.held library stamp tables ∈ link.jobs →
      s.GaveTables library stamp tables)
    (hopened : ∀ i library stamp tables, Event.opened i library stamp tables ∈ s'.log →
      s.GaveTables library stamp tables) : s'.Stamped := by
  have hregistry : s'.registry = s.registry := congrArg Sources.registry hsources
  have hgeneration : ∀ key, s'.generation key = s.generation key := by
    intro key
    rw [generation, generation, hgenerations]
  have hback : ∀ {library stamp tables}, s.GaveTables library stamp tables →
      s'.GaveTables library stamp tables := by
    rintro library stamp tables ⟨g, hg, hrest⟩
    exact ⟨g, (hgave g).mpr hg, hrest⟩
  constructor
  · exact hregistry ▸ h.sound
  · exact hregistry ▸ h.named
  · exact hregistry ▸ h.filed
  · exact fun g hg => h.spelled g ((hgave g).mp hg)
  · intro g hg
    rw [hgeneration]
    exact h.below g ((hgave g).mp hg)
  · intro l hl hkey g hg hid hversion hcount
    rw [hregistry] at hl
    rw [hcounting] at hkey
    rw [hgeneration] at hcount
    exact h.fresh l hl hkey g ((hgave g).mp hg) hid hversion hcount
  · exact fun g g' hg hg' => h.one g g' ((hgave g).mp hg) ((hgave g').mp hg')
  · exact fun g hg => h.tables g ((hgave g).mp hg)
  · exact fun link hlink library stamp tables hjob => hback (hheld link hlink library stamp tables hjob)
  · exact fun i library stamp tables hevent => hback (hopened i library stamp tables hevent)

/-- Giving what is loaded, once every loading has been counted. -/
theorem Stamped.give (h : s.Stamped) (hcounted : s.counting.flatten = []) {given : List Given}
    (hgiven : ∀ g ∈ given, s.GivenOf g) (hsources : s'.sources = s.sources)
    (hgenerations : s'.generations = s.generations) (hlog : s'.log = s.log ++ given.map .gave)
    (hheld : ∀ link ∈ s'.links, ∀ library stamp tables, Job.held library stamp tables ∈ link.jobs →
      s'.GaveTables library stamp tables) : s'.Stamped := by
  have hregistry : s'.registry = s.registry := congrArg Sources.registry hsources
  have hgeneration : ∀ key, s'.generation key = s.generation key := by
    intro key
    rw [generation, generation, hgenerations]
  have hgave : ∀ g, s'.Gave g ↔ s.Gave g ∨ g ∈ given := by
    intro g
    simp [Gave, hlog]
  -- Each of what is new is of a library that is loaded, as the registry has it now.
  have hnew : ∀ g ∈ given, ∃ l ∈ s.registry.loaded, g.id = l.id ∧ g.version = l.version ∧
      g.generation = s.generation l.key ∧ g.lease = l.lease := by
    intro g hg
    obtain ⟨l, hl, tables, rfl, -⟩ := hgiven g hg
    exact ⟨l, hl, rfl, rfl, rfl, rfl⟩
  have hkeyed : ∀ l ∈ s.registry.loaded, ∀ l' ∈ s.registry.loaded, l.id = l'.id → l = l' := by
    intro l hl l' hl' hid
    apply List.inj_on_of_nodup_map h.sound.libraryKeys hl hl'
    rw [h.filed l hl, h.filed l' hl', hid]
  have hpending : ∀ l : Loaded, l.key ∉ s.counting.flatten := by simp [hcounted]
  constructor
  · exact hregistry ▸ h.sound
  · exact hregistry ▸ h.named
  · exact hregistry ▸ h.filed
  · intro g hg
    rcases (hgave g).mp hg with hold | hnow
    · exact h.spelled g hold
    · obtain ⟨l, hl, tables, rfl, -⟩ := hgiven g hnow
      show Remote.spelled l.key l.version (s.generation l.key) =
        Remote.spelled l.id l.version (s.generation l.key)
      rw [h.filed l hl]
  · intro g hg
    rw [hgeneration]
    rcases (hgave g).mp hg with hold | hnow
    · exact h.below g hold
    · obtain ⟨l, hl, hid, -, hcount, -⟩ := hnew g hnow
      rw [hcount, hid, h.filed l hl]
  · intro l hl hkey g hg hid hversion hcount
    rw [hregistry] at hl
    rw [hgeneration] at hcount
    rcases (hgave g).mp hg with hold | hnow
    · exact h.fresh l hl (hpending l) g hold hid hversion hcount
    · obtain ⟨l', hl', hid', -, -, hlease⟩ := hnew g hnow
      rw [hlease, hkeyed l' hl' l hl (hid'.symm.trans hid)]
  · intro g g' hg hg' hid hversion hcount
    rcases (hgave g).mp hg with hold | hnow
    · rcases (hgave g').mp hg' with hold' | hnow'
      · exact h.one g g' hold hold' hid hversion hcount
      · obtain ⟨l, hl, hid', hversion', hcount', hlease⟩ := hnew g' hnow'
        rw [hlease]
        exact h.fresh l hl (hpending l) g hold (hid.trans hid') (hversion.trans hversion')
          (hcount.trans hcount')
    · obtain ⟨l, hl, hid', hversion', hcount', hlease⟩ := hnew g hnow
      rcases (hgave g').mp hg' with hold' | hnow'
      · rw [hlease]
        exact (h.fresh l hl (hpending l) g' hold' (hid.symm.trans hid')
          (hversion.symm.trans hversion') (hcount.symm.trans hcount')).symm
      · obtain ⟨l', hl', hid'', -, -, hlease'⟩ := hnew g' hnow'
        rw [hlease, hlease', hkeyed l hl l' hl' (hid'.symm.trans (hid.trans hid''))]
  · intro g hg
    rcases (hgave g).mp hg with hold | hnow
    · exact h.tables g hold
    · obtain ⟨l, hl, tables, rfl, htables⟩ := hgiven g hnow
      intro e he
      obtain ⟨hprovider, hlibrary⟩ := htables e he
      obtain ⟨l', hl', hlease, hid⟩ := h.named _ hprovider
      rw [← hlease]
      have heq := hkeyed l' hl' l hl (by rw [hid, hlibrary, h.filed l hl])
      exact congrArg Loaded.lease heq
  · exact hheld
  · intro i library stamp tables hevent
    have hbefore : Event.opened i library stamp tables ∈ s.log := by simpa [hlog] using hevent
    obtain ⟨g, hg, hrest⟩ := h.opened i library stamp tables hbefore
    exact ⟨g, (hgave g).mpr (.inl hg), hrest⟩

/-- A registry changed, with every new library filed under its id, to be counted or not given yet. -/
theorem Stamped.load (h : s.Stamped) {sources : Sources} {counting : List (List String)}
    (hsound : sources.registry.Sound) (hnamed : sources.registry.Named)
    (hmore : ∀ key ∈ s.counting.flatten, key ∈ counting.flatten)
    (hloaded : ∀ l ∈ sources.registry.loaded, l ∈ s.registry.loaded ∨ l.key = l.id ∧
      (l.key ∈ counting.flatten ∨ ∀ g, s.Gave g → g.id = l.id → g.version = l.version →
        g.generation ≠ s.generation l.key)) :
    Stamped { s with sources, counting } := by
  constructor
  · exact hsound
  · exact hnamed
  · intro l hl
    rcases hloaded l hl with hold | hnew
    · exact h.filed l hold
    · exact hnew.1
  · exact h.spelled
  · exact h.below
  · intro l hl hkey g hg hid hversion hcount
    rcases hloaded l hl with hold | ⟨-, hpending | hungiven⟩
    · exact h.fresh l hold (fun hin => hkey (hmore _ hin)) g hg hid hversion hcount
    · exact absurd hpending hkey
    · exact absurd hcount (hungiven g hg hid hversion)
  · exact h.one
  · exact h.tables
  · exact h.held
  · exact h.opened

theorem Stamped.count (h : s.Stamped) (hkeys : s.counting[i]? = some keys) :
    Stamped { s with
      generations := keys.foldl (fun m key =>
        AssocList.set key ((AssocList.get key m).getD 0 + 1) m) s.generations
      counting := s.counting.eraseIdx i } := by
  have hup : ∀ key, s.generation key ≤ generation { s with
      generations := keys.foldl (fun m key =>
        AssocList.set key ((AssocList.get key m).getD 0 + 1) m) s.generations
      counting := s.counting.eraseIdx i } key := by
    intro key
    rw [generation_counted]
    omega
  constructor
  · exact h.sound
  · exact h.named
  · exact h.filed
  · exact h.spelled
  · exact fun g hg => (h.below g hg).trans (hup g.id)
  · intro l hl hkey g hg hid hversion hcount
    rw [generation_counted] at hcount
    by_cases hcounted : l.key ∈ keys
    · have hpos := List.count_pos_iff.mpr hcounted
      have hbelow := h.below g hg
      rw [hid, ← h.filed l hl] at hbelow
      omega
    · rw [List.count_eq_zero_of_not_mem hcounted] at hcount
      refine h.fresh l hl ?_ g hg hid hversion hcount
      intro hin
      exact (mem_flatten_eraseIdx hkeys hin).elim hcounted hkey
  · exact h.one
  · exact h.tables
  · exact h.held
  · exact h.opened

/-- No listing or opening has given a library of this id and version at the count its key has. -/
def ungiven (s : Server) (l : Loaded) : Bool :=
  s.log.all fun
    | .gave g => !(g.id = l.id ∧ g.version = l.version ∧ g.generation = s.generation l.key)
    | _ => true

/-- Every library is filed under its id, what is loaded through the registry has not been given
under the count of its key, and nothing is given while a loading is still to be counted. -/
def counted (s : Server) : ServerAct → Bool
  | .registry act => (s.sources.step act).all fun after => after.registry.loaded.all fun l =>
      decide (l ∈ s.registry.loaded) || (decide (l.key = l.id) && s.ungiven l)
  | .refresh answers => (s.sources.refresh answers).2.registry.loaded.all fun l =>
      decide (l ∈ s.registry.loaded) || decide (l.key = l.id)
  | .list .. | .hold .. => s.counting.flatten.isEmpty
  | _ => true

theorem ungiven_iff {l : Loaded} : s.ungiven l = true ↔ ∀ g, s.Gave g → g.id = l.id →
    g.version = l.version → g.generation ≠ s.generation l.key := by
  rw [ungiven, List.all_eq_true]
  constructor
  · intro h g hg hid hversion hcount
    simpa [hid, hversion, hcount] using h _ hg
  · intro h e he
    cases e with
    | gave g =>
      simp only [Bool.not_eq_true', decide_eq_false_iff_not, not_and]
      exact h g he
    | _ => rfl

theorem held_setLink {P : String → String → List (ℕ × Table) → Prop} {link' : ServedLink}
    (h : ∀ link ∈ s.links, ∀ library stamp tables, Job.held library stamp tables ∈ link.jobs →
      P library stamp tables) (hlink' : ∀ library stamp tables, Job.held library stamp tables ∈ link'.jobs →
      P library stamp tables) :
    ∀ link ∈ s.links.set i link', ∀ library stamp tables,
      Job.held library stamp tables ∈ link.jobs → P library stamp tables := by
  intro link hlink
  rcases List.mem_or_eq_of_mem_set hlink with hold | rfl
  · exact h link hold
  · exact hlink'

theorem stamped_setLink (h : s.Stamped) {link link' : ServedLink} (hlink : s.links[i]? = some link)
    (hjobs : ∀ library stamp tables, Job.held library stamp tables ∈ link'.jobs →
      Job.held library stamp tables ∈ link.jobs) : (s.setLink i link').Stamped := by
  refine h.still rfl rfl rfl (fun g => Iff.rfl) ?_ h.opened
  apply held_setLink h.held
  intro library stamp tables hjob
  exact h.held link (List.mem_of_getElem? hlink) library stamp tables (hjobs _ _ _ hjob)

theorem stamped_stepLink {act : ServerAct} (h : s.Stamped) (hstep : s.stepLink act = some s') :
    s'.Stamped := by
  cases act with
  | start address =>
    simp only [stepLink] at hstep
    split at hstep
    · cases hstep
    · obtain rfl := Option.some.inj hstep
      refine h.still rfl rfl rfl (fun g => Iff.rfl) ?_ h.opened
      intro link hlink
      rcases List.mem_append.mp hlink with hold | hnew
      · exact h.held link hold
      · rw [List.mem_singleton.mp hnew]
        simp
  | close j library stamp =>
    obtain ⟨link, hlink, hclose⟩ := Option.bind_eq_some_iff.mp hstep
    split at hclose
    · obtain rfl := Option.some.inj hclose
      refine h.still rfl rfl rfl ?_ h.held ?_
      · simp [Gave, record]
      · intro i library stamp tables hevent
        exact h.opened i library stamp tables (by simpa [record] using hevent)
    · cases hclose
  | die j =>
    obtain ⟨link, hlink, rfl⟩ := Option.map_eq_some_iff.mp hstep
    exact stamped_setLink h hlink fun _ _ _ hjob => hjob
  | ended j =>
    obtain ⟨link, hlink, hended⟩ := Option.bind_eq_some_iff.mp hstep
    split at hended
    · cases hended
    · obtain rfl := Option.some.inj hended
      have hrest : Stamped { s with opened := s.opened.filter fun e => e.1 ≠ link.address } :=
        h.still rfl rfl rfl (fun g => Iff.rfl) h.held h.opened
      exact stamped_setLink hrest hlink fun _ _ _ hjob => hjob
  | stop j =>
    obtain ⟨link, hlink, hstop⟩ := Option.bind_eq_some_iff.mp hstep
    split at hstop
    · cases hstop
    · obtain rfl := Option.some.inj hstop
      exact stamped_setLink h hlink fun _ _ _ hjob => hjob
  | free j =>
    obtain ⟨link, hlink, hfree⟩ := Option.bind_eq_some_iff.mp hstep
    split at hfree
    · obtain rfl := Option.some.inj hfree
      exact stamped_setLink h hlink fun _ _ _ hjob => hjob
    · cases hfree
  | _ => cases hstep

theorem stamped_route (h : s.Stamped) {j : Job}
    (hj : ∀ library stamp tables, j ≠ .held library stamp tables) (hstep : s.route i j = some s') :
    s'.Stamped := by
  obtain ⟨link, hlink, hroute⟩ := Option.bind_eq_some_iff.mp hstep
  split at hroute
  · obtain rfl := Option.some.inj hroute
    apply stamped_setLink h hlink
    intro library stamp tables hjob
    rcases List.mem_append.mp hjob with hold | hnew
    · exact hold
    · exact absurd (List.mem_singleton.mp hnew).symm (hj library stamp tables)
  · cases hroute

theorem gaveTables_record (h : s.Stamped) (given : List Given) :
    ∀ link ∈ s.links, ∀ library stamp tables, Job.held library stamp tables ∈ link.jobs →
      (s.record (given.map .gave)).GaveTables library stamp tables := by
  intro link hlink library stamp tables hjob
  obtain ⟨g, hg, hrest⟩ := h.held link hlink library stamp tables hjob
  exact ⟨g, List.mem_append_left _ hg, hrest⟩

theorem stamped_stepJob {act : ServerAct} (h : s.Stamped) (hcounted : s.counted act = true)
    (hstep : s.stepJob act = some s') : s'.Stamped := by
  cases act with
  | routeList j => exact stamped_route h (by simp) hstep
  | routeOpen j library stamp => exact stamped_route h (by simp) hstep
  | list i job offers =>
    obtain ⟨link, j, hlink, -, hlist⟩ := work_eq_some hstep
    split at hlist
    · obtain rfl := Option.some.inj hlist
      refine h.give (List.isEmpty_iff.mp hcounted) (fun g hg => givenOf_catalog hg) rfl rfl rfl ?_
      have hgave := gaveTables_record h (s.catalog offers).1
      apply held_setLink hgave
      intro library stamp tables hjob
      exact hgave link (List.mem_of_getElem? hlink) _ _ _ (List.mem_of_mem_eraseIdx hjob)
    · cases hlist
  | hold i job offers =>
    obtain ⟨link, j, hlink, -, hhold⟩ := work_eq_some hstep
    cases j with
    | «open» library stamp =>
      simp only at hhold
      cases hfound : s.hold offers library stamp with
      | none =>
        rw [hfound] at hhold
        obtain rfl := Option.some.inj hhold
        exact stamped_setLink h hlink fun _ _ _ hjob => List.mem_of_mem_eraseIdx hjob
      | some found =>
        obtain ⟨given, ids⟩ := found
        rw [hfound] at hhold
        obtain rfl := Option.some.inj hhold
        obtain ⟨hof, hid, hstamp⟩ := givenOf_hold hfound
        have hgave := gaveTables_record h [given]
        refine h.give (List.isEmpty_iff.mp hcounted)
          (fun g (hg : g ∈ [given]) => List.mem_singleton.mp hg ▸ hof) rfl rfl rfl ?_
        apply held_setLink hgave
        intro library' stamp' tables hjob
        rcases List.mem_or_eq_of_mem_set hjob with hold | hnew
        · exact hgave link (List.mem_of_getElem? hlink) _ _ _ hold
        · obtain ⟨rfl, rfl, rfl⟩ := Job.held.inj hnew
          exact ⟨given, List.mem_append_right _ (List.mem_singleton.mpr rfl), hid, hstamp, rfl⟩
    | _ => cases hhold
  | publish i job =>
    obtain ⟨link, j, hlink, hj, hpublish⟩ := work_eq_some hstep
    cases j with
    | held library stamp held =>
      obtain rfl := Option.some.inj hpublish
      have hgave := h.held link (List.mem_of_getElem? hlink) library stamp held hj
      refine h.still rfl rfl rfl ?_ ?_ ?_
      · simp [Gave, record, setLink, keepFor]
      · apply held_setLink h.held
        intro library' stamp' tables hjob
        exact h.held link (List.mem_of_getElem? hlink) _ _ _ (List.mem_of_mem_eraseIdx hjob)
      · intro k library' stamp' tables hevent
        rcases List.mem_append.mp hevent with hold | hnew
        · exact h.opened k library' stamp' tables hold
        · obtain ⟨-, rfl, rfl, rfl⟩ := Event.opened.inj (List.mem_singleton.mp hnew)
          exact hgave
    | _ => cases hpublish
  | drop i job =>
    obtain ⟨link, j, hlink, -, hdrop⟩ := work_eq_some hstep
    obtain rfl := Option.some.inj hdrop
    exact stamped_setLink h hlink fun _ _ _ hjob => List.mem_of_mem_eraseIdx hjob
  | _ => cases hstep

/-- What is given stays of one loading as long as every loading is counted before it is listed. -/
theorem stamped_step : Kept (only (fun s act => counted s act = true) step) Stamped := by
  intro s act s' h hstep
  obtain ⟨hcounted, hstep⟩ := only_eq_some.mp hstep
  cases act with
  | registry act =>
    obtain ⟨sources, hsources, rfl⟩ := Option.map_eq_some_iff.mp hstep
    simp only [counted, hsources, Option.all_some, List.all_eq_true, Bool.or_eq_true,
      Bool.and_eq_true, decide_eq_true_eq, ungiven_iff] at hcounted
    apply h.load (Sources.sound_step s.sources act sources h.sound hsources)
      (Sources.named_step h.sound h.named hsources) (fun _ hkey => hkey)
    intro l hl
    exact (hcounted l hl).imp_right fun hnew => ⟨hnew.1, .inr hnew.2⟩
  | refresh answers =>
    obtain rfl := Option.some.inj hstep
    simp only [counted, List.all_eq_true, Bool.or_eq_true, decide_eq_true_eq] at hcounted
    obtain ⟨hsound, hnamed, htold⟩ := Sources.refresh_told h.sound h.named answers
    apply h.load hsound hnamed
    · intro key hkey
      rw [List.flatten_append]
      exact List.mem_append_left _ hkey
    · intro l hl
      by_cases hold : l ∈ s.registry.loaded
      · exact .inl hold
      · refine .inr ⟨(hcounted l hl).resolve_left hold, .inl ?_⟩
        rw [List.flatten_append]
        exact List.mem_append_right _ (by
          simpa [Sources.loadedKeys] using (htold l hl).resolve_left hold)
  | count i =>
    obtain ⟨keys, hkeys, rfl⟩ := Option.map_eq_some_iff.mp hstep
    exact h.count hkeys
  | start _ => exact @stamped_stepLink _ _ (.start _) h hstep
  | close _ _ _ => exact @stamped_stepLink _ _ (.close _ _ _) h hstep
  | die _ => exact @stamped_stepLink _ _ (.die _) h hstep
  | ended _ => exact @stamped_stepLink _ _ (.ended _) h hstep
  | stop _ => exact @stamped_stepLink _ _ (.stop _) h hstep
  | free _ => exact @stamped_stepLink _ _ (.free _) h hstep
  | routeList _ => exact @stamped_stepJob _ _ (.routeList _) h hcounted hstep
  | routeOpen _ _ _ => exact @stamped_stepJob _ _ (.routeOpen _ _ _) h hcounted hstep
  | list _ _ _ => exact @stamped_stepJob _ _ (.list _ _ _) h hcounted hstep
  | hold _ _ _ => exact @stamped_stepJob _ _ (.hold _ _ _) h hcounted hstep
  | publish _ _ => exact @stamped_stepJob _ _ (.publish _ _) h hcounted hstep
  | drop _ _ => exact @stamped_stepJob _ _ (.drop _ _) h hcounted hstep

/-- In every run in which each loading is counted before it is listed, a stamp tells one loading of
its library. -/
theorem oneLoading_of_counted {loads : List Sources.Act} {sources : Sources}
    (hsources : run Sources.step .new loads = some sources)
    (hfiled : ∀ l ∈ sources.registry.loaded, l.key = l.id) {acts : List ServerAct} {s : Server}
    (h : run (only (fun s act => counted s act = true) step) (new sources) acts = some s) :
    s.OneLoading := by
  have hbegan : sources.registry.Sound ∧ sources.registry.Named :=
    (Sources.sound_step.and fun _ _ _ hsound hnamed => Sources.named_step hsound hnamed).run
      ⟨Registry.sound_new, Registry.named_new⟩ hsources
  exact (stamped_step.run (stamped_new hbegan.1 hbegan.2 hfiled) h).oneLoading

/-- A build of one library is loaded through the registry, and listed. -/
private def build (job : ℕ) (version : String) : List ServerAct :=
  [.registry (.host (.load (.ofText "/a.so") "" (.ofText "/a.so") (.ofText "/a.so")
      (.ok (.loaded ⟨"a", version, [⟨"p", "", none⟩]⟩)))),
    .routeList 0, .list 0 job fun _ => ["greeter"]]

/-- A library is loaded, listed, retired, and loaded in another version. -/
theorem oneLoading_of_counted_two : ∃ s, run (only (fun s act => counted s act = true) step) (new .new)
    (.start 7 :: build 0 "1" ++ .registry (.host (.retire "a")) :: build 0 "2") = some s ∧
      s.OneLoading :=
  ⟨_, rfl, @oneLoading_of_counted [] .new rfl (by simp [Sources.new, Registry.new])
    (.start 7 :: build 0 "1" ++ .registry (.host (.retire "a")) :: build 0 "2") _ rfl⟩

/-- A library loaded again through the registry in the version it had is listed under the stamp the
first loading was listed under. -/
theorem stamp_kept_by_reload : ∃ acts s g g', run step (new .new) acts = some s ∧ s.Gave g ∧
    s.Gave g' ∧ g.id = g'.id ∧ g.stamp = g'.stamp ∧ g.lease ≠ g'.lease := by
  refine ⟨.start 7 :: build 0 "1" ++ .registry (.host (.retire "a")) :: build 0 "1", _,
    _, _, rfl, .head _, .tail _ (.head _), rfl, rfl, ?_⟩
  decide

end Server

end Guatiao.Remote
