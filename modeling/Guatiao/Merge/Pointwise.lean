import Guatiao.Merge.Governed
import Guatiao.Merge.Layers

/-!
# What layers come to, place by place

Without declared modes, layers merged by substitution have at each place what the last of them with
an opinion says there, and the keys of a map come in the order the layers bring them in. A merge is
refused where a map and something else meet, and a refusal names such a place.
-/

namespace Guatiao.Merge

open Lib

/-- What a value says at a place under keys. The absent sentinel is no opinion. -/
def opinion : Value → List String → Option Value
  | .absent, [] => none
  | v, [] => some v
  | v, key :: rest => (v.get key).bind fun c => opinion c rest

/-- The keys of the map a value has at a place. -/
def keysAt (v : Value) (path : List String) : List String :=
  (((opinion v path).bind Value.asMap).map AssocList.keys).getD []

/-- Keys, and behind them those of others that are new. -/
def combine (keys more : List String) : List String := keys ++ more.filter fun key => key ∉ keys

/-- What is at a place of two values merged: the later's opinion, a map's keys behind the earlier's,
or the earlier's. -/
def Overlaid (earlier later merged : Value) (path : List String) : Prop :=
  match opinion later path with
  | none => opinion merged path = opinion earlier path
  | some (.map ls) =>
    ∃ ms, opinion merged path = some (.map ms) ∧
      AssocList.keys ms = combine (keysAt earlier path) (AssocList.keys ls)
  | some l => opinion merged path = some l

/-- A map and something else meet: the later's map is over something else, or its scalar over a
map. -/
def Meets (earlier later : Value) : Prop :=
  isMap later ∧ ¬ isMap earlier ∨ isMap earlier ∧ ¬ isMap later ∧ later.asList = none

/-- They meet at a place. -/
def ClashAt (earlier later : Value) (path : List String) (e l : Value) : Prop :=
  opinion earlier path = some e ∧ opinion later path = some l ∧ Meets e l

/-- Nowhere is a list over a map. -/
def NoListOverMap (earlier later : Value) : Prop :=
  ∀ path es items, opinion earlier path = some (.map es) → opinion later path ≠ some (.list items)

@[simp] theorem opinion_absent (path : List String) : opinion .absent path = none := by
  cases path <;> rfl

theorem opinion_nil {v : Value} (h : v ≠ .absent) : opinion v [] = some v := by
  cases v with
  | absent => exact absurd rfl h
  | _ => rfl

theorem opinion_cons (v : Value) (key : String) (rest : List String) :
    opinion v (key :: rest) = (v.get key).bind fun c => opinion c rest := by
  cases v <;> rfl

theorem opinion_cons_of_not_map {v : Value} (h : v.asMap = none) (key : String) (rest : List String) :
    opinion v (key :: rest) = none := by
  rw [opinion_cons, Value.get, h]
  rfl

theorem combine_nil (keys : List String) : combine [] keys = keys := by
  simp [combine]

theorem combine_none (keys : List String) : combine keys [] = keys := by
  simp [combine]

section Maps

variable {child : String → Value → Value → Except MergeError Value}

variable {later out merged earlier : List Entry}

theorem mergeKept_cons {rest : List Entry} {key : String} {v : Value}
    (h : mergeKept child later ((key, v) :: rest) out = .ok merged) :
    ∃ c, mergeKept child later rest (AssocList.set key c out) = .ok merged := by
  rw [mergeKept] at h
  cases hl : AssocList.get key later with
  | none =>
    rw [hl] at h
    exact ⟨v, h⟩
  | some l =>
    simp only [hl] at h
    obtain ⟨c, -, h⟩ := bind_eq_ok h
    exact ⟨c, h⟩

theorem keys_mergeKept (hnodup : (AssocList.keys out ++ AssocList.keys earlier).Nodup)
    (h : mergeKept child later earlier out = .ok merged) :
    AssocList.keys merged = AssocList.keys out ++ AssocList.keys earlier := by
  induction earlier generalizing out with
  | nil =>
    cases h
    exact (List.append_nil _).symm
  | cons e rest ih =>
    obtain ⟨key, v⟩ := e
    obtain ⟨c, h⟩ := mergeKept_cons h
    have hout : key ∉ AssocList.keys out := by
      intro hmem
      have hne := (List.nodup_append.mp hnodup).2.2 key hmem key (List.mem_cons_self ..)
      exact hne rfl
    have hkeys : AssocList.keys (AssocList.set key c out) = AssocList.keys out ++ [key] := by
      rw [AssocList.set_of_not_mem hout, AssocList.keys_append]
      rfl
    rw [AssocList.keys_cons] at hnodup ⊢
    rw [ih (by rwa [hkeys, List.append_assoc]) h, hkeys, List.append_assoc]
    rfl

theorem keys_mergeNew (hnodup : (AssocList.keys later).Nodup)
    (hout : ∀ key ∈ AssocList.keys later, key ∉ AssocList.keys earlier → key ∉ AssocList.keys out) :
    AssocList.keys (mergeNew earlier later out) =
      AssocList.keys out ++ (AssocList.keys later).filter fun key => key ∉ AssocList.keys earlier := by
  induction later generalizing out with
  | nil => simp [mergeNew]
  | cons e rest ih =>
    obtain ⟨key, v⟩ := e
    rw [AssocList.keys_cons, List.nodup_cons] at hnodup
    rw [mergeNew, AssocList.keys_cons, List.filter_cons]
    by_cases hkey : key ∈ AssocList.keys earlier
    · rw [if_pos (AssocList.contains_iff.mpr hkey), if_neg (by simpa using hkey)]
      exact ih hnodup.2 fun k hk => hout k (List.mem_cons_of_mem _ hk)
    · have hnew := hout key (List.mem_cons_self ..) hkey
      rw [if_neg (by simpa using hkey), if_pos (by simpa using hkey), ih hnodup.2,
        AssocList.set_of_not_mem hnew, AssocList.keys_append, List.append_assoc]
      · rfl
      · intro k hk hearlier
        rw [AssocList.set_of_not_mem hnew, AssocList.keys_append, List.mem_append, not_or]
        refine ⟨hout k (List.mem_cons_of_mem _ hk) hearlier, ?_⟩
        rintro hmem
        obtain rfl := List.mem_singleton.mp hmem
        exact hnodup.1 hk

theorem keys_mergeMapsRecursively
    (hearlier : (AssocList.keys earlier).Nodup) (hlater : (AssocList.keys later).Nodup)
    (h : mergeMapsRecursively child earlier later = .ok merged) :
    AssocList.keys merged = combine (AssocList.keys earlier) (AssocList.keys later) := by
  obtain ⟨kept, hkept, h⟩ := bind_eq_ok h
  cases h
  have hkeys : AssocList.keys kept = AssocList.keys earlier :=
    keys_mergeKept (by simpa using hearlier) hkept
  rw [keys_mergeNew hlater (by simp [hkeys]), hkeys, combine]

theorem mergeMapsRecursively_error {e : MergeError}
    (h : mergeMapsRecursively child earlier later = .error e) :
    ∃ key v l, (key, v) ∈ earlier ∧ AssocList.get key later = some l ∧ child key v l = .error e := by
  have hkept (out : List Entry) (hkept : mergeKept child later earlier out = .error e) :
      ∃ key v l, (key, v) ∈ earlier ∧ AssocList.get key later = some l ∧ child key v l = .error e := by
    clear h
    induction earlier generalizing out with
    | nil => cases hkept
    | cons p rest ih =>
      obtain ⟨key, v⟩ := p
      rw [mergeKept] at hkept
      cases hl : AssocList.get key later with
      | none =>
        rw [hl] at hkept
        obtain ⟨key', v', l', hmem, hrest⟩ := ih _ hkept
        exact ⟨key', v', l', List.mem_cons_of_mem _ hmem, hrest⟩
      | some l =>
        simp only [hl] at hkept
        cases hc : child key v l with
        | error e' =>
          rw [hc] at hkept
          cases hkept
          exact ⟨key, v, l, List.mem_cons_self .., hl, hc⟩
        | ok c =>
          rw [hc] at hkept
          obtain ⟨key', v', l', hmem, hrest⟩ := ih _ hkept
          exact ⟨key', v', l', List.mem_cons_of_mem _ hmem, hrest⟩
  unfold mergeMapsRecursively at h
  cases hout : mergeKept child later earlier [] with
  | error e' =>
    rw [hout] at h
    cases h
    exact hkept [] hout
  | ok out =>
    rw [hout] at h
    cases h

end Maps

/-- Substitution, with no modes declared. -/
def Context.substitution (options : MergeOptions) : Context := ⟨.substitute, options, []⟩

section Two

variable {options : MergeOptions} {earlier later merged : Value}

variable {es ls : List Entry} {e l v : Value}

theorem NoListOverMap.child (h : NoListOverMap earlier later)
    (hes : earlier = .map es) (hls : later = .map ls) {key : String}
    (he : AssocList.get key es = some e) (hl : AssocList.get key ls = some l) : NoListOverMap e l := by
  subst hes hls
  intro path es' items he' hl'
  refine h (key :: path) es' items ?_ ?_
  · rw [opinion_cons, Value.get, Value.asMap, Option.bind_some, he]
    exact he'
  · rw [opinion_cons, Value.get, Value.asMap, Option.bind_some, hl]
    exact hl'

theorem overlaid_replaced (hearlier : earlier.asMap = none) (hlater : later.asMap = none)
    (hopinion : later ≠ .absent) (path : List String) : Overlaid earlier later later path := by
  cases path with
  | nil =>
    rw [Overlaid, opinion_nil hopinion]
    cases later with
    | map ls => cases hlater
    | _ => rfl
  | cons key rest =>
    rw [Overlaid, opinion_cons_of_not_map hlater, opinion_cons_of_not_map hearlier]

theorem overlaid_absent (later : Value) (path : List String) : Overlaid .absent later later path := by
  rw [Overlaid]
  cases hopinion : opinion later path with
  | none => exact (opinion_absent path).symm
  | some l =>
    cases l with
    | map ls =>
      refine ⟨ls, rfl, ?_⟩
      rw [keysAt, opinion_absent]
      exact (combine_nil _).symm
    | _ => rfl

theorem overlaid_kept (earlier : Value) (path : List String) : Overlaid earlier .absent earlier path := by
  rw [Overlaid, opinion_absent]

/-- Two maps are merged place by place where their values under each key are, and their keys come
one behind the other. -/
theorem overlaid_maps {ms : List Entry}
    (hkeys : AssocList.keys ms = combine (AssocList.keys es) (AssocList.keys ls))
    (hmatch : ∀ key, match AssocList.get key es, AssocList.get key ls with
      | some e, some l => ∃ c, AssocList.get key ms = some c ∧ ∀ path, Overlaid e l c path
      | some e, none => AssocList.get key ms = some e
      | none, l => AssocList.get key ms = l) (path : List String) :
    Overlaid (.map es) (.map ls) (.map ms) path := by
  cases path with
  | nil => exact ⟨ms, rfl, hkeys⟩
  | cons key rest =>
    have hget (entries : List Entry) : opinion (.map entries) (key :: rest) =
        (AssocList.get key entries).bind fun c => opinion c rest := opinion_cons _ _ _
    have hkey := hmatch key
    unfold Overlaid keysAt
    rw [hget, hget, hget]
    cases he : AssocList.get key es with
    | none =>
      rw [he] at hkey
      rw [hkey]
      have habsent := overlaid_absent ((AssocList.get key ls).getD .absent) rest
      cases hl : AssocList.get key ls with
      | none => rfl
      | some l =>
        rw [hl] at habsent
        simpa [Overlaid, keysAt] using habsent
    | some e =>
      rw [he] at hkey
      cases hl : AssocList.get key ls with
      | none =>
        rw [hl] at hkey
        rw [hkey]
        rfl
      | some l =>
        rw [hl] at hkey
        obtain ⟨c, hc, hover⟩ := hkey
        rw [hc]
        exact hover rest

theorem eq_map_of_asMap (h : v.asMap = some es) : v = .map es := by
  cases v with
  | map entries =>
    cases h
    rfl
  | _ => cases h

theorem eq_list_of_asList {items : List Value} (h : v.asList = some items) :
    v = .list items := by
  cases v with
  | list items' =>
    cases h
    rfl
  | _ => cases h

theorem kind_ne_absent (h : v ≠ .absent) : kind v ≠ .absent := by
  cases v with
  | absent => exact absurd rfl h
  | _ => exact Tag.noConfusion

theorem mergeValue_no_later (levels : ℕ) (path : List String) (earlier : Value) :
    mergeValue (.substitution options) (levels + 1) path earlier .absent = .ok earlier := by
  rw [mergeValue_succ, mergeStep]
  rfl

theorem mergeValue_no_earlier (levels : ℕ) (path : List String) (hlater : later ≠ .absent) :
    mergeValue (.substitution options) (levels + 1) path .absent later = .ok later := by
  rw [mergeValue_succ, mergeStep, if_neg (kind_ne_absent hlater)]
  rfl

theorem mergeValue_substitution (levels : ℕ) (path : List String) (hearlier : earlier ≠ .absent)
    (hlater : later ≠ .absent) :
    mergeValue (.substitution options) (levels + 1) path earlier later =
      mergeSubstitute (mergeValue (.substitution options) levels)
        (mergeValue (.substitution options) (levels - 1)) path earlier later := by
  rw [mergeValue_succ, mergeStep, if_neg (kind_ne_absent hlater), if_neg (kind_ne_absent hearlier)]
  rfl

theorem mergeValue_substitution_maps (levels : ℕ) (path : List String) (es ls : List Entry) :
    mergeValue (.substitution options) (levels + 1) path (.map es) (.map ls) =
      (mergeMapsRecursively (fun key => mergeValue (.substitution options) levels (path ++ [key])) es
        ls).map Value.map :=
  mergeValue_maps (by simp [Context.modeAt, Context.substitution])

theorem not_clashAt_of_no_maps (hearlier : earlier.asMap = none) (hlater : later.asMap = none)
    (path : List String) (e l : Value) : ¬ ClashAt earlier later path e l := by
  rintro ⟨he, hl, hmeets⟩
  cases path with
  | nil =>
    have hown {v w : Value} (h : opinion v [] = some w) : w = v := by
      cases v <;> cases h <;> rfl
    rw [hown he, hown hl, Meets, isMap, isMap] at hmeets
    change (later.asMap.isSome = true ∧ _) ∨ (earlier.asMap.isSome = true ∧ _) at hmeets
    rw [hearlier, hlater] at hmeets
    rcases hmeets with ⟨hmap, -⟩ | ⟨hmap, -⟩ <;> cases hmap
  | cons key rest =>
    rw [opinion_cons_of_not_map hearlier] at he
    cases he

theorem clashAt_cons {key : String} {rest : List String} :
    ClashAt (.map es) (.map ls) (key :: rest) e l ↔
      ∃ e' l', AssocList.get key es = some e' ∧ AssocList.get key ls = some l' ∧
        ClashAt e' l' rest e l := by
  have hget (entries : List Entry) : opinion (.map entries) (key :: rest) =
      (AssocList.get key entries).bind fun c => opinion c rest := opinion_cons _ _ _
  simp only [ClashAt, hget, Option.bind_eq_some_iff]
  constructor
  · rintro ⟨⟨e', he', he⟩, ⟨l', hl', hl⟩, hmeets⟩
    exact ⟨e', l', he', hl', he, hl, hmeets⟩
  · rintro ⟨e', l', he', hl', he, hl, hmeets⟩
    exact ⟨⟨e', he', he⟩, ⟨l', hl', hl⟩, hmeets⟩

theorem not_clashAt_nil : ¬ ClashAt (.map es) (.map ls) [] e l := by
  rintro ⟨he, hl, hmeets⟩
  cases he
  cases hl
  rcases hmeets with ⟨-, hmap⟩ | ⟨-, hmap, -⟩ <;> exact hmap rfl

/-- Values merged by substitution, no list over a map: place by place, and nowhere does a map meet
something else. -/
theorem overlaid_mergeValue (levels : ℕ) {path : List String} {earlier later merged : Value}
    (hearlier : earlier.Distinct) (hlater : later.Distinct) (hlists : NoListOverMap earlier later)
    (h : mergeValue (.substitution options) levels path earlier later = .ok merged) :
    (∀ rest, Overlaid earlier later merged rest) ∧ ∀ rest e l, ¬ ClashAt earlier later rest e l := by
  induction levels generalizing path earlier later merged with
  | zero => cases h
  | succ levels ih =>
    by_cases hnone : later = .absent
    · subst hnone
      rw [mergeValue_no_later] at h
      cases h
      refine ⟨overlaid_kept _, ?_⟩
      rintro rest e l ⟨-, hl, -⟩
      rw [opinion_absent] at hl
      cases hl
    by_cases hfirst : earlier = .absent
    · subst hfirst
      rw [mergeValue_no_earlier levels path hnone] at h
      cases h
      refine ⟨overlaid_absent _, ?_⟩
      rintro rest e l ⟨he, -⟩
      rw [opinion_absent] at he
      cases he
    cases hes : earlier.asMap with
    | none =>
      rw [mergeValue_substitution levels path hfirst hnone] at h
      cases hls : later.asMap with
      | none =>
        simp only [mergeSubstitute, Node.entries, hes, hls] at h
        cases h
        exact ⟨overlaid_replaced hes hls hnone, not_clashAt_of_no_maps hes hls⟩
      | some ls =>
        simp only [mergeSubstitute, Node.entries, hes, hls] at h
        cases h
    | some es =>
      obtain rfl := eq_map_of_asMap hes
      cases hls : later.asMap with
      | none =>
        rw [mergeValue_substitution levels path hfirst hnone] at h
        cases hitems : later.asList with
        | none =>
          simp only [mergeSubstitute, Node.entries, Node.items, hes, hls, hitems] at h
          cases h
        | some items =>
          obtain rfl := eq_list_of_asList hitems
          exact absurd rfl (hlists [] es items rfl)
      | some ls =>
        obtain rfl := eq_map_of_asMap hls
        have hkeys := keys_nodup hearlier
        have hkeys' := keys_nodup hlater
        rw [mergeValue_substitution_maps] at h
        cases hout : mergeMapsRecursively
            (fun key => mergeValue (.substitution options) levels (path ++ [key])) es ls with
        | error e =>
          rw [hout] at h
          cases h
        | ok out =>
          rw [hout] at h
          cases h
          have hget := get_mergeMapsRecursively hout hkeys hkeys'
          have hchild (key : String) {e l c : Value} (he : AssocList.get key es = some e)
              (hl : AssocList.get key ls = some l)
              (hc : mergeValue (.substitution options) levels (path ++ [key]) e l = .ok c) :=
            ih (child_distinct hearlier he) (child_distinct hlater hl) (hlists.child rfl rfl he hl) hc
          refine ⟨overlaid_maps (keys_mergeMapsRecursively hkeys hkeys' hout) fun key => ?_, ?_⟩
          · have hkey := hget key
            cases he : AssocList.get key es with
            | none =>
              rw [he] at hkey
              exact hkey
            | some e =>
              cases hl : AssocList.get key ls with
              | none =>
                rw [he, hl] at hkey
                exact hkey
              | some l =>
                rw [he, hl] at hkey
                obtain ⟨c, hc, hcget⟩ := hkey
                exact ⟨c, hcget, (hchild key he hl hc).1⟩
          · rintro (- | ⟨key, rest⟩) e l hclash
            · exact not_clashAt_nil hclash
            · obtain ⟨e', l', he, hl, hclash⟩ := clashAt_cons.mp hclash
              have hkey := hget key
              rw [he, hl] at hkey
              obtain ⟨c, hc, -⟩ := hkey
              exact (hchild key he hl hc).2 rest e l hclash

/-- A merge by substitution that is refused, no list over a map, names a place where a map meets
something else. -/
theorem clashAt_of_mergeValue (levels : ℕ) {path : List String} {earlier later : Value}
    {refusal : MergeError} (hdepth : later.depth < levels) (hearlier : earlier.Distinct)
    (hlater : later.Distinct) (hlists : NoListOverMap earlier later)
    (h : mergeValue (.substitution options) levels path earlier later = .error refusal) :
    ∃ rest e l, ClashAt earlier later rest e l ∧
      refusal = .kind (render (path ++ rest)) e.tag l.tag .substitute := by
  induction levels generalizing path earlier later with
  | zero => omega
  | succ levels ih =>
    by_cases hnone : later = .absent
    · subst hnone
      rw [mergeValue_no_later] at h
      cases h
    by_cases hfirst : earlier = .absent
    · subst hfirst
      rw [mergeValue_no_earlier levels path hnone] at h
      cases h
    have hroot (hmeets : Meets earlier later)
        (hrefusal : refusal = .kind (render path) earlier.tag later.tag .substitute) :
        ∃ rest e l, ClashAt earlier later rest e l ∧
          refusal = .kind (render (path ++ rest)) e.tag l.tag .substitute :=
      ⟨[], earlier, later, ⟨opinion_nil hfirst, opinion_nil hnone, hmeets⟩, by
        rwa [List.append_nil]⟩
    cases hes : earlier.asMap with
    | none =>
      rw [mergeValue_substitution levels path hfirst hnone] at h
      cases hls : later.asMap with
      | none =>
        simp only [mergeSubstitute, Node.entries, hes, hls] at h
        cases h
      | some ls =>
        simp only [mergeSubstitute, Node.entries, hes, hls] at h
        cases h
        refine hroot (.inl ⟨?_, ?_⟩) rfl
        · simp [isMap, Node.entries, hls]
        · simp [isMap, Node.entries, hes]
    | some es =>
      cases hls : later.asMap with
      | none =>
        rw [mergeValue_substitution levels path hfirst hnone] at h
        cases hitems : later.asList with
        | none =>
          simp only [mergeSubstitute, Node.entries, Node.items, hes, hls, hitems] at h
          cases h
          refine hroot (.inr ⟨?_, ?_, hitems⟩) rfl
          · simp [isMap, Node.entries, hes]
          · simp [isMap, Node.entries, hls]
        | some items =>
          obtain rfl := eq_map_of_asMap hes
          obtain rfl := eq_list_of_asList hitems
          exact absurd rfl (hlists [] es items rfl)
      | some ls =>
        obtain rfl := eq_map_of_asMap hes
        obtain rfl := eq_map_of_asMap hls
        rw [mergeValue_substitution_maps] at h
        cases hout : mergeMapsRecursively
            (fun key => mergeValue (.substitution options) levels (path ++ [key])) es ls with
        | ok out =>
          rw [hout] at h
          cases h
        | error refusal' =>
          rw [hout] at h
          cases h
          obtain ⟨key, e, l, hmem, hl, hchild⟩ := mergeMapsRecursively_error hout
          have he := AssocList.get_of_mem (keys_nodup hearlier) hmem
          have hlt : l.depth < (Value.map ls).depth :=
            Value.depth_lt_of_entry (AssocList.mem_of_get hl)
          obtain ⟨rest, e', l', hclash, hrefusal⟩ := ih (by omega) (child_distinct hearlier he)
            (child_distinct hlater hl) (hlists.child rfl rfl he hl) hchild
          refine ⟨key :: rest, e', l', clashAt_cons.mpr ⟨e, l, he, hl, hclash⟩, ?_⟩
          rw [hrefusal, List.append_assoc]
          rfl

end Two

/-- A layer that is merged into what those before it come to. -/
def LayerOver (ctx : Context) (layers : List (String × Value)) (R : Value → Value → Prop) : Prop :=
  ∃ front label layer back previous p, layers = front ++ (label, layer) :: back ∧ front ≠ [] ∧
    mergeLayersWith ctx front = .ok (previous, p) ∧ R previous layer

/-- What the last of some layers with an opinion says at a place. -/
def lastOpinion (layers : List (String × Value)) (path : List String) : Option Value :=
  layers.reverse.findSome? fun layer => opinion layer.2 path

/-- The keys layers have at a place, in the order they bring them in. -/
def layeredKeys (layers : List (String × Value)) (path : List String) : List String :=
  layers.foldl (fun keys layer => combine keys (keysAt layer.2 path)) []

/-- A value has at each place what the last layer with an opinion says there: none, a map of the
layers' keys, or just what it says. -/
def Pointwise (layers : List (String × Value)) (merged : Value) : Prop :=
  ∀ path,
    match lastOpinion layers path with
    | none => opinion merged path = none
    | some (.map _) =>
      ∃ ms, opinion merged path = some (.map ms) ∧ AssocList.keys ms = layeredKeys layers path
    | some l => opinion merged path = some l

section Layers

variable {ctx : Context} {options : MergeOptions} {layers front : List (String × Value)}
  {label : String} {layer previous merged : Value} {p p' : Provenance}

theorem mergeLayersWith_concat (hne : front ≠ [])
    (h : mergeLayersWith ctx front = .ok (previous, p)) (label : String) (layer : Value) :
    mergeLayersWith ctx (front ++ [(label, layer)]) =
      (mergeValue ctx maxDepth [] previous layer).map fun merged =>
        (merged, p.recordClaims ctx label maxDepth [] previous layer) := by
  obtain ⟨acc, hacc, h⟩ := bind_eq_ok h
  obtain ⟨accumulated, p'⟩ := acc
  have hsome := foldlM_isSome hacc (.inr hne)
  obtain ⟨held, rfl⟩ := Option.isSome_iff_exists.mp hsome
  cases h
  unfold mergeLayersWith
  rw [List.foldlM_append, hacc]
  cases hmerged : mergeValue ctx maxDepth [] held layer with
  | error e =>
    simp [bind, Except.bind, mergeLayer, Node.layer, hmerged, Except.map]
  | ok merged =>
    simp [bind, Except.bind, pure, Except.pure, mergeLayer, Node.layer, Node.value, hmerged, Except.map]

theorem mergeLayersWith_error {refusal : MergeError}
    (h : mergeLayersWith (T := Value) ctx front = .error refusal) (back : List (String × Value)) :
    mergeLayersWith (T := Value) ctx (front ++ back) = .error refusal := by
  unfold mergeLayersWith at h ⊢
  rw [List.foldlM_append]
  cases hacc : front.foldlM (mergeLayer ctx) ((none : Option Value), SortedMap.empty) with
  | ok acc =>
    rw [hacc] at h
    cases h
  | error e =>
    rw [hacc] at h
    cases h
    rfl

theorem mergeLayersWith_singleton (ctx : Context) (label : String) (layer : Value) :
    ∃ p, mergeLayersWith ctx [(label, layer)] = .ok (layer, p) :=
  ⟨_, rfl⟩

theorem LayerOver.append {R : Value → Value → Prop} (h : LayerOver ctx front R)
    (back : List (String × Value)) : LayerOver ctx (front ++ back) R := by
  obtain ⟨front', label, layer, back', previous, p, rfl, hne, hok, hR⟩ := h
  exact ⟨front', label, layer, back' ++ back, previous, p, by simp, hne, hok, hR⟩

theorem layerOver_last {R : Value → Value → Prop} (hne : front ≠ [])
    (h : mergeLayersWith ctx front = .ok (previous, p)) (hR : R previous layer) :
    LayerOver ctx (front ++ [(label, layer)]) R :=
  ⟨front, label, layer, [], previous, p, rfl, hne, h, hR⟩

theorem distinct_mergeLayersWith (hdistinct : ∀ l ∈ layers, l.2.Distinct)
    (h : mergeLayersWith ctx layers = .ok (merged, p)) : merged.Distinct := by
  induction layers using List.reverseRecOn generalizing merged p with
  | nil =>
    cases h
    exact Value.distinct_map.mpr ⟨List.nodup_nil, fun _ _ hmem => nomatch hmem⟩
  | append_singleton front last ih =>
    obtain ⟨label, layer⟩ := last
    have hlast := hdistinct (label, layer) (by simp)
    by_cases hne : front = []
    · subst hne
      cases h
      exact hlast
    cases hfront : mergeLayersWith (T := Value) ctx front with
    | error e =>
      rw [mergeLayersWith_error hfront] at h
      cases h
    | ok result =>
      obtain ⟨previous, p'⟩ := result
      rw [mergeLayersWith_concat hne hfront] at h
      cases hmerged : mergeValue ctx maxDepth [] previous layer with
      | error e =>
        rw [hmerged] at h
        cases h
      | ok merged' =>
        rw [hmerged] at h
        cases h
        exact distinct_mergeValue hmerged (ih (fun l hl => hdistinct l (by simp [hl])) hfront) hlast

theorem lastOpinion_append (front : List (String × Value)) (label : String) (layer : Value)
    (path : List String) :
    lastOpinion (front ++ [(label, layer)]) path =
      (opinion layer path).or (lastOpinion front path) := by
  unfold lastOpinion
  rw [List.reverse_append, List.reverse_singleton, List.singleton_append, List.findSome?_cons]
  cases opinion layer path <;> rfl

theorem layeredKeys_append (front : List (String × Value)) (label : String) (layer : Value)
    (path : List String) :
    layeredKeys (front ++ [(label, layer)]) path =
      combine (layeredKeys front path) (keysAt layer path) := by
  simp [layeredKeys]

variable {path : List String}

theorem layeredKeys_of_no_opinion (h : lastOpinion layers path = none) :
    layeredKeys layers path = [] := by
  induction layers using List.reverseRecOn with
  | nil => rfl
  | append_singleton front last ih =>
    obtain ⟨label, layer⟩ := last
    rw [lastOpinion_append, Option.or_eq_none_iff] at h
    rw [layeredKeys_append, ih h.2, keysAt, h.1]
    rfl

theorem keysAt_of_map {v : Value} {es : List Entry}
    (h : opinion v path = some (.map es)) : keysAt v path = AssocList.keys es := by
  rw [keysAt, h]
  rfl

theorem pointwise_singleton (label : String) (layer : Value) : Pointwise [(label, layer)] layer := by
  intro path
  have hlast : lastOpinion [(label, layer)] path = opinion layer path := by
    rw [← List.nil_append [(label, layer)], lastOpinion_append]
    exact Option.or_none
  rw [hlast]
  cases hopinion : opinion layer path with
  | none => rfl
  | some v =>
    cases v with
    | map es =>
      refine ⟨es, rfl, ?_⟩
      rw [← List.nil_append [(label, layer)], layeredKeys_append, keysAt_of_map hopinion]
      exact (combine_nil _).symm
    | _ => rfl

/-- One more layer over what those before it come to. -/
theorem Pointwise.append (h : Pointwise front previous)
    (hover : ∀ path, Overlaid previous layer merged path)
    (hclash : ∀ path e l, ¬ ClashAt previous layer path e l) (label : String) :
    Pointwise (front ++ [(label, layer)]) merged := by
  intro path
  have hprevious := h path
  have hpath := hover path
  rw [lastOpinion_append, layeredKeys_append]
  unfold Overlaid at hpath
  cases hlater : opinion layer path with
  | none =>
    have hkeys : keysAt layer path = [] := by
      rw [keysAt, hlater]
      rfl
    rw [hlater] at hpath
    rw [Option.none_or, hpath, hkeys, combine_none]
    exact hprevious
  | some l =>
    rw [hlater] at hpath
    rw [Option.some_or]
    cases l with
    | map ls =>
      obtain ⟨ms, hms, hkeys⟩ := hpath
      refine ⟨ms, hms, ?_⟩
      rw [hkeys, keysAt_of_map hlater]
      congr 1
      cases hlast : lastOpinion front path with
      | none =>
        rw [hlast] at hprevious
        rw [keysAt, hprevious, layeredKeys_of_no_opinion hlast]
        rfl
      | some v =>
        rw [hlast] at hprevious
        cases v with
        | map es =>
          obtain ⟨ms', hms', hkeys'⟩ := hprevious
          rw [keysAt_of_map hms', hkeys']
        | _ =>
          -- Something else is there, and the layer's map would meet it.
          refine absurd ⟨hprevious, hlater, .inl ⟨rfl, ?_⟩⟩ (hclash path _ _)
          exact Bool.false_ne_true
    | _ => exact hpath

theorem mergeLayersWith_refused (hdistinct : ∀ l ∈ layers, l.2.Distinct)
    (hlists : ¬ LayerOver (.substitution options) layers fun previous layer =>
      ¬ NoListOverMap previous layer) {e l : Value}
    (hclash : LayerOver (.substitution options) layers fun previous layer =>
      ClashAt previous layer path e l) :
    ∃ refusal, mergeLayersWith (T := Value) (.substitution options) layers = .error refusal := by
  obtain ⟨front, label, layer, back, previous, p, rfl, hne, hfront, hclash⟩ := hclash
  have hover : NoListOverMap previous layer := by
    by_contra hover
    exact hlists ⟨front, label, layer, back, previous, p, rfl, hne, hfront, hover⟩
  cases hmerged : mergeValue (.substitution options) maxDepth [] previous layer with
  | ok merged =>
    have hprevious := distinct_mergeLayersWith (fun l hl => hdistinct l (by simp [hl])) hfront
    exact absurd hclash ((overlaid_mergeValue maxDepth hprevious
      (hdistinct (label, layer) (by simp)) hover hmerged).2 path e l)
  | error refusal =>
    have hstep := mergeLayersWith_concat hne hfront label layer
    rw [hmerged] at hstep
    refine ⟨refusal, ?_⟩
    rw [List.append_cons]
    exact mergeLayersWith_error hstep back

/-- What layers come to by substitution, no list over a map: a refusal that names where a layer
clashes with what those before it come to, or a value that has at each place what they say. -/
theorem mergeLayersWith_substitution (hdistinct : ∀ l ∈ layers, l.2.Distinct)
    (hdepth : ∀ l ∈ layers, l.2.depth < maxDepth) (hne : layers ≠ [])
    (hlists : ¬ LayerOver (.substitution options) layers fun previous layer =>
      ¬ NoListOverMap previous layer) :
    match mergeLayersWith (.substitution options) layers with
    | .error refusal => ∃ path e l, (LayerOver (.substitution options) layers fun previous layer =>
        ClashAt previous layer path e l) ∧ refusal = .kind (render path) e.tag l.tag .substitute
    | .ok (merged, _) => Pointwise layers merged := by
  induction layers using List.reverseRecOn with
  | nil => exact absurd rfl hne
  | append_singleton front last ih =>
    obtain ⟨label, layer⟩ := last
    by_cases hfirst : front = []
    · subst hfirst
      obtain ⟨p, hp⟩ := mergeLayersWith_singleton (.substitution options) label layer
      rw [List.nil_append, hp]
      exact pointwise_singleton label layer
    have hbefore := ih (fun l hl => hdistinct l (by simp [hl])) (fun l hl => hdepth l (by simp [hl]))
      hfirst fun hover => hlists (hover.append _)
    cases hfront : mergeLayersWith (T := Value) (.substitution options) front with
    | error refusal =>
      rw [mergeLayersWith_error hfront]
      rw [hfront] at hbefore
      obtain ⟨path, e, l, hover, hrefusal⟩ := hbefore
      exact ⟨path, e, l, hover.append _, hrefusal⟩
    | ok result =>
      obtain ⟨previous, p⟩ := result
      rw [hfront] at hbefore
      have hprevious := distinct_mergeLayersWith (fun l hl => hdistinct l (by simp [hl])) hfront
      have hlayer := hdistinct (label, layer) (by simp)
      have hover : NoListOverMap previous layer := by
        by_contra hover
        exact hlists (layerOver_last hfirst hfront hover)
      rw [mergeLayersWith_concat hfirst hfront]
      cases hmerged : mergeValue (.substitution options) maxDepth [] previous layer with
      | error refusal =>
        obtain ⟨path, e, l, hclash, hrefusal⟩ := clashAt_of_mergeValue maxDepth
          (hdepth (label, layer) (by simp)) hprevious hlayer hover hmerged
        exact ⟨path, e, l, layerOver_last hfirst hfront hclash, hrefusal⟩
      | ok merged =>
        obtain ⟨hoverlaid, hclash⟩ := overlaid_mergeValue maxDepth hprevious hlayer hover hmerged
        exact hbefore.append hoverlaid hclash label

/-- Layers merged by substitution, no list over a map: refused exactly where a layer's map is over
something else or its scalar over a map, the refusal naming such a place of the first such layer; and
else each place holds what the last layer with an opinion says there. -/
theorem mergeLayersWith_pointwise (hdistinct : ∀ l ∈ layers, l.2.Distinct)
    (hdepth : ∀ l ∈ layers, l.2.depth < maxDepth)
    (hlists : ¬ LayerOver (.substitution options) layers fun previous layer =>
      ¬ NoListOverMap previous layer) :
    ((∃ refusal, mergeLayersWith (T := Value) (.substitution options) layers = .error refusal) ↔
        ∃ path e l, LayerOver (.substitution options) layers fun previous layer =>
          ClashAt previous layer path e l) ∧
      (∀ refusal, mergeLayersWith (T := Value) (.substitution options) layers = .error refusal →
        ∃ path e l, (LayerOver (.substitution options) layers fun previous layer =>
            ClashAt previous layer path e l) ∧
          refusal = .kind (render path) e.tag l.tag .substitute) ∧
      ∀ merged p, mergeLayersWith (.substitution options) layers = .ok (merged, p) →
        layers ≠ [] → Pointwise layers merged := by
  have hnamed (refusal : MergeError)
      (h : mergeLayersWith (T := Value) (.substitution options) layers = .error refusal) :
      ∃ path e l, (LayerOver (.substitution options) layers fun previous layer =>
          ClashAt previous layer path e l) ∧
        refusal = .kind (render path) e.tag l.tag .substitute := by
    have hne : layers ≠ [] := by
      rintro rfl
      cases h
    have hresult := mergeLayersWith_substitution hdistinct hdepth hne hlists
    rwa [h] at hresult
  refine ⟨⟨?_, ?_⟩, hnamed, ?_⟩
  · rintro ⟨refusal, h⟩
    obtain ⟨path, e, l, hover, -⟩ := hnamed refusal h
    exact ⟨path, e, l, hover⟩
  · rintro ⟨path, e, l, hclash⟩
    exact mergeLayersWith_refused hdistinct hlists hclash
  · intro merged p h hne
    have hresult := mergeLayersWith_substitution hdistinct hdepth hne hlists
    rwa [h] at hresult

end Layers

/-- Two layers, the second with a null over a key of the first and a key of its own. -/
def nullLayers : List (String × Value) :=
  [("system", .map [("a", .string "x"), ("b", .string "y")]),
    ("user", .map [("c", .bool true), ("a", .null)])]

theorem nullLayers_noList :
    ¬ LayerOver (.substitution ⟨false⟩) nullLayers fun previous layer =>
      ¬ NoListOverMap previous layer := by
  rintro ⟨front, label, layer, back, previous, p, heq, hne, -, hover⟩
  refine hover fun path es items _ hlist => ?_
  have hmem : (label, layer) ∈ nullLayers := by
    rw [heq]
    simp
  have hflat : (label, layer) ∈ nullLayers → opinion layer path ≠ some (.list items) := by
    intro hmem
    simp only [nullLayers, List.mem_cons, List.not_mem_nil, or_false, Prod.mk.injEq] at hmem
    cases path with
    | nil => rcases hmem with ⟨-, rfl⟩ | ⟨-, rfl⟩ <;> simp [opinion]
    | cons key rest =>
      rcases hmem with ⟨-, rfl⟩ | ⟨-, rfl⟩ <;>
        simp only [opinion_cons, Value.get, Value.asMap, Option.bind_some, AssocList.get] <;>
        split_ifs <;> cases rest <;> simp [opinion, Value.get, Value.asMap]
  exact hflat hmem hlist

/-- The null is there and the first layer's keys come first. -/
theorem mergeLayersWith_pointwise_null : ∃ (merged : Value) (p : Provenance),
    mergeLayersWith (.substitution ⟨false⟩) nullLayers = .ok (merged, p) ∧
      Pointwise nullLayers merged ∧ opinion merged ["a"] = some .null ∧
      keysAt merged [] = ["a", "b", "c"] := by
  have hdistinct : ∀ l ∈ nullLayers, l.2.Distinct := by decide
  have hdepth : ∀ l ∈ nullLayers, l.2.depth < maxDepth := by decide
  have hcheck : ((mergeLayersWith (T := Value) (.substitution ⟨false⟩) nullLayers).toOption.any
      fun result => decide (opinion result.1 ["a"] = some .null ∧
        keysAt result.1 [] = ["a", "b", "c"])) = true := by decide +kernel
  cases h : mergeLayersWith (T := Value) (.substitution ⟨false⟩) nullLayers with
  | error e =>
    rw [h] at hcheck
    cases hcheck
  | ok result =>
    obtain ⟨merged, p⟩ := result
    rw [h] at hcheck
    have hpointwise := (mergeLayersWith_pointwise hdistinct hdepth nullLayers_noList).2.2 merged p h
      (List.cons_ne_nil _ _)
    exact ⟨merged, p, rfl, hpointwise, of_decide_eq_true hcheck⟩

end Guatiao.Merge
