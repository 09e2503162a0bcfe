import Guatiao.Merge.Built
import Guatiao.Merge.Declared
import Guatiao.Merge.Tracked
import Mathlib.Data.Finset.Max

/-!
# Declared modes govern

A mode that merges maps key by key looks each place's own mode up, so it lets a declaration
govern its place however deep, and every other place is merged as if nothing were declared.
The shallow mode copies what it replaces and looks nothing up below.
-/

namespace Guatiao.Merge

open Lib Schema

/-- What a mode's rule gives for two values at a place, the declarations below it applying, when so
many levels are left below. -/
def ruled (ctx : Context) (mode : MergeMode) (levels : ℕ) : Step Value := fun path earlier later =>
  match mode with
  | .simple => mergeSimple (levels + 1) earlier later
  | .substitute =>
    mergeSubstitute (mergeValue ctx levels) (mergeValue ctx (levels - 1)) path earlier later
  | .deep =>
    mergeDeep ctx.options (mergeValue ctx levels) (mergeValue ctx (levels - 1)) path earlier later

/-- The call's mode without the declarations. -/
def Context.alone (ctx : Context) : Context := { ctx with overrides := [] }

/-- A value of whose maps on the way to a place only the entries that lead there are left. -/
def only : List String → Value → Value
  | key :: rest, .map entries =>
    .map ((entries.filter fun e => e.1 = key).map fun e => (e.1, only rest e.2))
  | _, v => v

/-- Both values hold maps at every place on the way to one. -/
def MapsAbove (path : List String) (earlier later : Value) : Prop :=
  ∀ front, front <+: path → front ≠ path →
    (∃ entries, nodeAt earlier front = some (.map entries)) ∧
      ∃ entries, nodeAt later front = some (.map entries)

/-- What merging two values comes to where modes are declared. -/
structure Governed (ctx : Context) (earlier later merged : Value) : Prop where
  /-- A declared mode governs its place, where no place above it declares the shallow one. -/
  declared : ∀ path mode e l, AssocList.get path ctx.overrides = some mode →
    (∀ front, front <+: path → front ≠ path →
      AssocList.get front ctx.overrides ≠ some .simple) →
    MapsAbove path earlier later → nodeAt earlier path = some e → nodeAt later path = some l →
    e ≠ .absent → l ≠ .absent →
    ∃ levels r, ruled ctx mode levels path e l = .ok r ∧ nodeAt merged path = some r
  /-- A place with no declaration at, above or under it is merged as the call's mode merges it. -/
  others : ∀ path, (∀ declared ∈ AssocList.keys ctx.overrides,
      ¬declared <+: path ∧ ¬path <+: declared) →
    MapsAbove path earlier later →
    ∃ alone, mergeWith ctx.alone (only path earlier) (only path later) = .ok alone ∧
      nodeAt merged path = nodeAt alone path

variable {earlier later : Value} {es : List Entry} {ctx : Context}

theorem MapsAbove.cons {key : String} {rest : List String} (h : MapsAbove (key :: rest) earlier later) :
    ∃ es ls, earlier = .map es ∧ later = .map ls ∧
      ∀ e l, AssocList.get key es = some e → AssocList.get key ls = some l → MapsAbove rest e l := by
  obtain ⟨⟨es, hes⟩, ls, hls⟩ := h [] List.nil_prefix (by simp)
  rw [nodeAt, Option.some.injEq] at hes hls
  refine ⟨es, ls, hes, hls, fun e l he hl front hfront hne => ?_⟩
  have hbelow := h (key :: front) (List.cons_prefix_cons.mpr ⟨rfl, hfront⟩) (by simpa using hne)
  simpa only [hes, hls, nodeAt, children, he, hl, Option.bind_some] using hbelow

theorem keys_nodup (h : (Value.map es).Distinct) : (AssocList.keys es).Nodup :=
  children_nodup h

theorem filter_key (hnodup : (AssocList.keys es).Nodup) (key : String) :
    es.filter (fun e => e.1 = key) = ((AssocList.get key es).map fun v => (key, v)).toList := by
  induction es with
  | nil => rfl
  | cons p rest ih =>
    obtain ⟨k, v⟩ := p
    rw [AssocList.keys_cons, List.nodup_cons] at hnodup
    by_cases hk : k = key
    · subst hk
      have hnone : AssocList.get k rest = none := AssocList.get_eq_none_iff.mpr hnodup.1
      simp [AssocList.get, ih hnodup.2, hnone]
    · simp [AssocList.get, hk, ih hnodup.2]

theorem only_map (hnodup : (AssocList.keys es).Nodup) (key : String) (rest : List String) :
    only (key :: rest) (.map es) =
      .map ((AssocList.get key es).map fun v => (key, only rest v)).toList := by
  rw [only, filter_key hnodup]
  cases AssocList.get key es <;> rfl

theorem nodeAt_only (path : List String) {v : Value} (h : v.Distinct) :
    nodeAt (only path v) path = nodeAt v path := by
  induction path generalizing v with
  | nil => simp [only]
  | cons key rest ih =>
    cases v with
    | map es =>
      rw [only_map (keys_nodup h)]
      simp only [nodeAt, children]
      cases hv : AssocList.get key es with
      | none => rfl
      | some v =>
        simp only [Option.map_some, Option.toList_some, AssocList.get, if_true, Option.bind_some]
        exact ih (child_distinct h hv)
    | _ => rfl

section Alike

variable {ctx ctx' : Context} {one one' two two' : Step Value} {path : List String}

/-- Two steps are the same at every place below one. -/
def Alike (path : List String) (one one' : Step Value) : Prop :=
  ∀ rest, rest ≠ [] → one (path ++ rest) = one' (path ++ rest)

theorem Alike.below (h : Alike path one one') (segment : String) : Alike (path ++ [segment]) one one' := by
  intro rest _
  rw [List.append_assoc]
  exact h ([segment] ++ rest) (by simp)

theorem mergeMaps_congr (h : Alike path one one') (earlier later : Value) :
    mergeMaps one path earlier later = mergeMaps one' path earlier later := by
  have hchild : (fun key => one (path ++ [key])) = fun key => one' (path ++ [key]) :=
    funext fun key => h [key] (by simp)
  rw [mergeMaps, mergeMaps, hchild]

theorem absorbListOfMaps_congr (h : Alike path two two') (mode : MergeMode) (items : List Value)
    (result : Value) :
    absorbListOfMaps mode two path result items = absorbListOfMaps mode two' path result items := by
  induction items generalizing result with
  | nil => rfl
  | cons item rest ih =>
    simp only [absorbListOfMaps, mergeMaps_congr h, ih]

theorem unionLists_congr (h : Alike path two two') (options : MergeOptions)
    (earlier later : List Value) :
    unionLists options two path earlier later = unionLists options two' path earlier later := by
  have hmaps : (fun at_ => mergeMaps two (path ++ [at_])) = fun at_ => mergeMaps two' (path ++ [at_]) :=
    funext fun at_ => funext fun e => funext fun l => mergeMaps_congr (h.below at_) e l
  simp only [unionLists, hmaps]

theorem mergeStep_congr (hmode : ctx.modeAt path = ctx'.modeAt path)
    (hoptions : ctx.options = ctx'.options) (hone : Alike path one one') (htwo : Alike path two two')
    (levels : ℕ) : mergeStep ctx levels one two path = mergeStep ctx' levels one' two' path := by
  funext earlier later
  simp only [mergeStep, hmode, hoptions, mergeSubstitute, mergeDeep, mergeMaps_congr hone,
    absorbListOfMaps_congr htwo, unionLists_congr htwo]

theorem mergeValue_congr (hoptions : ctx.options = ctx'.options) (levels : ℕ) {path : List String}
    (hmode : ∀ rest, ctx.modeAt (path ++ rest) = ctx'.modeAt (path ++ rest)) :
    mergeValue (T := Value) ctx levels path = mergeValue ctx' levels path := by
  induction levels using Nat.strongRecOn generalizing path with
  | ind levels ih =>
    have hhere : ctx.modeAt path = ctx'.modeAt path := by
      have := hmode []
      rwa [List.append_nil] at this
    have hbelow : ∀ m < levels, Alike path (mergeValue ctx m) (mergeValue ctx' m) := by
      intro m hm rest _
      apply ih m hm
      intro more
      rw [List.append_assoc]
      exact hmode (rest ++ more)
    match levels with
    | 0 => rfl
    | 1 => exact mergeStep_congr hhere hoptions (fun _ _ => rfl) (fun _ _ => rfl) 1
    | levels + 2 =>
      exact mergeStep_congr hhere hoptions (hbelow (levels + 1) (by omega)) (hbelow levels (by omega)) _

end Alike

section Down

variable {ctx : Context} {levels : ℕ} {path : List String}

theorem mergeValue_succ (ctx : Context) (levels : ℕ) :
    mergeValue (T := Value) ctx (levels + 1) =
      mergeStep ctx (levels + 1) (mergeValue ctx levels) (mergeValue ctx (levels - 1)) := by
  cases levels with
  | zero => rfl
  | succ levels => rfl

theorem mergeValue_maps {es ls : List Entry} (hmode : ctx.modeAt path ≠ .simple) :
    mergeValue ctx (levels + 1) path (.map es) (.map ls) =
      (mergeMapsRecursively (fun key => mergeValue ctx levels (path ++ [key])) es ls).map Value.map := by
  rw [mergeValue_succ, mergeStep]
  have hkind : ∀ entries : List Entry, kind (Value.map entries) = Tag.map := fun _ => rfl
  simp only [hkind, reduceCtorEq, if_false]
  cases hat : ctx.modeAt path with
  | simple => exact absurd hat hmode
  | substitute => rfl
  | deep => rfl

theorem exists_child {es ls : List Entry} {merged : Value} (hmode : ctx.modeAt path ≠ .simple)
    (hes : (AssocList.keys es).Nodup) (hls : (AssocList.keys ls).Nodup)
    (h : mergeValue ctx levels path (.map es) (.map ls) = .ok merged) :
    ∃ below out, levels = below + 1 ∧ merged = .map out ∧ ∀ key,
      match AssocList.get key es, AssocList.get key ls with
      | some e, some l => ∃ c, mergeValue ctx below (path ++ [key]) e l = .ok c ∧
          AssocList.get key out = some c
      | some e, none => AssocList.get key out = some e
      | none, l => AssocList.get key out = l := by
  cases levels with
  | zero => cases h
  | succ below =>
    rw [mergeValue_maps hmode] at h
    cases hout : mergeMapsRecursively (fun key => mergeValue ctx below (path ++ [key])) es ls with
    | error e =>
      rw [hout] at h
      cases h
    | ok out =>
      rw [hout] at h
      cases h
      refine ⟨below, out, rfl, rfl, fun key => ?_⟩
      have hkey := get_mergeMapsRecursively hout hes hls key
      cases he : AssocList.get key es <;> cases hl : AssocList.get key ls <;>
        simpa only [he, hl] using hkey

theorem exists_mergeValue_at {rest : List String} {earlier later merged e l : Value}
    (hearlier : earlier.Distinct) (hlater : later.Distinct)
    (h : mergeValue ctx levels path earlier later = .ok merged)
    (hmode : ∀ front, front <+: rest → front ≠ rest → ctx.modeAt (path ++ front) ≠ .simple)
    (hmaps : MapsAbove rest earlier later) (he : nodeAt earlier rest = some e)
    (hl : nodeAt later rest = some l) :
    ∃ below r, mergeValue ctx below (path ++ rest) e l = .ok r ∧ nodeAt merged rest = some r := by
  induction rest generalizing levels path earlier later merged with
  | nil =>
    rw [nodeAt, Option.some.injEq] at he hl
    rw [List.append_nil, ← he, ← hl]
    exact ⟨levels, merged, h, rfl⟩
  | cons key rest ih =>
    obtain ⟨es, ls, rfl, rfl, hbelow⟩ := hmaps.cons
    simp only [nodeAt, children, Option.bind_eq_some_iff] at he hl
    obtain ⟨ec, hec, he⟩ := he
    obtain ⟨lc, hlc, hl⟩ := hl
    have hhere : ctx.modeAt path ≠ .simple := by
      have := hmode [] List.nil_prefix (by simp)
      rwa [List.append_nil] at this
    obtain ⟨below, out, -, rfl, hout⟩ :=
      exists_child hhere (keys_nodup hearlier) (keys_nodup hlater) h
    have hkey := hout key
    rw [hec, hlc] at hkey
    obtain ⟨c, hc, hget⟩ := hkey
    have hmode' : ∀ front, front <+: rest → front ≠ rest →
        ctx.modeAt (path ++ [key] ++ front) ≠ .simple := by
      intro front hfront hne
      rw [List.append_assoc]
      exact hmode (key :: front) (List.cons_prefix_cons.mpr ⟨rfl, hfront⟩) (by simpa using hne)
    obtain ⟨below', r, hr, hnode⟩ := ih (child_distinct hearlier hec) (child_distinct hlater hlc) hc
      hmode' (hbelow ec lc hec hlc) he hl
    rw [List.append_assoc] at hr
    refine ⟨below', r, hr, ?_⟩
    simp only [nodeAt, children, hget, Option.bind_some, hnode]

theorem ruled_of_mergeValue {e l r : Value} (he : e ≠ .absent) (hl : l ≠ .absent)
    (h : mergeValue ctx levels path e l = .ok r) :
    ∃ below, ruled ctx (ctx.modeAt path) below path e l = .ok r := by
  have hkind : ∀ {v : Value}, v ≠ .absent → kind v ≠ .absent := by
    intro v hv
    cases v <;> simp_all [kind, Node.value, Value.tag]
  cases levels with
  | zero => cases h
  | succ below =>
    rw [mergeValue_succ, mergeStep, if_neg (hkind hl), if_neg (hkind he)] at h
    refine ⟨below, ?_⟩
    unfold ruled
    cases hat : ctx.modeAt path <;> simpa only [hat] using h

end Down

section Alone

variable {ctx : Context} {levels : ℕ} {path rest : List String}

theorem modeAt_of_not_mem (h : path ∉ AssocList.keys ctx.overrides) : ctx.modeAt path = ctx.mode := by
  rw [Context.modeAt, AssocList.get_eq_none_iff.mpr h, Option.getD_none]

theorem mergeMapsRecursively_single (child : String → Value → Value → Except MergeError Value)
    (key : String) (e l : Option Value) :
    mergeMapsRecursively child (e.map fun v => (key, v)).toList (l.map fun v => (key, v)).toList =
      match e, l with
      | some e, some l => (child key e l).map fun c => [(key, c)]
      | some e, none => .ok [(key, e)]
      | none, l => .ok (l.map fun v => (key, v)).toList := by
  cases e with
  | none =>
    cases l <;> simp [mergeMapsRecursively, mergeKept, mergeNew, AssocList.contains, AssocList.get,
      AssocList.set, pure, Except.pure, bind, Except.bind]
  | some e =>
    cases l with
    | none =>
      simp [mergeMapsRecursively, mergeKept, mergeNew, AssocList.get, AssocList.set, pure, Except.pure,
        bind, Except.bind]
    | some l =>
      cases hc : child key e l <;>
        simp [mergeMapsRecursively, mergeKept, mergeNew, AssocList.contains, AssocList.get,
          AssocList.set, pure, Except.pure, bind, Except.bind, Except.map, hc]

/-- Nothing declared is at, above or under a place. -/
def Clear (ctx : Context) (path : List String) : Prop :=
  ∀ declared ∈ AssocList.keys ctx.overrides, ¬declared <+: path ∧ ¬path <+: declared

theorem Clear.modeAt_above (h : Clear ctx (path ++ rest)) {front : List String}
    (hfront : front <+: rest) : ctx.modeAt (path ++ front) = ctx.mode :=
  modeAt_of_not_mem fun hmem => (h _ hmem).1 ((List.prefix_append_right_inj path).mpr hfront)

theorem Clear.modeAt_below (h : Clear ctx path) (more : List String) :
    ctx.modeAt (path ++ more) = ctx.mode :=
  modeAt_of_not_mem fun hmem => (h _ hmem).2 (List.prefix_append ..)

/-- A place nothing is declared for is merged as by itself, and by the call's mode alone. -/
theorem exists_alone (hmode : ctx.mode ≠ .simple) {earlier later merged : Value}
    (hearlier : earlier.Distinct) (hlater : later.Distinct)
    (h : mergeValue ctx levels path earlier later = .ok merged) (hclear : Clear ctx (path ++ rest))
    (hmaps : MapsAbove rest earlier later) :
    ∃ alone, mergeValue ctx.alone levels path (only rest earlier) (only rest later) = .ok alone ∧
      nodeAt merged rest = nodeAt alone rest := by
  induction rest generalizing levels path earlier later merged with
  | nil =>
    refine ⟨merged, ?_, rfl⟩
    rw [List.append_nil] at hclear
    have hmodes : ∀ more, ctx.alone.modeAt (path ++ more) = ctx.modeAt (path ++ more) :=
      fun more => (hclear.modeAt_below more).symm
    simpa only [only, mergeValue_congr (show ctx.alone.options = ctx.options from rfl) levels hmodes]
      using h
  | cons key rest ih =>
    obtain ⟨es, ls, rfl, rfl, hbelow⟩ := hmaps.cons
    have hhere : ctx.modeAt path ≠ .simple := by
      have hat := hclear.modeAt_above (List.nil_prefix : [] <+: key :: rest)
      rw [List.append_nil] at hat
      rwa [hat]
    obtain ⟨below, out, rfl, rfl, hout⟩ :=
      exists_child hhere (keys_nodup hearlier) (keys_nodup hlater) h
    have hkey := hout key
    rw [only_map (keys_nodup hearlier), only_map (keys_nodup hlater)]
    rw [mergeValue_maps (show ctx.alone.modeAt path ≠ .simple from hmode)]
    have hsplit : ∀ v : Option Value, (v.map fun v => (key, only rest v)).toList =
        ((v.map (only rest)).map fun v => (key, v)).toList := by
      intro v
      rw [Option.map_map]
      rfl
    rw [hsplit, hsplit, mergeMapsRecursively_single]
    cases he : AssocList.get key es with
    | none =>
      rw [he] at hkey
      cases hl : AssocList.get key ls with
      | none =>
        rw [hl] at hkey
        refine ⟨.map [], rfl, ?_⟩
        simp [nodeAt, children, hkey]
      | some l =>
        rw [hl] at hkey
        refine ⟨.map [(key, only rest l)], rfl, ?_⟩
        simp only [nodeAt, children, hkey, AssocList.get, if_true, Option.bind_some]
        exact (nodeAt_only rest (child_distinct hlater hl)).symm
    | some e =>
      cases hl : AssocList.get key ls with
      | none =>
        rw [he, hl] at hkey
        refine ⟨.map [(key, only rest e)], rfl, ?_⟩
        simp only [nodeAt, children, hkey, AssocList.get, if_true, Option.bind_some]
        exact (nodeAt_only rest (child_distinct hearlier he)).symm
      | some l =>
        rw [he, hl] at hkey
        obtain ⟨c, hc, hget⟩ := hkey
        have hclear' : Clear ctx (path ++ [key] ++ rest) := by
          rw [List.append_assoc]
          exact hclear
        obtain ⟨alone, halone, hnode⟩ := ih (child_distinct hearlier he) (child_distinct hlater hl) hc
          hclear' (hbelow e l he hl)
        refine ⟨.map [(key, alone)], ?_, ?_⟩
        · simp only [Option.map_some, halone]
          rfl
        · simp only [nodeAt, children, hget, AssocList.get, if_true, Option.bind_some, hnode]

/-- The shallow mode merges what a key has in two maps as it merges the maps. -/
theorem exists_alone_simple (hmode : ctx.mode = .simple) (hnone : ctx.overrides = [])
    {earlier later merged : Value} (hearlier : earlier.Distinct) (hlater : later.Distinct)
    (h : mergeWith ctx earlier later = .ok merged) (hmaps : MapsAbove path earlier later) :
    ∃ alone, mergeWith ctx.alone (only path earlier) (only path later) = .ok alone ∧
      nodeAt merged path = nodeAt alone path := by
  have halone : ctx.alone = ctx := by
    unfold Context.alone
    rw [← hnone]
  rw [halone]
  cases path with
  | nil => exact ⟨merged, by simpa only [only] using h, rfl⟩
  | cons key rest =>
    obtain ⟨es, ls, rfl, rfl, -⟩ := hmaps.cons
    have hmerge : ∀ es ls : List Entry,
        mergeWith ctx (.map es) (.map ls) = .ok (.map (replaceEntries es ls)) := by
      intro es ls
      have hat : ctx.modeAt [] = .simple := by rw [Context.modeAt, hnone, ← hmode]; rfl
      rw [mergeWith, show maxDepth = 127 + 1 from rfl, mergeValue_succ, mergeStep, hat]
      rfl
    rw [hmerge, Except.ok.injEq] at h
    rw [← h, only_map (keys_nodup hearlier), only_map (keys_nodup hlater), hmerge]
    refine ⟨_, rfl, ?_⟩
    simp only [nodeAt, children]
    have hsingle : ∀ v : Option Value,
        (AssocList.keys (v.map fun v => (key, v)).toList).Nodup := by
      intro v
      cases v <;> simp
    have hsplit : ∀ v : Option Value, (v.map fun v => (key, only rest v)).toList =
        ((v.map (only rest)).map fun v => (key, v)).toList := by
      intro v
      rw [Option.map_map]
      rfl
    have hget : ∀ v : Option Value,
        AssocList.get key (v.map fun v => (key, v)).toList = v := by
      intro v
      cases v <;> simp [AssocList.get]
    rw [hsplit, hsplit, get_replaceEntries (keys_nodup hlater), get_replaceEntries (hsingle _), hget,
      hget]
    have hkind : ∀ v : Value, kind (only rest v) = Tag.absent ↔ kind v = Tag.absent := by
      intro v
      cases rest <;> cases v <;> simp [kind, Node.value, Value.tag, only]
    cases he : AssocList.get key es with
    | none =>
      cases hl : AssocList.get key ls with
      | none => rfl
      | some l =>
        simp [nodeAt_only rest (child_distinct hlater hl)]
    | some e =>
      cases hl : AssocList.get key ls with
      | none => simp [nodeAt_only rest (child_distinct hearlier he)]
      | some l =>
        by_cases habsent : kind l = Tag.absent
        · simp [habsent, hkind, nodeAt_only rest (child_distinct hearlier he)]
        · simp [habsent, hkind, nodeAt_only rest (child_distinct hlater hl)]

end Alone

theorem governed_of_ne (hmode : ctx.mode ≠ .simple) {merged : Value}
    (hearlier : earlier.Distinct) (hlater : later.Distinct)
    (h : mergeWith ctx earlier later = .ok merged) : Governed ctx earlier later merged where
  declared := by
    intro path mode e l hget hsimple hmaps he hl hne hnl
    have hmodes : ∀ front, front <+: path → front ≠ path → ctx.modeAt ([] ++ front) ≠ .simple := by
      intro front hfront hne
      rw [List.nil_append, Context.modeAt]
      cases hfound : AssocList.get front ctx.overrides with
      | none => exact hmode
      | some m =>
        rintro rfl
        exact hsimple front hfront hne hfound
    obtain ⟨below, r, hr, hnode⟩ := exists_mergeValue_at hearlier hlater h hmodes hmaps he hl
    rw [List.nil_append] at hr
    obtain ⟨levels, hruled⟩ := ruled_of_mergeValue hne hnl hr
    have hat : ctx.modeAt path = mode := by rw [Context.modeAt, hget, Option.getD_some]
    exact ⟨levels, r, hat ▸ hruled, hnode⟩
  others := fun _ hclear hmaps => exists_alone hmode hearlier hlater h hclear hmaps

theorem governed_of_nil (hnone : ctx.overrides = []) {merged : Value}
    (hearlier : earlier.Distinct) (hlater : later.Distinct)
    (h : mergeWith ctx earlier later = .ok merged) : Governed ctx earlier later merged := by
  by_cases hmode : ctx.mode = .simple
  · refine ⟨fun path mode e l hget => ?_, fun _ _ hmaps =>
      exists_alone_simple hmode hnone hearlier hlater h hmaps⟩
    rw [hnone] at hget
    cases hget
  · exact governed_of_ne hmode hearlier hlater h

theorem ne_nil_of_collectOverrides {levels : ℕ} {path : List String} {fields : List FieldRef}
    {before overrides : MergeOverrides} (h : collectOverrides levels path fields before = .ok overrides)
    (hbefore : [] ∉ AssocList.keys before) : [] ∉ AssocList.keys overrides := by
  induction levels generalizing path fields before overrides with
  | zero => cases h
  | succ levels ih =>
    rw [collectOverrides] at h
    induction fields generalizing before with
    | nil =>
      cases h
      exact hbefore
    | cons field rest ihrest =>
      rw [List.foldlM_cons] at h
      obtain ⟨mid, hmid, h⟩ := bind_eq_ok h
      refine ihrest h ?_
      cases hdeclared : declaredFor field with
      | none =>
        simp only [hdeclared] at hmid
        by_cases hobject : isObject field = true
        · rw [if_pos hobject] at hmid
          exact ih hmid hbefore
        · rw [if_neg hobject, Except.ok.injEq] at hmid
          rwa [← hmid]
      | some declared =>
        have hset : [] ∉ AssocList.keys (AssocList.set (path ++ [field.key]) declared.mode before) := by
          rw [AssocList.mem_keys_set]
          simp [hbefore]
        simp only [hdeclared] at hmid
        by_cases hobject : isObject field = true
        · rw [if_pos hobject] at hmid
          exact ih hmid hset
        · rw [if_neg hobject, Except.ok.injEq] at hmid
          rwa [← hmid]

theorem exists_anyMergelists {levels : ℕ} {path : List String} {fields : List FieldRef}
    {before overrides : MergeOverrides} (h : collectOverrides levels path fields before = .ok overrides) :
    ∃ any, anyMergelists levels fields = .ok any := by
  induction levels generalizing path fields before overrides with
  | zero => cases h
  | succ levels ih =>
    rw [collectOverrides] at h
    rw [anyMergelists]
    induction fields generalizing before with
    | nil => exact ⟨false, rfl⟩
    | cons field rest ihrest =>
      rw [List.foldlM_cons] at h
      obtain ⟨mid, hmid, h⟩ := bind_eq_ok h
      obtain ⟨anyRest, hrest⟩ := ihrest h
      have hfield : ∃ any, (if (declaredFor field).any (·.mergelists) then .ok true
          else if isObject field then anyMergelists levels field.kind.fields
          else .ok false : Except MergeError Bool) = .ok any := by
        split
        · exact ⟨true, rfl⟩
        · by_cases hobject : isObject field = true
          · simp only [hobject, if_true] at hmid ⊢
            exact ih hmid
          · simp only [hobject]
            exact ⟨false, rfl⟩
      obtain ⟨anyField, hany⟩ := hfield
      rw [List.anyM_cons, hany]
      cases anyField with
      | true => exact ⟨true, rfl⟩
      | false => exact ⟨anyRest, hrest⟩

/-- A value at a place, with nothing beside the way there. -/
def nest : List String → Value → Value
  | [], v => v
  | key :: rest, v => .map [(key, nest rest v)]

theorem nodeAt_nest (path : List String) (v : Value) : nodeAt (nest path v) path = some v := by
  induction path with
  | nil => rfl
  | cons key rest ih => simpa [nest, nodeAt, children, AssocList.get] using ih

theorem nest_distinct (path : List String) {v : Value} (h : v.Distinct) : (nest path v).Distinct := by
  induction path with
  | nil => exact h
  | cons key rest ih => exact Value.distinct_map.mpr ⟨by simp, by simpa using ih⟩

theorem mapsAbove_nest (path : List String) (v w : Value) :
    MapsAbove path (nest path v) (nest path w) := by
  have hmap : ∀ {path front : List String} (v : Value), front <+: path → front ≠ path →
      ∃ entries, nodeAt (nest path v) front = some (.map entries) := by
    intro path front v hfront hne
    induction path generalizing front with
    | nil => exact absurd (List.prefix_nil.mp hfront) hne
    | cons key rest ih =>
      cases front with
      | nil => exact ⟨_, rfl⟩
      | cons k front =>
        obtain ⟨rfl, hrest⟩ := List.cons_prefix_cons.mp hfront
        simpa [nest, nodeAt, children, AssocList.get] using ih hrest (by simpa using hne)
  exact fun front hfront hne => ⟨hmap v hfront hne, hmap w hfront hne⟩

theorem ruled_apart (ctx : Context) (mode : MergeMode) (levels : ℕ) (path : List String) :
    ruled ctx mode levels path (.map [("a", .null)]) (.map [("b", .null)]) =
      .ok (.map [("a", .null), ("b", .null)]) := by
  cases mode <;> rfl

theorem not_governed (hmode : ctx.mode = .simple) (hsome : ctx.overrides ≠ [])
    (hroot : [] ∉ AssocList.keys ctx.overrides) :
    ∃ earlier later merged : Value, earlier.Distinct ∧ later.Distinct ∧
      mergeWith ctx earlier later = .ok merged ∧ ¬Governed ctx earlier later merged := by
  have hkeys : (AssocList.keys ctx.overrides).toFinset.Nonempty := by
    rw [List.toFinset_nonempty_iff]
    simpa [AssocList.keys] using hsome
  -- A shortest place with a declaration has none above it.
  obtain ⟨path, hpath, hmin⟩ := Finset.exists_min_image _ List.length hkeys
  rw [List.mem_toFinset] at hpath
  obtain ⟨mode, hget⟩ := Option.isSome_iff_exists.mp (AssocList.get_isSome_iff.mpr hpath)
  have habove : ∀ front, front <+: path → front ≠ path →
      AssocList.get front ctx.overrides ≠ some .simple := by
    intro front hfront hne hsimple
    have hmem := hmin front (List.mem_toFinset.mpr
      (AssocList.get_isSome_iff.mp (Option.isSome_iff_exists.mpr ⟨_, hsimple⟩)))
    exact hne (hfront.eq_of_length_le hmem)
  have hdistinct : ∀ key : String, (Value.map [(key, .null)]).Distinct := by
    intro key
    exact Value.distinct_map.mpr ⟨by simp, by simp [Value.Distinct, Value.Everywhere]⟩
  refine ⟨nest path (.map [("a", .null)]), nest path (.map [("b", .null)]),
    nest path (.map [("b", .null)]), nest_distinct path (hdistinct "a"),
    nest_distinct path (hdistinct "b"), ?_, fun hgoverned => ?_⟩
  · cases path with
    | nil => exact absurd hpath hroot
    | cons key rest =>
      have hat : ctx.modeAt [] = .simple := (modeAt_of_not_mem hroot).trans hmode
      have hkind : kind (nest rest (.map [("b", .null)])) ≠ Tag.absent := by
        cases rest <;> simp [nest, kind, Node.value, Value.tag]
      rw [mergeWith, show maxDepth = 127 + 1 from rfl, mergeValue_succ, mergeStep, hat]
      change Except.ok (Value.map (replaceEntries [(key, nest rest _)] [(key, nest rest _)])) = _
      simp [replaceEntries, hkind, AssocList.set, nest]
  · obtain ⟨levels, r, hruled, hnode⟩ := hgoverned.declared path mode _ _ hget habove
      (mapsAbove_nest path _ _) (nodeAt_nest path _) (nodeAt_nest path _) (by simp) (by simp)
    rw [ruled_apart, Except.ok.injEq] at hruled
    rw [nodeAt_nest, Option.some.injEq, ← hruled] at hnode
    simp at hnode

/-- For a schema and a call's mode, declared modes govern every merge exactly where the mode is not the
shallow one, or nothing is declared. -/
theorem governed_iff (schema : SchemaRef) (mode : MergeMode) :
    (∀ earlier later merged : Value, earlier.Distinct → later.Distinct →
      mergeWithSchema schema mode earlier later = .ok merged →
      ∃ overrides options, mergeOverrides schema = .ok overrides ∧
        mergeOptions schema = .ok options ∧
        Governed ⟨mode, options, overrides⟩ earlier later merged) ↔
    (mode = .simple → ∀ overrides, mergeOverrides schema = .ok overrides → overrides = []) := by
  constructor
  · intro hall hmode overrides hoverrides
    by_contra hsome
    obtain ⟨any, hany⟩ := exists_anyMergelists hoverrides
    have hoptions : mergeOptions schema = .ok ⟨any⟩ := by
      rw [mergeOptions, hany]
      rfl
    obtain ⟨earlier, later, merged, hearlier, hlater, hmerged, hnot⟩ :=
      @not_governed ⟨mode, ⟨any⟩, overrides⟩ hmode hsome
        (ne_nil_of_collectOverrides hoverrides (by simp))
    have hwith : mergeWithSchema schema mode earlier later = .ok merged := by
      rw [mergeWithSchema, hoverrides, hoptions]
      exact hmerged
    obtain ⟨overrides', options', hoverrides', hoptions', hgoverned⟩ :=
      hall earlier later merged hearlier hlater hwith
    rw [hoverrides, Except.ok.injEq] at hoverrides'
    rw [hoptions, Except.ok.injEq] at hoptions'
    rw [← hoverrides', ← hoptions'] at hgoverned
    exact hnot hgoverned
  · intro hcond earlier later merged hearlier hlater h
    rw [mergeWithSchema] at h
    obtain ⟨overrides, hoverrides, h⟩ := bind_eq_ok h
    obtain ⟨options, hoptions, h⟩ := bind_eq_ok h
    refine ⟨overrides, options, hoverrides, hoptions, ?_⟩
    by_cases hmode : mode = .simple
    · exact governed_of_nil (hcond hmode overrides hoverrides) hearlier hlater h
    · exact governed_of_ne hmode hearlier hlater h

/-- The schema of one list, declared to be united. -/
def unitedTags : SchemaRef where
  value := .map [("properties", .map [("tags", .map [("type", .string "array"),
    ("items", .map [("type", .string "string")]), ("x-merge", .string "deep")])])]
  map := rfl

/-- A list declared to be united is replaced where the call's mode is the shallow one. -/
theorem united_list_replaced :
    ∃ earlier later merged : Value, mergeWithSchema unitedTags .simple earlier later = .ok merged ∧
      mergeOverrides unitedTags = .ok [(["tags"], .deep)] ∧
      nodeAt earlier ["tags"] = some (.list [.string "a"]) ∧
      nodeAt later ["tags"] = some (.list [.string "b"]) ∧
      nodeAt merged ["tags"] = some (.list [.string "b"]) ∧
      ¬Governed ⟨.simple, ⟨false⟩, [(["tags"], .deep)]⟩ earlier later merged := by
  refine ⟨.map [("tags", .list [.string "a"])], .map [("tags", .list [.string "b"])],
    .map [("tags", .list [.string "b"])], by rfl, by rfl, by rfl, by rfl, by rfl, fun hgoverned => ?_⟩
  have habove : ∀ front, front <+: ["tags"] → front ≠ ["tags"] → front = [] := by
    intro front hfront hne
    rcases List.prefix_cons_iff.mp hfront with hnil | ⟨rest, hcons, hrest⟩
    · exact hnil
    · rw [List.prefix_nil.mp hrest] at hcons
      exact absurd hcons hne
  obtain ⟨levels, r, hruled, hnode⟩ := hgoverned.declared ["tags"] .deep (.list [.string "a"])
    (.list [.string "b"]) rfl
    (by
      intro front hfront hne
      rw [habove front hfront hne]
      simp [AssocList.get])
    (by
      intro front hfront hne
      rw [habove front hfront hne]
      exact ⟨⟨_, rfl⟩, _, rfl⟩)
    rfl rfl (by simp) (by simp)
  have hdeep : ruled ⟨.simple, ⟨false⟩, [(["tags"], .deep)]⟩ .deep levels ["tags"]
      (.list [.string "a"]) (.list [.string "b"]) = .ok (.list [.string "a", .string "b"]) := rfl
  rw [hdeep, Except.ok.injEq] at hruled
  rw [← hruled] at hnode
  simp [nodeAt, children, AssocList.get] at hnode

end Guatiao.Merge
