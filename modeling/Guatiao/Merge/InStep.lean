import Guatiao.Merge.Built
import Guatiao.Merge.Tracked

/-!
# The record in step with the merge

One layer merged in keeps the record following the merged value, unless the merge does
one of the things the walk over claims does not see: lays a map or a list over an empty
one, folds a list of maps into a map, or adds to a list by uniting it.
-/

namespace Guatiao.Merge

open Lib Provenance

/-- The simple mode in force at every place, as it is below a simple list. -/
def Context.simply (ctx : Context) : Context := { ctx with mode := .simple, overrides := [] }

/-- Merging a later value into an earlier one at a place comes to something the record
does not see. -/
inductive Slips : Context → List String → Value → Value → Prop
  | emptyMap {ctx : Context} {path : List String} {later : List Entry} :
      Slips ctx path (.map []) (.map later)
  | emptyList {ctx : Context} {path : List String} {later : List Value}
      (hmode : ctx.modeAt path = .simple) : Slips ctx path (.list []) (.list later)
  | absorbs {ctx : Context} {path : List String} {earlier : List Entry} {later : List Value}
      (hmode : ctx.modeAt path ≠ .simple) : Slips ctx path (.map earlier) (.list later)
  | unites {ctx : Context} {path : List String} {earlier later : List Value} {item : Value}
      (hmode : ctx.modeAt path = .deep) (hearlier : earlier ≠ []) (hitem : item ∈ later)
      (hnew : item.asMap.isSome ∨ item ∉ earlier) : Slips ctx path (.list earlier) (.list later)
  | entry {ctx : Context} {path : List String} {earlier later : List Entry} {key : String}
      {e l : Value} (hmode : ctx.modeAt path ≠ .simple) (he : AssocList.get key earlier = some e)
      (hl : AssocList.get key later = some l) (h : Slips ctx (path ++ [key]) e l) :
      Slips ctx path (.map earlier) (.map later)
  | item {ctx : Context} {path : List String} {earlier later : List Value} {at_ : ℕ}
      {e l : Value} (hmode : ctx.modeAt path = .simple) (he : earlier[at_]? = some e)
      (hl : later[at_]? = some l) (h : Slips ctx.simply (path ++ [toString at_]) e l) :
      Slips ctx path (.list earlier) (.list later)

/-- Entries with the owners beneath them. -/
private def owning (o : Owned) (entries : List Entry) : List (String × Owned) :=
  entries.map fun p => (p.1, o.under p.1 p.2)

theorem get_owning (o : Owned) (entries : List Entry) (key : String) :
    AssocList.get key (owning o entries) = (AssocList.get key entries).map (o.under key) := by
  unfold owning
  induction entries with
  | nil => rfl
  | cons p rest ih =>
    simp only [List.map_cons, AssocList.get, ih]
    split
    · next h =>
      subst h
      rfl
    · rfl

theorem keys_owning (o : Owned) (entries : List Entry) :
    AssocList.keys (owning o entries) = AssocList.keys entries := by
  simp [owning, AssocList.keys, Function.comp_def]

theorem getElem?_indexedFrom {α : Type*} (items : List α) (start at_ : ℕ) :
    (indexedFrom start items)[at_]? = (items[at_]?).map fun v => (toString (start + at_), v) := by
  induction items generalizing start at_ with
  | nil => rfl
  | cons v rest ih =>
    cases at_ with
    | zero => rfl
    | succ at_ => simp [indexedFrom, ih, Nat.add_right_comm, Nat.add_assoc]

/-- Items with the owners beneath them. -/
private def owningItems (o : Owned) (items : List Value) : List Owned :=
  (indexed items).map fun p => o.under p.1 p.2

theorem getElem?_owningItems (o : Owned) (items : List Value) (at_ : ℕ) :
    (owningItems o items)[at_]? = (items[at_]?).map (o.under (toString at_)) := by
  rw [owningItems, List.getElem?_map, indexed, getElem?_indexedFrom, Option.map_map, Nat.zero_add]
  rfl

section Step

variable {ctx : Context} {exact : Prop} {p : Provenance} {simple : Bool} {path : List String}
  {label : String}

theorem tracked_entries {later : Owned} {entries : List (String × Owned)}
    (hlen : path.length < maxDepth) (hne : entries ≠ []) (hget : p.get path = none)
    (hchild : ∀ key o, AssocList.get key entries = some o →
      Tracked ctx exact p (simple || ctx.modeAt path == .simple) (path ++ [key]) o)
    (hothers : ∀ key, AssocList.get key entries = none →
      ∀ k, path ++ [key] <+: k → p.get k = none) :
    Tracked ctx exact p simple path (Node.withEntries later entries) := by
  have hchildren : ∀ key, AssocList.get key (children (Node.withEntries later entries).value) =
      (AssocList.get key entries).map Owned.value := fun key =>
    AssocList.get_mapValues Owned.value key entries
  refine .split hlen ?_ hget (fun key c hc => ?_) fun key hnone => ?_
  · cases entries with
    | nil => exact absurd rfl hne
    | cons => exact List.cons_ne_nil _ _
  · rw [hchildren] at hc
    obtain ⟨o, ho, rfl⟩ := Option.map_eq_some_iff.mp hc
    refine (hchild key o ho).congr rfl fun rest _ => ?_
    change Owned.gather _ entries (key :: rest) = _
    rw [Owned.gather, ho]
    rfl
  · rw [hchildren, Option.map_eq_none_iff] at hnone
    exact hothers key hnone

theorem tracked_items {later : Owned} {items : List Owned} (hlen : path.length < maxDepth)
    (hne : items ≠ []) (hget : p.get path = none)
    (hchild : ∀ (at_ : ℕ) o, items[at_]? = some o →
      Tracked ctx exact p (simple || ctx.modeAt path == .simple) (path ++ [toString at_]) o)
    (hothers : ∀ key, AssocList.get key (indexed items) = none →
      ∀ k, path ++ [key] <+: k → p.get k = none) :
    Tracked ctx exact p simple path (Node.withItems later items) := by
  have hchildren : ∀ key, AssocList.get key (children (Node.withItems later items).value) =
      (AssocList.get key (indexed items)).map Owned.value := by
    intro key
    rw [← AssocList.get_mapValues, indexed, ← indexedFrom_map]
    rfl
  refine .split hlen ?_ hget (fun key c hc => ?_) fun key hnone => ?_
  · cases items with
    | nil => exact absurd rfl hne
    | cons => exact List.cons_ne_nil _ _
  · rw [hchildren] at hc
    obtain ⟨o, ho, rfl⟩ := Option.map_eq_some_iff.mp hc
    obtain ⟨at_, rfl, hat⟩ := eq_of_get_indexed ho
    refine (hchild at_ o hat).congr rfl fun rest _ => ?_
    change Owned.gather _ (indexed items) (toString at_ :: rest) = _
    rw [Owned.gather, ho]
    rfl
  · rw [hchildren, Option.map_eq_none_iff] at hnone
    exact hothers key hnone

variable {o : Owned} {levels : ℕ} {owner : List String → String}

theorem Tracked.inside (h : Tracked ctx exact p simple path o)
    (hlen : path.length < maxDepth) (hbelow : children o.value ≠ [])
    (hunited : simple = true ∨ ctx.modeAt path ≠ .deep ∨ ∀ items, o.value ≠ .list items) :
    p.get path = none ∧
      (∀ segment c, AssocList.get segment (children o.value) = some c →
        Tracked ctx exact p (simple || ctx.modeAt path == .simple) (path ++ [segment])
          (o.under segment c)) ∧
      ∀ segment, AssocList.get segment (children o.value) = none →
        ∀ k, path ++ [segment] <+: k → p.get k = none := by
  cases h with
  | absent habsent =>
    rw [habsent] at hbelow
    exact absurd rfl hbelow
  | leaf hleaf =>
    rw [not_isLeaf hbelow] at hleaf
    cases hleaf
  | uniform _ hwhere =>
    rcases hwhere with hdeep | ⟨hsimple, hmode, items, hitems⟩
    · omega
    · rcases hunited with h | h | h
      · rw [hsimple] at h
        cases h
      · exact absurd hmode h
      · exact absurd hitems (h items)
  | split _ _ hget hchild hothers => exact ⟨hget, hchild, hothers⟩

/-- Changes beneath a followed container, each following what is built under its segment,
leave all that is built followed. -/
theorem tracked_children {zone : Bool} {γ : Type}
    {changes : List (String × γ)} {change : String × γ → Provenance → Provenance}
    {out : List (String × Owned)} (hget : p.get path = none)
    (hchild : ∀ segment c, AssocList.get segment (children o.value) = some c →
      Tracked ctx exact p zone (path ++ [segment]) (o.under segment c))
    (hothers : ∀ segment, AssocList.get segment (children o.value) = none →
      ∀ k, path ++ [segment] <+: k → p.get k = none)
    (hchange : ∀ e, Within (path ++ [e.1]) (change e)) (hnodup : (AssocList.keys changes).Nodup)
    (hnew : ∀ e ∈ changes, ∃ o', AssocList.get e.1 out = some o' ∧
      ∀ p', Agree (path ++ [e.1]) p p' → Tracked ctx exact (change e p') zone (path ++ [e.1]) o')
    (hold : ∀ key, key ∉ AssocList.keys changes →
      AssocList.get key out = (AssocList.get key (children o.value)).map (o.under key) ∨
        AssocList.get key (children o.value) = none ∧
          ∃ o', AssocList.get key out = some o' ∧ o'.value = .absent) :
    (changes.foldl (fun p e => change e p) p).get path = none ∧
      (∀ key o', AssocList.get key out = some o' →
        Tracked ctx exact (changes.foldl (fun p e => change e p) p) zone (path ++ [key]) o') ∧
      ∀ key, AssocList.get key out = none →
        ∀ k, path ++ [key] <+: k → (changes.foldl (fun p e => change e p) p).get k = none := by
  have hagree : ∀ key, key ∉ AssocList.keys changes →
      Agree (path ++ [key]) p (changes.foldl (fun p e => change e p) p) := by
    intro key hkey k hk
    symm
    refine get_foldl_beneath hchange changes p fun s hs h => hkey ?_
    rwa [← child_prefix_ne h hk]
  refine ⟨?_, fun key o' ho' => ?_, fun key hnone k hk => ?_⟩
  · exact (get_foldl_beneath hchange changes p fun s _ h => not_child_prefix_self h).trans hget
  · by_cases hkey : key ∈ AssocList.keys changes
    · obtain ⟨e, he, rfl⟩ := List.mem_map.mp hkey
      obtain ⟨p', hbefore, hafter⟩ := foldl_beneath hchange hnodup p he
      obtain ⟨o'', ho'', htracked⟩ := hnew e he
      rw [ho'] at ho''
      cases ho''
      exact (htracked p' hbefore).frame hafter
    · rcases hold key hkey with heq | ⟨hnone, o'', ho'', habsent⟩
      · rw [ho'] at heq
        obtain ⟨c, hc, rfl⟩ := Option.map_eq_some_iff.mp heq.symm
        exact (hchild key c hc).frame (hagree key hkey)
      · rw [ho'] at ho''
        cases ho''
        refine .absent habsent fun k hk => ?_
        exact (hagree key hkey k hk).symm.trans (hothers key hnone k hk)
  · by_cases hkey : key ∈ AssocList.keys changes
    · obtain ⟨e, he, rfl⟩ := List.mem_map.mp hkey
      obtain ⟨o', ho', -⟩ := hnew e he
      rw [hnone] at ho'
      cases ho'
    · rcases hold key hkey with heq | ⟨-, o', ho', -⟩
      · rw [hnone] at heq
        have hchildnone := Option.map_eq_none_iff.mp heq.symm
        exact (hagree key hkey k hk).symm.trans (hothers key hchildnone k hk)
      · rw [hnone] at ho'
        cases ho'

/-- The items of a list under the texts of their positions, each with its position. -/
private def positions (items : List Value) : List (String × Value × ℕ) :=
  items.zipIdx.map fun q => (toString q.2, q)

theorem keys_positions (items : List Value) :
    AssocList.keys (positions items) = AssocList.keys (indexed items) := by
  have hfrom : ∀ (items : List Value) (start : ℕ),
      (items.zipIdx start).map (fun q => toString q.2) =
        AssocList.keys (indexedFrom start items) := by
    intro items
    induction items with
    | nil => exact fun _ => rfl
    | cons v rest ih =>
      intro start
      rw [List.zipIdx_cons, List.map_cons, ih, indexedFrom, AssocList.keys_cons]
  rw [positions, AssocList.keys, List.map_map]
  exact hfrom items 0

theorem mem_positions {items : List Value} {e : String × Value × ℕ} :
    e ∈ positions items ↔ e.1 = toString e.2.2 ∧ items[e.2.2]? = some e.2.1 := by
  obtain ⟨key, v, at_⟩ := e
  simp only [positions, List.mem_map, List.mem_zipIdx_iff_getElem?, Prod.mk.injEq, Prod.exists]
  constructor
  · rintro ⟨w, at', hget, rfl, rfl, rfl⟩
    exact ⟨rfl, hget⟩
  · rintro ⟨rfl, hget⟩
    exact ⟨v, at_, hget, rfl, rfl, rfl⟩

/-- One position of a simple list, claimed as it is merged. -/
private def recordItem (label : String) (levels : ℕ) (path : List String)
    (earlierItems : List Value) (e : String × Value × ℕ) : Provenance → Provenance :=
  match earlierItems[e.2.2]? with
  | some earlierItem => recordSimple label levels (path ++ [e.1]) earlierItem e.2.1
  | none => replace label levels (path ++ [e.1]) e.2.1

theorem recordSimple_list (levels : ℕ) (earlierItems items : List Value) :
    recordSimple label (levels + 1) path (.list earlierItems) (.list items) p =
      (positions items).foldl (fun p e => recordItem label levels path earlierItems e p) p := by
  rw [positions, List.foldl_map]
  change List.foldl _ _ _ = _
  congr 1
  funext p ⟨item, index⟩
  simp only [recordItem]
  cases earlierItems[index]? <;> rfl

theorem within_recordSimple (levels : ℕ) (path : List String) (earlier later : Value) :
    Within path (recordSimple label levels path earlier later) := by
  induction levels generalizing path earlier later with
  | zero => exact fun _ _ _ => rfl
  | succ levels ih =>
    intro p k hk
    have hreplace := within_replace label (levels + 1) path later p k hk
    cases later with
    | absent => rfl
    | map entries =>
      cases earlier with
      | map earlierEntries =>
        exact within_foldl_beneath
          (fun e : Entry => within_replace label levels (path ++ [e.1]) e.2) _ p k hk
      | _ => exact hreplace
    | list items =>
      cases earlier with
      | list earlierItems =>
        rw [recordSimple_list]
        refine within_foldl_beneath (fun e => ?_) _ p k hk
        unfold recordItem
        split
        · exact ih _ _ _
        · exact within_replace _ _ _ _
      | _ => exact hreplace
    | _ => cases earlier <;> exact hreplace

theorem ne_nil_of_get {key : String} {out : List (String × Owned)}
    (h : AssocList.get key out = some o) : out ≠ [] := by
  rintro rfl
  cases h

/-- A map laid over another key by key is recorded. -/
theorem tracked_simpleEntries
    {earlier later : List Entry} (hlen : path.length + (levels + 1) = maxDepth)
    (hne : earlier ≠ []) (hlater : (Value.map later).Distinct)
    (hshallow : exact → ShallowFrom (levels + 1) (.map later))
    (htracked : Tracked ctx exact p simple path ⟨.map earlier, owner⟩) :
    Tracked ctx exact ((later.filter fun q => q.2.tag != .absent).foldl
        (fun p e => replace label levels (path ++ [e.1]) e.2 p) p) simple path
      (Node.withEntries (Node.layer label (.map later))
        (replaceEntries (owning ⟨.map earlier, owner⟩ earlier)
          (owning (Node.layer label (.map later)) later))) := by
  have hlt : path.length < maxDepth := by omega
  obtain ⟨hget, hchild, hothers⟩ := htracked.inside hlt hne (.inr (.inr fun _ h => nomatch h))
  obtain ⟨hnodup, hvalues⟩ := Value.distinct_map.mp hlater
  generalize hout : replaceEntries (owning ⟨.map earlier, owner⟩ earlier)
    (owning (Node.layer label (.map later)) later) = out
  have hgetout : ∀ key, AssocList.get key out =
      match AssocList.get key later with
      | some v =>
        if v.tag = .absent ∧ (AssocList.get key earlier).isSome then
          (AssocList.get key earlier).map ((⟨.map earlier, owner⟩ : Owned).under key)
        else some (Node.layer label v)
      | none => (AssocList.get key earlier).map ((⟨.map earlier, owner⟩ : Owned).under key) := by
    intro key
    rw [← hout, get_replaceEntries (by rwa [keys_owning]), get_owning, get_owning]
    cases AssocList.get key later with
    | none => rfl
    | some v =>
      rw [Option.map_some, Option.isSome_map]
      rfl
  obtain ⟨k, v, hkv⟩ : ∃ k v, AssocList.get k earlier = some v := by
    obtain ⟨⟨k, v⟩, hmem⟩ := List.exists_mem_of_ne_nil _ hne
    have := AssocList.get_isSome_iff.mpr (AssocList.key_mem hmem)
    exact ⟨k, Option.isSome_iff_exists.mp this⟩
  have houtne : out ≠ [] := by
    have hk := hgetout k
    rw [hkv] at hk
    split at hk
    · split at hk <;> exact ne_nil_of_get hk
    · exact ne_nil_of_get hk
  have hnew : ∀ e ∈ later.filter fun q => q.2.tag != .absent, ∃ o',
      AssocList.get e.1 out = some o' ∧ ∀ p', Agree (path ++ [e.1]) p p' → Tracked ctx exact
        (replace label levels (path ++ [e.1]) e.2 p') (simple || ctx.modeAt path == .simple)
        (path ++ [e.1]) o' := by
    intro e he
    obtain ⟨he, htag⟩ := List.mem_filter.mp he
    have hlatere : AssocList.get e.1 later = some e.2 := AssocList.get_of_mem hnodup he
    refine ⟨Node.layer label e.2, ?_, fun p' _ => ?_⟩
    · rw [hgetout, hlatere]
      exact if_neg fun h => by simp [h.1] at htag
    · refine tracked_replace ?_ (hvalues e.1 e.2 he) fun h => (hshallow h).child hlatere
      rw [List.length_append, List.length_singleton]
      omega
  have hold : ∀ key, key ∉ AssocList.keys (later.filter fun q => q.2.tag != .absent) →
      AssocList.get key out =
          (AssocList.get key earlier).map ((⟨.map earlier, owner⟩ : Owned).under key) ∨
        AssocList.get key earlier = none ∧
          ∃ o', AssocList.get key out = some o' ∧ o'.value = .absent := by
    intro key hkey
    rw [hgetout]
    cases hl : AssocList.get key later with
    | none => exact .inl rfl
    | some v =>
      have habsent : v.tag = .absent := by
        by_contra htag
        refine hkey (AssocList.key_mem (v := v) (List.mem_filter.mpr ⟨AssocList.mem_of_get hl, ?_⟩))
        simpa using htag
      cases he : AssocList.get key earlier with
      | some e => exact .inl (if_pos ⟨habsent, rfl⟩)
      | none =>
        refine .inr ⟨rfl, Node.layer label v, ?_, ?_⟩
        · exact if_neg fun h => Bool.false_ne_true h.2
        · cases v with
          | absent => rfl
          | _ => cases habsent
  obtain ⟨hget', hchild', hothers'⟩ := tracked_children hget hchild hothers
    (fun e : Entry => within_replace label levels (path ++ [e.1]) e.2)
    (hnodup.sublist (List.filter_sublist.map _)) hnew hold
  exact tracked_entries hlt houtne hget' hchild' hothers'

/-- A list laid over another position by position is recorded. -/
theorem tracked_simpleItems
    {earlier later : List Value} {out : List Owned} (hlen : path.length + (levels + 1) = maxDepth)
    (hzone : simple = true ∨ ctx.modeAt path = .simple) (hne : earlier ≠ [])
    (hlater : (Value.list later).Distinct) (hshallow : exact → ShallowFrom (levels + 1) (.list later))
    (htracked : Tracked ctx exact p simple path ⟨.list earlier, owner⟩)
    (hout : overwritePositionally (mergeSimple levels) (owningItems ⟨.list earlier, owner⟩ earlier)
      (owningItems (Node.layer label (.list later)) later) = .ok out)
    (hitem : ∀ (at_ : ℕ) e l merged p', earlier[at_]? = some e → later[at_]? = some l →
      Tracked ctx exact p' true (path ++ [toString at_])
    ((⟨.list earlier, owner⟩ : Owned).under (toString at_) e) →
      mergeSimple levels ((⟨.list earlier, owner⟩ : Owned).under (toString at_) e)
    (Node.layer label l) = .ok merged →
      Tracked ctx exact (recordSimple label levels (path ++ [toString at_]) e l p') true
    (path ++ [toString at_]) merged) :
    Tracked ctx exact
      ((positions later).foldl (fun p e => recordItem label levels path earlier e p) p) simple path
      (Node.withItems (Node.layer label (.list later)) out) := by
  have hlt : path.length < maxDepth := by omega
  have hflag : (simple || ctx.modeAt path == .simple) = true := by
    rcases hzone with h | h <;> simp [h]
  have hchildren : children (⟨.list earlier, owner⟩ : Owned).value = indexed earlier := rfl
  have hinside := htracked.inside hlt ?_ ?_
  · obtain ⟨hget, hchild, hothers⟩ := hinside
    rw [hflag] at hchild
    have hgetout := getElem?_overwritePositionally hout
    simp only [getElem?_owningItems] at hgetout
    have hnew : ∀ e ∈ positions later, ∃ o', AssocList.get e.1 (indexed out) = some o' ∧
        ∀ p', Agree (path ++ [e.1]) p p' →
          Tracked ctx exact (recordItem label levels path earlier e p') true (path ++ [e.1]) o' := by
      rintro ⟨key, l, at_⟩ he
      obtain ⟨hkey, hl⟩ := mem_positions.mp he
      dsimp only at hkey hl ⊢
      subst hkey
      have hgetat := hgetout at_
      rw [hl] at hgetat
      rw [get_indexed]
      cases hearlier : earlier[at_]? with
      | none =>
        rw [hearlier] at hgetat
        refine ⟨Node.layer label l, hgetat, fun p' _ => ?_⟩
        rw [recordItem]
        simp only [hearlier]
        refine tracked_replace ?_ (Value.distinct_list.mp hlater l (List.mem_of_getElem? hl))
          fun h => (hshallow h).child ((get_indexed later at_).trans hl)
        rw [List.length_append, List.length_singleton]
        omega
      | some e =>
        rw [hearlier] at hgetat
        obtain ⟨merged, hmerged, hmergedat⟩ := hgetat
        refine ⟨merged, hmergedat, fun p' hagree => ?_⟩
        rw [recordItem]
        simp only [hearlier]
        refine hitem at_ e l merged p' hearlier hl ?_ hmerged
        exact (hchild _ e ((get_indexed earlier at_).trans hearlier)).frame hagree
    have hold : ∀ key, key ∉ AssocList.keys (positions later) →
        AssocList.get key (indexed out) =
          (AssocList.get key (indexed earlier)).map ((⟨.list earlier, owner⟩ : Owned).under key) ∨
        AssocList.get key (indexed earlier) = none ∧
          ∃ o', AssocList.get key (indexed out) = some o' ∧ o'.value = .absent := by
      intro key hkey
      left
      rw [keys_positions, ← AssocList.get_isSome_iff, Bool.not_eq_true, Option.isSome_eq_false_iff,
        Option.isNone_iff_eq_none] at hkey
      by_cases hat : ∃ at_ : ℕ, key = toString at_
      · obtain ⟨at_, rfl⟩ := hat
        have hgetat := hgetout at_
        rw [get_indexed] at hkey
        rw [hkey] at hgetat
        rw [get_indexed, get_indexed]
        cases hearlier : earlier[at_]? with
        | none =>
          rw [hearlier] at hgetat
          exact hgetat
        | some e =>
          rw [hearlier] at hgetat
          exact hgetat
      · have hnone : ∀ {α : Type} (items : List α), AssocList.get key (indexed items) = none := by
          intro α items
          cases hget : AssocList.get key (indexed items) with
          | none => rfl
          | some v =>
            obtain ⟨at_, h, -⟩ := eq_of_get_indexed hget
            exact absurd ⟨at_, h⟩ hat
        rw [hnone, hnone]
        rfl
    have houtne : out ≠ [] := by
      obtain ⟨e, rest, rfl⟩ := List.exists_cons_of_ne_nil hne
      have hgetat := hgetout 0
      rintro rfl
      cases hl : later[0]? with
      | none =>
        rw [hl] at hgetat
        cases hgetat
      | some l =>
        rw [hl] at hgetat
        obtain ⟨c, -, hc⟩ := hgetat
        cases hc
    have hchange : ∀ e, Within (path ++ [e.1]) (recordItem label levels path earlier e) := by
      intro e
      unfold recordItem
      split
      · exact within_recordSimple _ _ _ _
      · exact within_replace _ _ _ _
    have hnodup : (AssocList.keys (positions later)).Nodup := by
      rw [keys_positions]
      exact children_nodup hlater
    obtain ⟨hget', hchild', hothers'⟩ := tracked_children hget hchild hothers hchange hnodup hnew hold
    refine tracked_items hlt houtne hget' (fun at_ o ho => ?_) hothers'
    rw [hflag]
    exact hchild' _ o ((get_indexed out at_).trans ho)
  · rw [hchildren]
    obtain ⟨e, rest, rfl⟩ := List.exists_cons_of_ne_nil hne
    exact List.cons_ne_nil _ _
  · rcases hzone with h | h
    · exact .inl h
    · exact .inr (.inl (by simp [h]))

theorem tracked_simple {c : Context} {earlier merged : Owned} {later : Value}
    (hlen : path.length + levels = maxDepth) (hzone : simple = true ∨ ctx.modeAt path = .simple)
    (hc : c.modeAt path = .simple) (hslip : ¬Slips c path earlier.value later)
    (hearlier : earlier.value.Distinct) (hlater : later.Distinct)
    (hshallow : exact → ShallowFrom levels later) (htracked : Tracked ctx exact p simple path earlier)
    (hmerged : mergeSimple levels earlier (Node.layer label later) = .ok merged) :
    Tracked ctx exact (recordSimple label levels path earlier.value later p) simple path merged := by
  induction levels generalizing p simple path c earlier merged later with
  | zero => cases hmerged
  | succ levels ih =>
    have hlt : path.length < maxDepth := by omega
    have hreplace : Tracked ctx exact (replace label (levels + 1) path later p) simple path
        (Node.layer label later) := tracked_replace hlen hlater hshallow
    have hchildlen : ∀ s : String, (path ++ [s]).length + levels = maxDepth := by
      intro s
      rw [List.length_append, List.length_singleton]
      omega
    obtain ⟨value, owner⟩ := earlier
    cases later with
    | absent =>
      cases hmerged
      exact htracked
    | map laterEntries =>
      cases value with
      | map earlierEntries =>
        have hne : earlierEntries ≠ [] := by
          rintro rfl
          exact hslip .emptyMap
        obtain ⟨hget, hchild, hothers⟩ := htracked.inside hlt hne (.inr (.inr fun _ h => nomatch h))
        cases hmerged
        exact tracked_simpleEntries hlen hne hlater hshallow htracked
      | _ =>
        cases hmerged
        exact hreplace
    | list laterItems =>
      cases value with
      | list earlierItems =>
        have hne : earlierItems ≠ [] := by
          rintro rfl
          exact hslip (.emptyList hc)
        obtain ⟨out, hout, hmerged⟩ := bind_eq_ok hmerged
        cases hmerged
        rw [recordSimple_list]
        refine tracked_simpleItems hlen hzone hne hlater hshallow htracked hout
          fun at_ e l merged p' he hl htracked hmerged => ?_
        refine ih (hchildlen _) (.inl rfl) (c := c.simply) rfl ?_ ?_ ?_ ?_ htracked hmerged
        · exact fun hslips => hslip (.item hc he hl hslips)
        · exact Value.distinct_list.mp hearlier e (List.mem_of_getElem? he)
        · exact Value.distinct_list.mp hlater l (List.mem_of_getElem? hl)
        · exact fun h => (hshallow h).child ((get_indexed laterItems at_).trans hl)
      | _ =>
        cases hmerged
        exact hreplace
    | _ =>
      cases value <;> cases hmerged <;> exact hreplace

/-- One key of a recursive map, claimed as it is merged. -/
private def recordEntry (ctx : Context) (label : String) (levels : ℕ) (path : List String)
    (earlier : List Entry) (e : Entry) : Provenance → Provenance :=
  match AssocList.get e.1 earlier with
  | some earlierChild => recordClaims ctx label levels (path ++ [e.1]) earlierChild e.2
  | none => replace label levels (path ++ [e.1]) e.2

theorem recordClaims_map (hmode : ctx.modeAt path ≠ .simple) (levels : ℕ)
    (earlier later : List Entry) :
    recordClaims ctx label (levels + 1) path (.map earlier) (.map later) p =
      later.foldl (fun p e => recordEntry ctx label levels path earlier e p) p := by
  rw [recordClaims, if_neg (fun h => nomatch h), if_neg hmode]
  congr 1
  funext p ⟨key, v⟩
  simp only [recordEntry]
  cases AssocList.get key earlier <;> rfl

theorem recordClaims_absent {later : Value} (habsent : later.tag = .absent) (levels : ℕ)
    (earlier : Value) : recordClaims ctx label levels path earlier later p = p := by
  cases levels with
  | zero => rfl
  | succ levels =>
    unfold recordClaims
    exact if_pos habsent

theorem recordClaims_simple (hmode : ctx.modeAt path = .simple) (levels : ℕ)
    (earlier later : Value) : recordClaims ctx label levels path earlier later p =
      recordSimple label levels path earlier later p := by
  cases levels with
  | zero => rfl
  | succ levels =>
    unfold recordClaims
    by_cases habsent : later.tag = .absent
    · rw [if_pos habsent]
      unfold recordSimple
      exact (if_pos habsent).symm
    · rw [if_neg habsent, if_pos hmode]

theorem recordClaims_replace (hmode : ctx.modeAt path ≠ .simple) {earlier later : Value}
    (habsent : later.tag ≠ .absent) (hmap : earlier.asMap = none ∨ later.asMap = none)
    (hlist : earlier.asList = none ∨ later.asList = none) (levels : ℕ) :
    recordClaims ctx label (levels + 1) path earlier later p =
      replace label (levels + 1) path later p := by
  unfold recordClaims
  rw [if_neg habsent, if_neg hmode]
  split
  · rcases hmap with h | h <;> cases h
  · rcases hlist with h | h <;> cases h
  · rfl

theorem recordClaims_list (hmode : ctx.modeAt path ≠ .simple) (levels : ℕ)
    (earlier later : List Value) :
    recordClaims ctx label (levels + 1) path (.list earlier) (.list later) p =
      if ctx.modeAt path = .deep ∧ ¬earlier.isEmpty then p
      else replace label (levels + 1) path (.list later) p := by
  rw [recordClaims, if_neg (fun h => nomatch h), if_neg hmode]

theorem within_recordClaims (ctx : Context) (levels : ℕ) (path : List String)
    (earlier later : Value) : Within path (recordClaims ctx label levels path earlier later) := by
  induction levels generalizing path earlier later with
  | zero => exact fun _ _ _ => rfl
  | succ levels ih =>
    intro p k hk
    have hreplace := within_replace label (levels + 1) path later p k hk
    by_cases habsent : later.tag = .absent
    · rw [recordClaims_absent habsent]
    · by_cases hmode : ctx.modeAt path = .simple
      · rw [recordClaims_simple hmode]
        exact within_recordSimple _ _ _ _ p k hk
      · by_cases hmaps : earlier.asMap = none ∨ later.asMap = none
        · by_cases hlists : earlier.asList = none ∨ later.asList = none
          · rw [recordClaims_replace hmode habsent hmaps hlists]
            exact hreplace
          · cases earlier with
            | list earlierItems =>
              cases later with
              | list items =>
                rw [recordClaims_list hmode]
                split
                · rfl
                · exact hreplace
              | _ => exact absurd (.inr rfl) hlists
            | _ => exact absurd (.inl rfl) hlists
        · cases earlier with
          | map earlierEntries =>
            cases later with
            | map entries =>
              rw [recordClaims_map hmode]
              refine within_foldl_beneath (fun e => ?_) _ p k hk
              unfold recordEntry
              split
              · exact ih _ _ _
              · exact within_replace _ _ _ _
            | _ => exact absurd (.inr rfl) hmaps
          | _ => exact absurd (.inl rfl) hmaps

/-- What merges a level down is recorded when it does not slip. -/
def Recorded (ctx : Context) (exact : Prop) (label : String) (levels : ℕ)
    (merge : Step Owned) : Prop :=
  ∀ (p : Provenance) (path : List String) (earlier merged : Owned) (later : Value),
    path.length + levels = maxDepth → ¬Slips ctx path earlier.value later →
    earlier.value.Distinct → later.Distinct → (exact → ShallowFrom levels later) →
    Tracked ctx exact p false path earlier →
    merge path earlier (Node.layer label later) = .ok merged →
    Tracked ctx exact (recordClaims ctx label levels path earlier.value later p) false path merged

/-- A map merged into another key by key is recorded. -/
theorem tracked_maps {one : Step Owned}
    (hone : Recorded ctx exact label levels one) {merged : Owned}
    {earlier later : List Entry} (hlen : path.length + (levels + 1) = maxDepth)
    (hmode : ctx.modeAt path ≠ .simple) (hslip : ¬Slips ctx path (.map earlier) (.map later))
    (hearlier : (Value.map earlier).Distinct) (hlater : (Value.map later).Distinct)
    (hshallow : exact → ShallowFrom (levels + 1) (.map later))
    (htracked : Tracked ctx exact p false path ⟨.map earlier, owner⟩)
    (hmerged : mergeMaps one path (⟨.map earlier, owner⟩ : Owned)
      (Node.layer label (.map later)) = .ok merged) :
    Tracked ctx exact (later.foldl (fun p e => recordEntry ctx label levels path earlier e p) p)
      false path merged := by
  have hlt : path.length < maxDepth := by omega
  have hne : earlier ≠ [] := by
    rintro rfl
    exact hslip .emptyMap
  have hflag : (false || ctx.modeAt path == .simple) = false := by simpa using hmode
  have hchildlen : ∀ s : String, (path ++ [s]).length + levels = maxDepth := by
    intro s
    rw [List.length_append, List.length_singleton]
    omega
  obtain ⟨hget, hchild, hothers⟩ := htracked.inside hlt hne (.inr (.inr fun _ h => nomatch h))
  rw [hflag] at hchild
  obtain ⟨out, hout, hmerged⟩ := bind_eq_ok hmerged
  cases hmerged
  obtain ⟨hnodup, hvalues⟩ := Value.distinct_map.mp hlater
  obtain ⟨hearliernodup, hearliervalues⟩ := Value.distinct_map.mp hearlier
  change mergeMapsRecursively _ (owning ⟨.map earlier, owner⟩ earlier)
    (owning (Node.layer label (.map later)) later) = _ at hout
  have hgetout := get_mergeMapsRecursively hout (by rwa [keys_owning]) (by rwa [keys_owning])
  simp only [get_owning] at hgetout
  have hnew : ∀ e ∈ later, ∃ o', AssocList.get e.1 out = some o' ∧
      ∀ p', Agree (path ++ [e.1]) p p' → Tracked ctx exact
        (recordEntry ctx label levels path earlier e p') false (path ++ [e.1]) o' := by
    rintro ⟨key, l⟩ hmem
    have hl : AssocList.get key later = some l := AssocList.get_of_mem hnodup hmem
    have hgetkey := hgetout key
    rw [hl] at hgetkey
    unfold recordEntry
    dsimp only
    cases he : AssocList.get key earlier with
    | none =>
      rw [he] at hgetkey
      refine ⟨Node.layer label l, hgetkey, fun p' _ => ?_⟩
      exact tracked_replace (hchildlen key) (hvalues key l hmem) fun h => (hshallow h).child hl
    | some e =>
      rw [he] at hgetkey
      obtain ⟨m, hm, hmergedkey⟩ := hgetkey
      refine ⟨m, hmergedkey, fun p' hagree => ?_⟩
      exact hone p' (path ++ [key]) _ m l (hchildlen key) (fun h => hslip (.entry hmode he hl h))
        (hearliervalues key e (AssocList.mem_of_get he)) (hvalues key l hmem)
        (fun h => (hshallow h).child hl) ((hchild key e he).frame hagree) hm
  have hold : ∀ key, key ∉ AssocList.keys later →
      AssocList.get key out =
          (AssocList.get key earlier).map ((⟨.map earlier, owner⟩ : Owned).under key) ∨
        AssocList.get key earlier = none ∧
          ∃ o', AssocList.get key out = some o' ∧ o'.value = .absent := by
    intro key hkey
    left
    have hl : AssocList.get key later = none := AssocList.get_eq_none_iff.mpr hkey
    have hgetkey := hgetout key
    rw [hl] at hgetkey
    cases he : AssocList.get key earlier with
    | none =>
      rw [he] at hgetkey
      exact hgetkey
    | some e =>
      rw [he] at hgetkey
      exact hgetkey
  have houtne : out ≠ [] := by
    obtain ⟨⟨k, e⟩, hmem⟩ := List.exists_mem_of_ne_nil _ hne
    have hgetkey := hgetout k
    rw [AssocList.get_of_mem hearliernodup hmem] at hgetkey
    cases hl : AssocList.get k later with
    | none =>
      rw [hl] at hgetkey
      exact ne_nil_of_get hgetkey
    | some l =>
      rw [hl] at hgetkey
      obtain ⟨m, -, hm⟩ := hgetkey
      exact ne_nil_of_get hm
  have hchange : ∀ e : Entry, Within (path ++ [e.1]) (recordEntry ctx label levels path earlier e) := by
    intro e
    unfold recordEntry
    split
    · exact within_recordClaims _ _ _ _ _
    · exact within_replace _ _ _ _
  obtain ⟨hget', hchild', hothers'⟩ := tracked_children hget hchild hothers hchange hnodup hnew hold
  refine tracked_entries hlt houtne hget' ?_ hothers'
  rw [hflag]
  exact hchild'

/-- A list united with an empty one is recorded: all of it is the later's. -/
theorem tracked_unites {below : Step Owned} {later : List Value}
    {out : List Owned} (hlen : path.length + (levels + 1) = maxDepth)
    (hmode : ctx.modeAt path = .deep) (hdeep : ¬exact) (hlater : (Value.list later).Distinct)
    (hout : unionLists ctx.options below path [] (owningItems (Node.layer label (.list later)) later) =
      .ok out) :
    Tracked ctx exact (replace label (levels + 1) path (.list later) p) false path
      (Node.withItems (Node.layer label (.list later)) out) := by
  have hclaimed : Tracked ctx False (replace label (levels + 1) path (.list later) p) false path
      (Node.layer label (.list later)) := tracked_replace hlen hlater False.elim
  have hmem : ∀ o ∈ out, ∃ v ∈ later, o = Node.layer label v := by
    intro o ho
    obtain ⟨at_, hat⟩ := List.mem_iff_getElem?.mp (mem_unionLists_nil hout ho)
    rw [getElem?_owningItems] at hat
    obtain ⟨v, hv, rfl⟩ := Option.map_eq_some_iff.mp hat
    exact ⟨v, List.mem_of_getElem? hv, rfl⟩
  have hgetout : ∀ {key c}, AssocList.get key
      (children (Node.withItems (Node.layer label (.list later)) out : Owned).value) = some c →
      ∃ v ∈ later, AssocList.get key (indexed out) = some (Node.layer label v) ∧ c = v := by
    intro key c hc
    change AssocList.get key (indexedFrom 0 (out.map Owned.value)) = some c at hc
    rw [indexedFrom_map, AssocList.get_mapValues] at hc
    obtain ⟨o, ho, rfl⟩ := Option.map_eq_some_iff.mp hc
    obtain ⟨at_, rfl, hat⟩ := eq_of_get_indexed ho
    obtain ⟨v, hv, rfl⟩ := hmem o (List.mem_of_getElem? hat)
    exact ⟨v, hv, ho, rfl⟩
  refine .uniform label (.inr ⟨rfl, hmode, out.map Owned.value, rfl⟩) hdeep ?_ ?_ ?_
  · intro rest hrest
    cases rest with
    | nil => rfl
    | cons key rest =>
      obtain ⟨c, hc, -⟩ := hrest
      obtain ⟨v, -, hget, -⟩ := hgetout hc
      change Owned.gather _ (indexed out) (key :: rest) = _
      rw [Owned.gather, hget]
      rfl
  · refine label_of_claim fun k l hk hget => ?_
    rw [get_forgetSubtree, if_pos hk] at hget
    cases hget
  · -- A leaf of the union is one of the later's items, whose leaves are recorded.
    have hsome : ∀ rest, LeafAt (.list later) rest →
        ∃ k l, path <+: k ∧ (replace label (levels + 1) path (.list later) p).get k = some l := by
      intro rest hrest
      obtain ⟨above, habove, -, -, -, k, l, hk, hget⟩ := hclaimed.attributed hrest
      exact ⟨k, l, habove.trans hk, hget⟩
    intro rest hrest
    cases rest with
    | nil =>
      cases hout' : out with
      | cons o out =>
        rw [hout'] at hrest
        cases hrest
      | nil =>
        refine hsome [] ?_
        cases later with
        | nil => rfl
        | cons v later => exact absurd hout' (unionLists_nil_ne_nil hout (List.cons_ne_nil _ _))
    | cons key rest =>
      obtain ⟨c, hc, hrest⟩ := hrest
      obtain ⟨v, hv, -, rfl⟩ := hgetout hc
      obtain ⟨at_, hat⟩ := List.mem_iff_getElem?.mp hv
      exact hsome (toString at_ :: rest) ⟨c, (get_indexed later at_).trans hat, hrest⟩

theorem unites_nothing {below : Step Owned}
    {earlier later : List Value} (hmode : ctx.modeAt path = .deep) (hne : earlier ≠ [])
    (hslip : ¬Slips ctx path (.list earlier) (.list later)) :
    unionLists ctx.options below path (owningItems ⟨.list earlier, owner⟩ earlier)
        (owningItems (Node.layer label (.list later)) later) =
      .ok (owningItems ⟨.list earlier, owner⟩ earlier) := by
  refine unionLists_eq_self fun o ho => ?_
  obtain ⟨at_, hat⟩ := List.mem_iff_getElem?.mp ho
  rw [getElem?_owningItems] at hat
  obtain ⟨v, hv, rfl⟩ := Option.map_eq_some_iff.mp hat
  have hv := List.mem_of_getElem? hv
  refine ⟨?_, ?_⟩
  · cases hmap : v.asMap with
    | some entries => exact absurd (.unites hmode hne hv (.inl (by rw [hmap]; rfl))) hslip
    | none =>
      change (v.asMap.map _).isSome = false
      rw [hmap]
      rfl
  · by_cases hheld : v ∈ earlier
    · obtain ⟨at', hat'⟩ := List.mem_iff_getElem?.mp hheld
      refine List.any_eq_true.mpr ⟨(⟨.list earlier, owner⟩ : Owned).under (toString at') v, ?_, ?_⟩
      · refine List.mem_of_getElem? (i := at') ?_
        rw [getElem?_owningItems, hat']
        rfl
      · exact beq_iff_eq.mpr rfl
    · exact absurd (.unites hmode hne hv (.inr hheld)) hslip

theorem tracked_relabelled {earlier : List Value} {later : Owned} (hne : earlier ≠ [])
    (htracked : Tracked ctx exact p simple path ⟨.list earlier, owner⟩) :
    Tracked ctx exact p simple path
      (Node.withItems later (owningItems ⟨.list earlier, owner⟩ earlier)) := by
  refine htracked.congr ?_ fun rest hrest => ?_
  · refine congrArg Value.list ?_
    rw [owningItems, List.map_map]
    exact indexedFrom_map_snd earlier 0
  · cases rest with
    | nil =>
      obtain ⟨e, rest, rfl⟩ := List.exists_cons_of_ne_nil hne
      cases hrest
    | cons key rest =>
      obtain ⟨c, hc, -⟩ := hrest
      obtain ⟨at_, rfl, hat⟩ := eq_of_get_indexed hc
      change Owned.gather _ (indexed (owningItems _ _)) (toString at_ :: rest) = _
      rw [Owned.gather, get_indexed, getElem?_owningItems, hat]
      rfl

/-- One merge step that does not slip is recorded. -/
theorem recorded_step {one two : Step Owned}
    (hexact : exact → ∀ path, ctx.modeAt path ≠ .deep) (hone : Recorded ctx exact label levels one) :
    Recorded ctx exact label (levels + 1) (mergeStep ctx (levels + 1) one two) := by
  intro p path earlier merged later hlen hslip hearlier hlater hshallow htracked hmerged
  have hreplace : Tracked ctx exact (replace label (levels + 1) path later p) false path
      (Node.layer label later) := tracked_replace hlen hlater hshallow
  by_cases habsent : later.tag = .absent
  · rw [recordClaims_absent habsent]
    unfold mergeStep at hmerged
    rw [if_pos (show kind (Node.layer label later : Owned) = .absent from habsent)] at hmerged
    cases hmerged
    exact htracked
  have hkind : kind (Node.layer label later : Owned) ≠ .absent := habsent
  by_cases hgone : kind earlier = .absent
  · -- Nothing was there: the later value stands, under any mode.
    have hvalue : earlier.value = .absent := by
      obtain ⟨value, owner⟩ := earlier
      cases value with
      | absent => rfl
      | _ => cases hgone
    unfold mergeStep at hmerged
    rw [if_neg hkind, if_pos hgone] at hmerged
    cases hmerged
    by_cases hmode : ctx.modeAt path = .simple
    · rw [recordClaims_simple hmode, hvalue]
      unfold recordSimple
      rw [if_neg habsent]
      exact hreplace
    · rw [recordClaims_replace hmode habsent (.inl (by rw [hvalue]; rfl)) (.inl (by rw [hvalue]; rfl))]
      exact hreplace
  · unfold mergeStep at hmerged
    rw [if_neg hkind, if_neg hgone] at hmerged
    by_cases hmode : ctx.modeAt path = .simple
    · rw [recordClaims_simple hmode]
      rw [hmode] at hmerged
      exact tracked_simple hlen (.inr hmode) hmode hslip hearlier hlater hshallow htracked hmerged
    · obtain ⟨value, owner⟩ := earlier
      -- Where either side is a scalar, or they differ, only a replacement succeeds.
      have hother : (value.asMap = none ∨ later.asMap = none) →
          (value.asList = none ∨ later.asList = none) → merged = Node.layer label later →
          Tracked ctx exact (recordClaims ctx label (levels + 1) path value later p) false path
            merged := by
        rintro hmaps hlists rfl
        rw [recordClaims_replace hmode habsent hmaps hlists]
        exact hreplace
      cases hm : ctx.modeAt path with
      | simple => exact absurd hm hmode
      | substitute =>
        rw [hm] at hmerged
        cases value with
        | map earlierEntries =>
          cases later with
          | map laterEntries =>
            rw [recordClaims_map hmode]
            exact tracked_maps hone hlen hmode hslip hearlier hlater hshallow htracked hmerged
          | list laterItems => exact absurd (.absorbs hmode) hslip
          | _ => cases hmerged
        | list earlierItems =>
          cases later with
          | map => cases hmerged
          | list laterItems =>
            cases hmerged
            rw [recordClaims_list hmode, if_neg fun h => by rw [hm] at h; exact nomatch h.1]
            exact hreplace
          | _ =>
            cases hmerged
            exact hother (.inl rfl) (.inr rfl) rfl
        | _ =>
          cases later with
          | map => cases hmerged
          | _ =>
            cases hmerged
            exact hother (.inl rfl) (.inl rfl) rfl
      | deep =>
        rw [hm] at hmerged
        have hdeep : ¬exact := fun h => hexact h path hm
        cases value with
        | map earlierEntries =>
          cases later with
          | map laterEntries =>
            rw [recordClaims_map hmode]
            exact tracked_maps hone hlen hmode hslip hearlier hlater hshallow htracked hmerged
          | list laterItems => exact absurd (.absorbs hmode) hslip
          | _ =>
            cases hmerged
            exact hother (.inr rfl) (.inl rfl) rfl
        | list earlierItems =>
          cases later with
          | map => cases hmerged
          | list laterItems =>
            rw [recordClaims_list hmode]
            obtain ⟨out, hout, hmerged⟩ := bind_eq_ok hmerged
            cases hmerged
            change unionLists ctx.options two path (owningItems ⟨.list earlierItems, owner⟩
              earlierItems) (owningItems (Node.layer label (.list laterItems)) laterItems) = _ at hout
            by_cases hne : earlierItems = []
            · subst hne
              rw [if_neg (by simp)]
              exact tracked_unites hlen hm hdeep hlater hout
            · rw [if_pos ⟨hm, by simpa using hne⟩]
              rw [unites_nothing hm hne hslip] at hout
              cases hout
              exact tracked_relabelled hne htracked
          | _ =>
            cases hmerged
            exact hother (.inl rfl) (.inr rfl) rfl
        | null =>
          cases hmerged
          exact hother (.inl rfl) (.inl rfl) rfl
        | _ =>
          cases later with
          | map => cases hmerged
          | list => cases hmerged
          | _ =>
            cases hmerged
            exact hother (.inl rfl) (.inl rfl) rfl

theorem recorded_mergeValue (hexact : exact → ∀ path, ctx.modeAt path ≠ .deep)
    (levels : ℕ) : Recorded ctx exact label levels (mergeValue ctx levels) := by
  induction levels using Nat.strongRecOn with
  | ind levels ih =>
    match levels with
    | 0 =>
      intro p path earlier merged later _ _ _ _ _ _ hmerged
      cases hmerged
    | 1 => exact recorded_step hexact (ih 0 (by omega))
    | levels + 2 => exact recorded_step hexact (ih (levels + 1) (by omega))

end Step

end Guatiao.Merge
