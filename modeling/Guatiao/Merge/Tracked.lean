import Guatiao.Merge.Owners

/-!
# A record that follows its value

What a record must say of a value for its answers to be right: at each leaf the owner,
at each other container nothing. Where a value is claimed past the levels a walk goes, or
a list is the union of others, single leaves are not told apart, but the owner is one.
-/

namespace Guatiao.Merge

open Lib

/-- The node at a place. -/
def nodeAt : Value → List String → Option Value
  | v, [] => some v
  | v, segment :: rest => (AssocList.get segment (children v)).bind fun c => nodeAt c rest

/-- What is so many segments down is a leaf. -/
def ShallowFrom (levels : ℕ) (v : Value) : Prop :=
  ∀ rest w, rest.length = levels → nodeAt v rest = some w → isLeaf w = true

variable {v c : Value} {segment : String} {path rest : List String}

theorem depth_child_lt (h : AssocList.get segment (children v) = some c) : c.depth < v.depth := by
  cases v with
  | map entries =>
    have := Value.depthEntries_le.mp (Nat.le_refl _) _ _ (AssocList.mem_of_get h)
    exact Nat.lt_one_add_iff.mpr this
  | list items =>
    obtain ⟨at_, -, hat⟩ := eq_of_get_indexed h
    have := Value.depthItems_le.mp (Nat.le_refl _) _ (List.mem_of_getElem? hat)
    exact Nat.lt_one_add_iff.mpr this
  | _ => cases h

theorem shallowFrom_of_depth {levels : ℕ} (h : v.depth < levels) :
    ShallowFrom levels v := by
  have hlen : ∀ {rest : List String} {v w : Value}, nodeAt v rest = some w →
      rest.length ≤ v.depth := by
    intro rest
    induction rest with
    | nil => exact fun _ => Nat.zero_le _
    | cons segment rest ih =>
      intro v w hw
      rw [nodeAt, Option.bind_eq_some_iff] at hw
      obtain ⟨c, hc, hw⟩ := hw
      have := ih hw
      have := depth_child_lt hc
      rw [List.length_cons]
      omega
  intro rest w hrest hw
  have := hlen hw
  omega

theorem ShallowFrom.child {levels : ℕ}
    (h : ShallowFrom (levels + 1) v) (hc : AssocList.get segment (children v) = some c) :
    ShallowFrom levels c := by
  intro rest w hlen hw
  exact h (segment :: rest) w (by simp [hlen]) (by simp [nodeAt, hc, hw])

theorem keys_indexedFrom_nodup {α : Type*} (items : List α) (start : ℕ) :
    (AssocList.keys (indexedFrom start items)).Nodup := by
  induction items generalizing start with
  | nil => exact List.nodup_nil
  | cons v rest ih =>
    rw [indexedFrom, AssocList.keys_cons]
    refine List.nodup_cons.mpr ⟨fun hmem => ?_, ih (start + 1)⟩
    obtain ⟨⟨key, w⟩, hmem, hkey⟩ := List.mem_map.mp hmem
    obtain ⟨at_, heq⟩ := key_indexedFrom hmem
    dsimp only at hkey
    rw [heq] at hkey
    have := toString_inj hkey
    omega

theorem children_nodup (h : v.Distinct) : (AssocList.keys (children v)).Nodup := by
  cases v with
  | map entries => exact (Value.distinct_map.mp h).1
  | list items => exact keys_indexedFrom_nodup items 0
  | _ => exact List.nodup_nil

theorem child_distinct (h : v.Distinct)
    (hc : AssocList.get segment (children v) = some c) : c.Distinct := by
  cases v with
  | map entries => exact (Value.distinct_map.mp h).2 _ _ (AssocList.mem_of_get hc)
  | list items =>
    obtain ⟨at_, -, hat⟩ := eq_of_get_indexed hc
    exact Value.distinct_list.mp h c (List.mem_of_getElem? hat)
  | _ => cases hc

theorem isLeaf_of_children (habsent : v.tag ≠ .absent) (h : children v = []) :
    isLeaf v = true := by
  cases v with
  | absent => exact absurd rfl habsent
  | map entries =>
    cases entries with
    | nil => rfl
    | cons => cases h
  | list items =>
    cases items with
    | nil => rfl
    | cons => cases h
  | _ => rfl

theorem not_isLeaf (h : children v ≠ []) : isLeaf v = false := by
  cases v with
  | map entries =>
    cases entries with
    | nil => exact absurd rfl h
    | cons => rfl
  | list items =>
    cases items with
    | nil => exact absurd rfl h
    | cons => rfl
  | _ => exact absurd rfl h

theorem child_prefix_ne {s t : String} (hs : path ++ [s] <+: rest) (ht : path ++ [t] <+: rest) : s = t := by
  obtain ⟨u, hu⟩ := hs
  obtain ⟨w, hw⟩ := ht
  rw [← hw, List.append_assoc, List.append_assoc] at hu
  have := List.append_cancel_left hu
  simp only [List.singleton_append, List.cons.injEq] at this
  exact this.1

theorem not_child_prefix_self {s : String} :
    ¬path ++ [s] <+: path := by
  intro h
  have := h.length_le
  simp at this

theorem prefix_child (s : String) (h : path ++ [s] <+: rest) : path <+: rest :=
  (List.prefix_append path [s]).trans h

theorem prefix_cases (h : path <+: rest) :
    rest = path ∨ ∃ s, path ++ [s] <+: rest := by
  obtain ⟨tail, rfl⟩ := h
  cases tail with
  | nil => exact .inl (List.append_nil path)
  | cons s tail => exact .inr ⟨s, by simp⟩

namespace Provenance

/-- Two records say the same at and under a place. -/
def Agree (path : List String) (p p' : Provenance) : Prop :=
  ∀ k, path <+: k → p.get k = p'.get k

/-- A change touches only what is at or under a place. -/
def Within (path : List String) (f : Provenance → Provenance) : Prop :=
  ∀ p k, ¬path <+: k → (f p).get k = p.get k

theorem get_foldl_erase (leaves : List (List String)) (p : Provenance) (k : List String) :
    (leaves.foldl (fun p leaf => p.retain fun k => decide (k ≠ leaf)) p).get k =
      if k ∈ leaves then none else p.get k := by
  induction leaves generalizing p with
  | nil => simp
  | cons leaf rest ih =>
    rw [List.foldl_cons, ih, SortedMap.get_retain]
    by_cases hk : k = leaf <;> by_cases hrest : k ∈ rest <;> simp [hk, hrest]

variable {path : List String}

theorem mem_scan {p : Provenance} {k : List String} {label : String} :
    (k, label) ∈ p.scan path (fun k => path.isPrefixOf k) ↔ path <+: k ∧ p.get k = some label := by
  rw [SortedMap.mem_scan_iff]
  · simp
  · exact fun k h => SortedMap.prefix_le (List.isPrefixOf_iff_prefix.mp h)
  · intro k l hk hkl hl
    exact List.isPrefixOf_iff_prefix.mpr
      (SortedMap.prefix_of_le hk hkl (List.isPrefixOf_iff_prefix.mp hl))

theorem get_forgetSubtree (path : List String) (p : Provenance) (k : List String) :
    (forgetSubtree path p).get k = if path <+: k then none else p.get k := by
  rw [forgetSubtree, get_foldl_erase]
  by_cases hstarts : path <+: k
  · rw [if_pos hstarts]
    split
    · rfl
    · next hnot =>
      cases hget : p.get k with
      | none => rfl
      | some label =>
        exact absurd (List.mem_map.mpr ⟨(k, label), mem_scan.mpr ⟨hstarts, hget⟩, rfl⟩) hnot
  · rw [if_neg hstarts, if_neg]
    intro hmem
    obtain ⟨⟨k', label⟩, hscan, rfl⟩ := List.mem_map.mp hmem
    exact hstarts (mem_scan.mp hscan).1

theorem within_forgetSubtree (path : List String) : Within path (forgetSubtree path) := by
  intro p k hk
  rw [get_forgetSubtree, if_neg hk]

theorem Within.comp {f g : Provenance → Provenance} (hf : Within path f)
    (hg : Within path g) : Within path fun p => f (g p) :=
  fun p k hk => (hf (g p) k hk).trans (hg p k hk)

theorem within_insert (path : List String) (label : String) :
    Within path fun p => p.insert path label := by
  intro p k hk
  refine SortedMap.get_insert_of_ne ?_ label p
  rintro rfl
  exact hk (List.prefix_refl _)

section Fold

variable {γ : Type} {path : List String} {change : String × γ → Provenance → Provenance}
  (hchange : ∀ e, Within (path ++ [e.1]) (change e))
include hchange

theorem get_foldl_beneath (below : List (String × γ)) (p : Provenance) {k : List String}
    (hk : ∀ s ∈ AssocList.keys below, ¬path ++ [s] <+: k) :
    (below.foldl (fun p e => change e p) p).get k = p.get k := by
  induction below generalizing p with
  | nil => rfl
  | cons e rest ih =>
    rw [AssocList.keys_cons] at hk
    rw [List.foldl_cons, ih _ fun s hs => hk s (List.mem_cons_of_mem _ hs)]
    exact hchange e p k (hk e.1 (List.mem_cons_self ..))

theorem within_foldl_beneath (below : List (String × γ)) :
    Within path fun p => below.foldl (fun p e => change e p) p := by
  intro p k hk
  exact get_foldl_beneath hchange below p fun s _ h => hk (prefix_child s h)

/-- Changes under distinct segments do not meet: under each it is as if only its own
had been made. -/
theorem foldl_beneath {below : List (String × γ)} (hnodup : (AssocList.keys below).Nodup)
    (p : Provenance) {e : String × γ} (he : e ∈ below) :
    ∃ p', Agree (path ++ [e.1]) p p' ∧
      Agree (path ++ [e.1]) (change e p') (below.foldl (fun p e => change e p) p) := by
  induction below generalizing p with
  | nil => cases he
  | cons d rest ih =>
    rw [AssocList.keys_cons, List.nodup_cons] at hnodup
    rcases List.mem_cons.mp he with rfl | he
    · refine ⟨p, fun k _ => rfl, fun k hk => ?_⟩
      rw [List.foldl_cons]
      symm
      refine get_foldl_beneath hchange rest _ fun s hs hks => ?_
      rw [child_prefix_ne hk hks] at hnodup
      exact hnodup.1 hs
    · obtain ⟨p', hbefore, hafter⟩ := ih hnodup.2 (change d p) he
      refine ⟨p', fun k hk => ?_, hafter⟩
      rw [← hbefore k hk]
      symm
      refine hchange d p k fun hd => hnodup.1 ?_
      rw [child_prefix_ne hd hk]
      exact AssocList.key_mem he

end Fold

theorem within_claim (label : String) (levels : ℕ) (path : List String) (v : Value) :
    Within path (claim label levels path v) := by
  induction levels generalizing path v with
  | zero => exact within_insert path label
  | succ levels ih =>
    intro p k hk
    unfold claim
    split
    · rfl
    · split
      · exact within_insert path label p k hk
      · exact within_foldl_beneath (fun e => ih (path ++ [e.1]) e.2) _ p k hk

theorem within_replace (label : String) (levels : ℕ) (path : List String) (v : Value) :
    Within path (replace label levels path v) :=
  (within_claim label levels path v).comp (within_forgetSubtree path)

theorem label_of_claim {label : String} {levels : ℕ} {v : Value}
    {p : Provenance} (hfree : ∀ k l, path <+: k → p.get k = some l → l = label) :
    ∀ k l, path <+: k → (claim label levels path v p).get k = some l → l = label := by
  induction levels generalizing path v p with
  | zero =>
    intro k l hk hget
    rw [claim, SortedMap.get_insert] at hget
    split at hget
    · exact (Option.some.inj hget).symm
    · exact hfree k l hk hget
  | succ levels ih =>
    unfold claim
    split
    · exact hfree
    · split
      · intro k l hk hget
        rw [SortedMap.get_insert] at hget
        split at hget
        · exact (Option.some.inj hget).symm
        · exact hfree k l hk hget
      · generalize children v = below
        induction below generalizing p with
        | nil => exact hfree
        | cons e rest ihrest =>
          refine ihrest fun k l hk hget => ?_
          by_cases hunder : path ++ [e.1] <+: k
          · exact ih (fun k l hk => hfree k l (prefix_child _ hk)) k l hunder hget
          · rw [within_claim _ _ _ _ p k hunder] at hget
            exact hfree k l hk hget

end Provenance

open Provenance

/-- A record follows an owned value at a place. In `simple` parts no list is united.
Under `exact` every leaf is recorded on its own. -/
inductive Tracked (ctx : Context) (exact : Prop) (p : Provenance) :
    Bool → List String → Owned → Prop
  | absent {simple : Bool} {path : List String} {o : Owned} (habsent : o.value = .absent)
      (hnone : ∀ k, path <+: k → p.get k = none) : Tracked ctx exact p simple path o
  | leaf {simple : Bool} {path : List String} {o : Owned} (hleaf : isLeaf o.value = true)
      (hget : p.get path = some (o.owner []))
      (hunder : ∀ k, path <+: k → k ≠ path → p.get k = none) : Tracked ctx exact p simple path o
  | uniform {simple : Bool} {path : List String} {o : Owned} (label : String)
      (hwhere : maxDepth ≤ path.length ∨
        simple = false ∧ ctx.modeAt path = .deep ∧ ∃ items, o.value = .list items)
      (hexact : ¬exact) (howner : ∀ rest, LeafAt o.value rest → o.owner rest = label)
      (hrecords : ∀ k l, path <+: k → p.get k = some l → l = label)
      (hsome : ∀ rest, LeafAt o.value rest → ∃ k l, path <+: k ∧ p.get k = some l) :
      Tracked ctx exact p simple path o
  | split {simple : Bool} {path : List String} {o : Owned} (hlen : path.length < maxDepth)
      (hbelow : children o.value ≠ []) (hget : p.get path = none)
      (hchild : ∀ segment c, AssocList.get segment (children o.value) = some c →
        Tracked ctx exact p (simple || ctx.modeAt path == .simple) (path ++ [segment])
          (o.under segment c))
      (hothers : ∀ segment, AssocList.get segment (children o.value) = none →
        ∀ k, path ++ [segment] <+: k → p.get k = none) : Tracked ctx exact p simple path o

section Tracked

variable {ctx : Context} {exact : Prop} {p p' : Provenance} {simple : Bool} {path : List String}
  {o o' : Owned}

theorem Tracked.frame (h : Tracked ctx exact p simple path o) (hagree : Agree path p p') :
    Tracked ctx exact p' simple path o := by
  induction h with
  | absent habsent hnone =>
    exact .absent habsent fun k hk => (hagree k hk).symm.trans (hnone k hk)
  | leaf hleaf hget hunder =>
    exact .leaf hleaf ((hagree _ (List.prefix_refl _)).symm.trans hget)
      fun k hk hne => (hagree k hk).symm.trans (hunder k hk hne)
  | uniform label hwhere hexact howner hrecords hsome =>
    refine .uniform label hwhere hexact howner
      (fun k l hk hget => hrecords k l hk ((hagree k hk).trans hget)) fun rest hrest => ?_
    obtain ⟨k, l, hk, hget⟩ := hsome rest hrest
    exact ⟨k, l, hk, (hagree k hk).symm.trans hget⟩
  | split hlen hbelow hget _ hothers ih =>
    refine .split hlen hbelow ((hagree _ (List.prefix_refl _)).symm.trans hget)
      (fun segment c hc => ih segment c hc fun k hk => hagree k (prefix_child _ hk))
      fun segment hnone k hk => ?_
    exact (hagree k (prefix_child _ hk)).symm.trans (hothers segment hnone k hk)

theorem Tracked.congr (h : Tracked ctx exact p simple path o) (hvalue : o'.value = o.value)
    (howner : ∀ rest, LeafAt o.value rest → o'.owner rest = o.owner rest) :
    Tracked ctx exact p simple path o' := by
  induction h generalizing o' with
  | absent habsent hnone => exact .absent (hvalue.trans habsent) hnone
  | leaf hleaf hget hunder =>
    exact .leaf (hvalue ▸ hleaf) (hget.trans (congrArg some (howner [] hleaf).symm)) hunder
  | uniform label hwhere hexact hsame hrecords hsome =>
    refine .uniform label (hvalue ▸ hwhere) hexact (fun rest hrest => ?_) hrecords (hvalue ▸ hsome)
    rw [hvalue] at hrest
    exact (howner rest hrest).trans (hsame rest hrest)
  | split hlen hbelow hget _ hothers ih =>
    refine .split hlen (hvalue ▸ hbelow) hget (fun segment c hc => ?_) (hvalue ▸ hothers)
    rw [hvalue] at hc
    exact ih segment c hc rfl fun rest hrest => howner (segment :: rest) ⟨c, hc, hrest⟩

variable {label : String} {rest : List String}

/-- A claim on a free place follows what it claims. -/
theorem tracked_claim {levels : ℕ} {v : Value}
    (hlen : path.length + levels = maxDepth) (hdistinct : v.Distinct)
    (hshallow : exact → ShallowFrom levels v) (hfree : ∀ k, path <+: k → p.get k = none) :
    Tracked ctx exact (claim label levels path v p) simple path (Node.layer label v) := by
  induction levels generalizing path v p simple with
  | zero =>
    have hget : (p.insert path label).get path = some label := SortedMap.get_insert_self ..
    have hunder : ∀ k, path <+: k → k ≠ path → (p.insert path label).get k = none :=
      fun k hk hne => (SortedMap.get_insert_of_ne hne label p).trans (hfree k hk)
    by_cases hleaf : isLeaf v = true
    · exact .leaf hleaf hget hunder
    · refine .uniform _ (.inl (by omega)) (fun h => hleaf ?_) (fun _ _ => rfl) ?_
        fun _ _ => ⟨path, label, List.prefix_refl _, hget⟩
      · exact hshallow h [] v rfl rfl
      · exact label_of_claim (v := v) fun k l hk hget => by
          rw [hfree k hk] at hget
          cases hget
  | succ levels ih =>
    unfold claim
    split
    · next habsent =>
      refine .absent ?_ hfree
      cases v with
      | absent => rfl
      | _ => cases habsent
    · next habsent =>
      split
      · next hnil =>
        exact .leaf (isLeaf_of_children habsent hnil) (SortedMap.get_insert_self ..)
          fun k hk hne => (SortedMap.get_insert_of_ne hne label p).trans (hfree k hk)
      · next below hbelow =>
        have hwithin : ∀ e : String × Value, Within (path ++ [e.1])
            (claim label levels (path ++ [e.1]) e.2) := fun e =>
          within_claim label levels (path ++ [e.1]) e.2
        refine .split (by omega) hbelow ?_ (fun segment c hc => ?_) fun segment hnone k hk => ?_
        · refine (get_foldl_beneath hwithin _ p fun s _ h => not_child_prefix_self h).trans ?_
          exact hfree path (List.prefix_refl _)
        · obtain ⟨p', hbefore, hafter⟩ := foldl_beneath hwithin (children_nodup hdistinct) p
            (AssocList.mem_of_get hc)
          refine Tracked.frame ?_ hafter
          refine ih (by simp; omega) (child_distinct hdistinct hc)
            (fun h => (hshallow h).child hc) fun k hk => ?_
          exact (hbefore k hk).symm.trans (hfree k (prefix_child _ hk))
        · refine (get_foldl_beneath hwithin _ p fun s hs h => ?_).trans
            (hfree k (prefix_child _ hk))
          rw [child_prefix_ne h hk] at hs
          have hnone : AssocList.get segment (children v) = none := hnone
          rw [← AssocList.get_isSome_iff, hnone] at hs
          cases hs

theorem tracked_replace {levels : ℕ} {v : Value}
    (hlen : path.length + levels = maxDepth) (hdistinct : v.Distinct)
    (hshallow : exact → ShallowFrom levels v) :
    Tracked ctx exact (replace label levels path v p) simple path (Node.layer label v) :=
  tracked_claim hlen hdistinct hshallow fun k hk => by rw [get_forgetSubtree, if_pos hk]

/-- For each leaf, all that is recorded at or under some place above it is its owner, and
nothing in between is recorded. -/
theorem Tracked.attributed (h : Tracked ctx exact p simple path o)
    (hrest : LeafAt o.value rest) : ∃ above, path <+: above ∧ above <+: path ++ rest ∧
      (∀ k, path <+: k → k <+: above → k ≠ above → p.get k = none) ∧
      (∀ k l, above <+: k → p.get k = some l → l = o.owner rest) ∧
      ∃ k l, above <+: k ∧ p.get k = some l := by
  induction h generalizing rest with
  | absent habsent =>
    rw [habsent] at hrest
    cases rest with
    | nil => cases hrest
    | cons segment rest => obtain ⟨c, hc, -⟩ := hrest; cases hc
  | @leaf _ path o hleaf hget hunder =>
    cases rest with
    | cons segment rest =>
      obtain ⟨c, hc, -⟩ := hrest
      rw [not_isLeaf] at hleaf
      · cases hleaf
      · intro hnil
        rw [hnil] at hc
        cases hc
    | nil =>
      refine ⟨path, List.prefix_refl _, List.prefix_append _ _, fun k hpk hkp hne => ?_,
        fun k l hk hl => ?_, path, _, List.prefix_refl _, hget⟩
      · exact absurd (hkp.eq_of_length_le hpk.length_le) hne
      · by_cases heq : k = path
        · rw [heq, hget] at hl
          exact (Option.some.inj hl).symm
        · rw [hunder k hk heq] at hl
          cases hl
  | @uniform _ path o label hwhere hexact howner hrecords hsome =>
    refine ⟨path, List.prefix_refl _, List.prefix_append _ _, fun k hpk hkp hne => ?_,
      fun k l hk hl => ?_, hsome rest hrest⟩
    · exact absurd (hkp.eq_of_length_le hpk.length_le) hne
    · rw [howner rest hrest]
      exact hrecords k l hk hl
  | @split _ path o hlen hbelow hget hchild hothers ih =>
    cases rest with
    | nil =>
      rw [LeafAt, not_isLeaf hbelow] at hrest
      cases hrest
    | cons segment rest =>
      obtain ⟨c, hc, hrest⟩ := hrest
      obtain ⟨above, habove, hupto, hbetween, hlabels, hsome⟩ := ih segment c hc hrest
      refine ⟨above, prefix_child _ habove, by simpa using hupto, fun k hpk hk hne => ?_,
        hlabels, hsome⟩
      rcases prefix_cases hpk with rfl | ⟨s, hs⟩
      · exact hget
      · rw [child_prefix_ne (hs.trans hk) habove] at hs
        exact hbetween k hs hk hne

/-- An exact record is the leaves, each with its owner. -/
theorem Tracked.get_iff (h : Tracked ctx exact p simple path o) (hexact : exact)
    :
    p.get (path ++ rest) = some label ↔ LeafAt o.value rest ∧ o.owner rest = label := by
  induction h generalizing rest with
  | absent habsent hnone =>
    rw [hnone _ (List.prefix_append _ _)]
    refine ⟨fun h => (nomatch h), fun ⟨hrest, _⟩ => ?_⟩
    rw [habsent] at hrest
    cases rest with
    | nil => cases hrest
    | cons segment rest => obtain ⟨c, hc, -⟩ := hrest; cases hc
  | @leaf _ path o hleaf hget hunder =>
    cases rest with
    | nil => rw [List.append_nil, hget, Option.some.injEq, LeafAt, and_iff_right hleaf]
    | cons segment rest =>
      rw [hunder _ (List.prefix_append _ _) (by simp)]
      refine ⟨fun h => (nomatch h), fun ⟨⟨c, hc, _⟩, _⟩ => ?_⟩
      rw [not_isLeaf] at hleaf
      · cases hleaf
      · intro hnil
        rw [hnil] at hc
        cases hc
  | uniform _ _ hnot => exact absurd hexact hnot
  | @split _ path o hlen hbelow hget hchild hothers ih =>
    cases rest with
    | nil =>
      rw [List.append_nil, hget, LeafAt, not_isLeaf hbelow]
      simp
    | cons segment rest =>
      have happend : path ++ segment :: rest = path ++ [segment] ++ rest := by simp
      rw [happend]
      cases hc : AssocList.get segment (children o.value) with
      | none =>
        rw [hothers segment hc _ (List.prefix_append _ _)]
        refine ⟨fun h => (nomatch h), fun ⟨⟨c, hc', _⟩, _⟩ => ?_⟩
        rw [hc] at hc'
        cases hc'
      | some c =>
        rw [ih segment c hc]
        constructor
        · exact fun ⟨hrest, howner⟩ => ⟨⟨c, hc, hrest⟩, howner⟩
        · rintro ⟨⟨c', hc', hrest⟩, howner⟩
          rw [hc] at hc'
          cases hc'
          exact ⟨hrest, howner⟩

theorem agree_layer {found : Option String} {scan : List (List String × String)}
    (h : agree found scan = .layer label) :
    (∀ l, found = some l → l = label) ∧ (∀ k l, (k, l) ∈ scan → l = label) ∧
      (found = none → scan ≠ []) := by
  induction scan generalizing found with
  | nil =>
    cases found with
    | none => cases h
    | some l =>
      cases h
      simp
  | cons e rest ih =>
    obtain ⟨k, l⟩ := e
    cases found with
    | none =>
      obtain ⟨hfound, hrest, -⟩ := ih h
      refine ⟨by simp, fun k' l' hmem => ?_, by simp⟩
      rcases List.mem_cons.mp hmem with heq | hmem
      · cases heq
        exact hfound l rfl
      · exact hrest k' l' hmem
    | some f =>
      simp only [agree] at h
      split at h
      · next heq =>
        subst heq
        obtain ⟨hfound, hrest, -⟩ := ih h
        refine ⟨hfound, fun k' l' hmem => ?_, by simp⟩
        rcases List.mem_cons.mp hmem with heq | hmem
        · cases heq
          exact hfound f rfl
        · exact hrest k' l' hmem
      · cases h

/-- A place answered with one layer: all that is recorded there is that layer's, and
something is. -/
theorem sourceOf_layer (h : p.sourceOf path = .layer label) :
    p.get path = some label ∨ p.get path = none ∧
      (∀ k l, path <+: k → p.get k = some l → l = label) ∧ ∃ k l, path <+: k ∧ p.get k = some l := by
  unfold sourceOf at h
  split at h
  · next hget =>
    cases h
    exact .inl hget
  · next hget =>
    obtain ⟨-, hlabels, hsome⟩ := agree_layer h
    refine .inr ⟨hget, fun k l hk hl => hlabels k l (mem_scan.mpr ⟨hk, hl⟩), ?_⟩
    obtain ⟨⟨k, l⟩, hmem⟩ := List.exists_mem_of_ne_nil _ (hsome rfl)
    obtain ⟨hk, hl⟩ := mem_scan.mp hmem
    exact ⟨k, l, hk, hl⟩

/-- A record that follows a whole value answers one layer only where that layer supplied
every leaf. -/
theorem Tracked.sourceOf (h : Tracked ctx exact p simple [] o)
    (hsource : p.sourceOf path = .layer label) (hrest : path <+: rest)
    (hleaf : LeafAt o.value rest) : o.owner rest = label := by
  obtain ⟨above, -, habove, hbetween, hlabels, k, l, hk, hl⟩ := h.attributed hleaf
  rw [List.nil_append] at habove
  rcases sourceOf_layer hsource with hget | ⟨-, hall, k', l', hk', hl'⟩
  · -- The place is recorded: it is not above the one the leaf is attributed at.
    rcases List.prefix_or_prefix_of_prefix habove hrest with hle | hle
    · exact (hlabels path label hle hget).symm
    · by_cases heq : path = above
      · exact (hlabels path label (heq ▸ List.prefix_refl _) hget).symm
      · rw [hbetween path List.nil_prefix hle heq] at hget
        cases hget
  · rcases List.prefix_or_prefix_of_prefix habove hrest with hle | hle
    · rw [← hlabels k' l' (hle.trans hk') hl']
      exact hall k' l' hk' hl'
    · rw [← hlabels k l hk hl]
      exact hall k l (hle.trans hk) hl

end Tracked

end Guatiao.Merge
