import Guatiao.Schema.Redacted

/-!
# What two copies tell apart

Two values that differ only inside marked nodes have one copy, and every mark hides its node, exactly
where no place a copy shows is marked: where no schema beside the one a kind is read from (a member
of an `allOf`, `properties` beside a tagged `oneOf`, `items` beside `prefixItems`, an arm itself)
marks what that one leaves unmarked.
-/

namespace Guatiao.Schema

open Lib

/-- A place is marked by one of several schemas. -/
def MarkedBy (K : Value → Prop) (value : Value) (place : List Step) : Prop :=
  ∃ k, K k ∧ Marked k value place

/-- The schemas of a child, from those of the value it is in. -/
def Kids (K : Value → Prop) (value : Value) (step : Step) (s : Value) : Prop :=
  ∃ k w, K k ∧ Describes value k w ∧ Gives w step s

variable {v c : Value} {kind : Kind} {part : Step → Value → Part}

theorem markedBy_cons {K : Value → Prop} {step : Step} (hchild : childAt v step = some c)
    (place : List Step) :
    MarkedBy K v (step :: place) ↔ MarkedBy K v [] ∨ MarkedBy (Kids K v step) c place := by
  constructor
  · rintro ⟨k, hk, outer, houter, w, hreaches, hsecret⟩
    cases outer with
    | nil => exact .inl ⟨k, hk, [], List.nil_prefix, w, hreaches, hsecret⟩
    | cons step' outer =>
      obtain ⟨rfl, hinner⟩ := List.cons_prefix_cons.mp houter
      cases hreaches with
      | down hdescribes hgives hchild' hrest =>
        obtain rfl := Option.some.inj (hchild.symm.trans hchild')
        exact .inr ⟨_, ⟨k, _, hk, hdescribes, hgives⟩, outer, hinner, w, hrest, hsecret⟩
  · rintro (⟨k, hk, outer, houter, hmarked⟩ | ⟨s, ⟨k, w, hk, hdescribes, hgives⟩, outer, houter, w', hreaches, hsecret⟩)
    · rw [List.prefix_nil.mp houter] at hmarked
      exact ⟨k, hk, [], List.nil_prefix, hmarked⟩
    · exact ⟨k, hk, step :: outer, List.cons_prefix_cons.mpr ⟨rfl, houter⟩, w',
        .down hdescribes hgives hchild hreaches, hsecret⟩

theorem eq_of_copied {copy copy' : Step → Value → Copy} {m n m' n' : List (Step × Value)}
    (h : List.Forall₂ (CopiedBy copy) m n) (h' : List.Forall₂ (CopiedBy copy') m' n')
    (hkeys : AssocList.keys m = AssocList.keys m')
    (heq : ∀ step c c' w w', (step, c) ∈ m → (step, c') ∈ m' → copy step c = .ok w →
      copy' step c' = .ok w' → w = w') : n = n' := by
  induction h generalizing m' n' with
  | nil =>
    cases h' with
    | nil => rfl
    | cons _ _ => cases hkeys
  | @cons p q m n hhead hrest ih =>
    cases h' with
    | nil => cases hkeys
    | @cons p' q' m' n' hhead' hrest' =>
      obtain ⟨step, c⟩ := p
      obtain ⟨step', c'⟩ := p'
      obtain ⟨hstep, htail⟩ := List.cons.inj hkeys
      obtain rfl : step = step' := hstep
      obtain ⟨hq, hcopy⟩ := hhead
      obtain ⟨hq', hcopy'⟩ := hhead'
      have hw := heq step c c' q.2 q'.2 (List.mem_cons_self ..) (List.mem_cons_self ..) hcopy hcopy'
      have hqq : q = q' := Prod.ext (hq.symm.trans hq') hw
      rw [hqq, ih hrest' htail fun s a a' b b' ha ha' =>
        heq s a a' b b' (List.mem_cons_of_mem _ ha) (List.mem_cons_of_mem _ ha')]

theorem parts_isSome (kind : Kind) {v' : Value} (h : v.tag = v'.tag) :
    (kind.parts v).isSome = (kind.parts v').isSome := by
  cases v <;> cases v' <;> cases h <;> cases kind <;> rfl

theorem described_const (hparts : kind.parts v = some part) {step : Step} {s : Value}
    (h : part step c = .described s) (c' : Value) : part step c' = .described s := by
  unfold Kind.parts at hparts
  split at hparts
  · obtain rfl := Option.some.inj hparts
    exact h
  · obtain rfl := Option.some.inj hparts
    dsimp only at h ⊢
    split at h
    · split at h
      · exact h
      · exact absurd h fallback_ne_described
    · cases h
  · obtain rfl := Option.some.inj hparts
    exact h
  · obtain rfl := Option.some.inj hparts
    exact h
  · obtain rfl := Option.some.inj hparts
    dsimp only at h ⊢
    split at h
    · split at h
      · split at h <;> cases h
      · next hne => rwa [if_neg hne]
    · cases h
  · cases hparts

/-- What a kind makes of the parts depends on the kind of the value, and on the text of its
discriminant. -/
theorem parts_eq {v' : Value} {part' : Step → Value → Part} (htag : v.tag = v'.tag)
    (hchosen : ∀ tag arms, kind = .variant tag arms →
      (v.get tag).bind Value.asStr = (v'.get tag).bind Value.asStr)
    (hparts : kind.parts v = some part) (hparts' : kind.parts v' = some part') : part = part' := by
  have hboth : kind.parts v = kind.parts v' := by
    cases kind with
    | variant tag arms =>
      have harm : chosenArm (.variant tag arms) tag v = chosenArm (.variant tag arms) tag v' := by
        unfold chosenArm
        rw [hchosen tag arms rfl]
      cases v <;> cases v' <;> cases htag <;> simp [Kind.parts, harm]
    | _ => cases v <;> cases v' <;> cases htag <;> rfl
  exact Option.some.inj (hparts.symm.trans (hboth.trans hparts'))

theorem part_discriminant {tag : String} {arms : Value}
    (hparts : (Kind.variant tag arms).parts v = some part) (hc : c.asStr.isSome = true) :
    part (.key tag) c = .keep := by
  cases v with
  | map entries =>
    obtain rfl := Option.some.inj hparts
    simp [hc]
  | _ => cases hparts

section Runs

variable {doubles : Doubles} {engine : Engine} {placeholder : String} {left : ℕ}
  {k v v' : Value} {K K' : Value → Prop}

/-- Two values are equal but for what is marked in both. -/
def EqualBut (K K' : Value → Prop) (v v' : Value) : Prop :=
  ∀ place c c', nodeAt v place = some c → nodeAt v' place = some c' →
    ¬(MarkedBy K v place ∧ MarkedBy K' v' place) → SameNode c c'

/-- No place shown is marked. -/
def Untold (K : Value → Prop) (left : ℕ) (k v : Value) : Prop :=
  ∀ place, fate left k v place = .shown → ¬MarkedBy K v place

variable {c c' : Value}

theorem SameNode.eq_of_scalar (h : SameNode c c')
    (hscalar : isContainer c = false ∨ isContainer c' = false) : c = c' := by
  have hcontainer : isContainer c = isContainer c' := by
    unfold isContainer
    rw [h.1]
  have hc : isContainer c = false := by
    rcases hscalar with h | h
    · exact h
    · rwa [hcontainer]
  have hnode := h.2
  rw [hc, if_neg Bool.false_ne_true] at hnode
  exact hnode

theorem EqualBut.sameNode (h : EqualBut K K' v v') (hv : Untold K left k v)
    (hv' : Untold K' left k v') {place : List Step} (hc : nodeAt v place = some c)
    (hc' : nodeAt v' place = some c')
    (hshown : fate left k v place = .shown ∨ fate left k v' place = .shown) : SameNode c c' := by
  apply h place c c' hc hc'
  rintro ⟨hmarked, hmarked'⟩
  rcases hshown with hshown | hshown
  · exact hv place hshown hmarked
  · exact hv' place hshown hmarked'

theorem EqualBut.child (h : EqualBut K K' v v') (hmarked : ¬MarkedBy K v [])
    (hmarked' : ¬MarkedBy K' v' []) {step : Step} (hchild : childAt v step = some c)
    (hchild' : childAt v' step = some c') : EqualBut (Kids K v step) (Kids K' v' step) c c' := by
  intro place d d' hd hd' hnot
  apply h (step :: place) d d'
  · rw [nodeAt_cons, hchild]
    exact hd
  · rw [nodeAt_cons, hchild']
    exact hd'
  · rw [markedBy_cons hchild, markedBy_cons hchild']
    rintro ⟨hK | hK, hK' | hK'⟩
    · exact hmarked hK
    · exact hmarked hK
    · exact hmarked' hK'
    · exact hnot ⟨hK, hK'⟩

theorem Untold.child (h : Untold K (left + 1) k v) (hopen : hidesAll (left + 1) k = false)
    {part : Step → Value → Part} (hparts : (Kind.read (some k)).parts v = some part) {step : Step}
    {s : Value} (hchild : childAt v step = some c) (hpart : part step c = .described s) :
    Untold (Kids K v step) left s c := by
  intro place hshown hmarked
  apply h (step :: place)
  · rw [fate_child hopen hparts hchild, hpart]
    exact hshown
  · rw [markedBy_cons hchild]
    exact .inr hmarked

theorem isSome_childAt {v v' : Value} (h : AssocList.keys (inside v) = AssocList.keys (inside v'))
    (step : Step) : (childAt v step).isSome = (childAt v' step).isSome := by
  rw [Bool.eq_iff_iff]
  unfold childAt
  rw [AssocList.get_isSome_iff, AssocList.get_isSome_iff, h]

theorem get_eq_childAt (v : Value) (name : String) : v.get name = childAt v (.key name) := by
  cases v with
  | map entries =>
    have hget : ∀ entries : List Entry, AssocList.get (Step.key name)
        (entries.map fun e => (Step.key e.1, e.2)) = AssocList.get name entries := by
      intro entries
      induction entries with
      | nil => rfl
      | cons e entries ih => simp [AssocList.get, ih]
    exact (hget entries).symm
  | list items =>
    have hnone : childAt (.list items) (.key name) = none := by
      apply AssocList.get_eq_none_iff.mpr
      intro hmem
      obtain ⟨p, hp, hkey⟩ := List.mem_map.mp hmem
      obtain ⟨e, -, rfl⟩ := List.mem_map.mp hp
      cases hkey
    rw [hnone]
    rfl
  | _ => rfl

theorem isContainer_of_asStr (h : c.asStr.isSome = true) : isContainer c = false := by
  cases c with
  | string text => rfl
  | _ => cases h

theorem discriminant_eq {tag : String} (hkeys : AssocList.keys (inside v) = AssocList.keys (inside v'))
    (hshown : ∀ c c', childAt v (.key tag) = some c → childAt v' (.key tag) = some c' →
      c.asStr.isSome = true ∨ c'.asStr.isSome = true → SameNode c c') :
    (v.get tag).bind Value.asStr = (v'.get tag).bind Value.asStr := by
  have hisSome := isSome_childAt hkeys (.key tag)
  rw [get_eq_childAt, get_eq_childAt]
  cases hc : childAt v (.key tag) with
  | none =>
    cases hc' : childAt v' (.key tag) with
    | none => rfl
    | some c' =>
      rw [hc, hc'] at hisSome
      cases hisSome
  | some c =>
    cases hc' : childAt v' (.key tag) with
    | none =>
      rw [hc, hc'] at hisSome
      cases hisSome
    | some c' =>
      rw [Option.bind_some, Option.bind_some]
      by_cases htext : c.asStr.isSome = true ∨ c'.asStr.isSome = true
      · have hscalar := htext.imp isContainer_of_asStr isContainer_of_asStr
        rw [(hshown c c' hc hc' htext).eq_of_scalar hscalar]
      · simp only [not_or, Option.not_isSome_iff_eq_none] at htext
        rw [htext.1, htext.2]

/-- Two runs over values equal but for the marks, each telling nothing of them, make one copy. -/
theorem copies_eq (hk : K k) (hk' : K' k) (hunions : NoUnions k) (hv : v.Distinct)
    (hv' : v'.Distinct) (hequal : EqualBut K K' v v') (huntold : Untold K left k v)
    (huntold' : Untold K' left k v') {d d' : Value}
    (h : redactNode doubles engine placeholder left k v = .ok d)
    (h' : redactNode doubles engine placeholder left k v' = .ok d') : d = d' := by
  induction left generalizing K K' k v v' d d' with
  | zero => cases h
  | succ left ih =>
    rw [redactNode_eq (hunions k .self)] at h h'
    cases hopen : hidesAll (left + 1) k with
    | true =>
      rw [hopen] at h h'
      exact Except.ok.inj (h.symm.trans h')
    | false =>
      rw [hopen, if_neg Bool.false_ne_true] at h h'
      have hroot : fate (left + 1) k v [] = .shown ∨ fate (left + 1) k v' [] = .shown →
          SameNode v v' := hequal.sameNode huntold huntold' rfl rfl
      cases hparts : (Kind.read (some k)).parts v with
      | none =>
        cases hparts' : (Kind.read (some k)).parts v' with
        | some part' =>
          have hsame := hroot (.inr (by simp [fate, hopen, hparts']))
          have hisSome := parts_isSome (.read (some k)) hsame.1
          rw [hparts, hparts'] at hisSome
          cases hisSome
        | none =>
          rw [hparts] at h
          rw [hparts'] at h'
          obtain rfl := Except.ok.inj h
          obtain rfl := Except.ok.inj h'
          cases hc : isContainer v with
          | false =>
            have hsame := hroot (.inl (by simp [fate, hopen, hparts, hc]))
            rw [hsame.eq_of_scalar (.inl hc)]
          | true =>
            cases hc' : isContainer v' with
            | false =>
              have hsame := hroot (.inr (by simp [fate, hopen, hparts', hc']))
              rw [hsame.eq_of_scalar (.inr hc')]
            | true => simp [fallback, hc, hc']
      | some part =>
        have hshown : fate (left + 1) k v [] = .shown := by simp [fate, hopen, hparts]
        have hsame := hroot (.inl hshown)
        cases hparts' : (Kind.read (some k)).parts v' with
        | none =>
          have hisSome := parts_isSome (.read (some k)) hsame.1
          rw [hparts, hparts'] at hisSome
          cases hisSome
        | some part' =>
          have hshown' : fate (left + 1) k v' [] = .shown := by simp [fate, hopen, hparts']
          rw [hparts] at h
          rw [hparts'] at h'
          obtain ⟨htag, hcopied⟩ := copyInside_ok hv h
          obtain ⟨htag', hcopied'⟩ := copyInside_ok hv' h'
          have hcontainer := isContainer_of_parts hparts
          have hkeys : AssocList.keys (inside v) = AssocList.keys (inside v') := by
            have hnode := hsame.2
            rwa [if_pos hcontainer] at hnode
          -- A child kept in either copy is shown there, so it is the same in both.
          have hkept : ∀ step c c', childAt v step = some c → childAt v' step = some c' →
              part step c = .keep ∨ part' step c' = .keep → SameNode c c' := by
            intro step c c' hc hc' hkeep
            have hthere : nodeAt v [step] = some c := by
              rw [nodeAt_cons, hc]
              rfl
            apply hequal.sameNode huntold huntold' hthere
            · rw [nodeAt_cons, hc']
              rfl
            · rw [fate_child hopen hparts hc, fate_child hopen hparts' hc']
              rcases hkeep with hkeep | hkeep
              · exact .inl (by rw [hkeep]; rfl)
              · exact .inr (by rw [hkeep]; rfl)
          obtain rfl : part = part' := by
            apply parts_eq hsame.1 _ hparts hparts'
            intro tag arms hkind
            rw [hkind] at hparts hparts'
            apply discriminant_eq hkeys
            intro c c' hc hc' htext
            apply hkept _ c c' hc hc'
            exact htext.imp (part_discriminant hparts) (part_discriminant hparts')
          have hinside : inside d = inside d' := by
            apply eq_of_copied hcopied hcopied' hkeys
            intro step c c' w w' hmem hmem' hw hw'
            have hc : childAt v step = some c := AssocList.get_of_mem (nodup_steps hv) hmem
            have hc' : childAt v' step = some c' := AssocList.get_of_mem (nodup_steps hv') hmem'
            cases hpart : part step c with
            | keep =>
              have hscalar := isContainer_of_keep hparts hpart
              obtain rfl := (hkept step c c' hc hc' (.inl hpart)).eq_of_scalar (.inl hscalar)
              exact Except.ok.inj (hw.symm.trans hw')
            | hide =>
              cases hpart' : part step c' with
              | keep =>
                have hscalar := isContainer_of_keep hparts' hpart'
                obtain rfl := (hkept step c c' hc hc' (.inr hpart')).eq_of_scalar (.inr hscalar)
                exact Except.ok.inj (hw.symm.trans hw')
              | hide =>
                rw [hpart] at hw
                rw [hpart'] at hw'
                exact Except.ok.inj (hw.symm.trans hw')
              | described s =>
                rw [described_const hparts' hpart' c] at hpart
                cases hpart
            | described s =>
              have hpart' := described_const hparts hpart c'
              rw [hpart] at hw
              rw [hpart'] at hw'
              obtain ⟨x, hdescribes, hgives⟩ := gives_of_part hparts hpart hc
              obtain ⟨x', hdescribes', hgives'⟩ := gives_of_part hparts' hpart' hc'
              apply ih ⟨k, x, hk, hdescribes, hgives⟩ ⟨k, x', hk', hdescribes', hgives'⟩
                (hunions.inside hparts hc hpart) (distinct_inside hv hmem) (distinct_inside hv' hmem')
                _ (huntold.child hopen hparts hc hpart) (huntold'.child hopen hparts' hc' hpart') hw hw'
              exact hequal.child (huntold [] hshown) (huntold' [] hshown') hc hc'
          have hdcontainer : isContainer d = true := by
            unfold isContainer at hcontainer ⊢
            rwa [htag]
          exact eq_of_inside (htag.trans (hsame.1.trans htag'.symm)) hdcontainer hinside

end Runs

section Secrecy

variable (doubles : Doubles) (engine : Engine)

/-- Every marked node of a value is replaced, itself or with one it is in. -/
def Replaces (schema : SchemaRef) (value : Value) : Prop :=
  ∀ placeholder d, redact doubles engine placeholder schema value = .ok d →
    ∀ place c, nodeAt value place = some c → MarkedAt schema.value value place →
      ∃ outer, outer <+: place ∧ nodeAt d outer = some (mask placeholder)

/-- Every scalar of a value that is described and not marked is unchanged. -/
def Keeps (schema : SchemaRef) (value : Value) : Prop :=
  ∀ placeholder d, redact doubles engine placeholder schema value = .ok d →
    ∀ place c w, nodeAt value place = some c → isContainer c = false →
      Reaches schema.value value place w → ¬Marked schema.value value place →
      nodeAt d place = some c

/-- Two values equal except inside marked nodes have the same copy. -/
def Blind (schema : SchemaRef) (v v' : Value) : Prop :=
  ∀ placeholder d d', EqualOutside schema.value v v' →
    redact doubles engine placeholder schema v = .ok d →
    redact doubles engine placeholder schema v' = .ok d' → d = d'

/-- What the kinds lead to is what the marks leave: unless the value is nested too deep to copy, no
place they lead to, through schemas none of which is marked, is marked by another schema; and
they lead to every scalar that is described and not marked. -/
def Followed (schema value : Value) : Prop :=
  (∀ place c, nodeAt value place = some c → fate maxDepth schema value place ≠ .tooDeep) →
    (∀ place, fate maxDepth schema value place = .shown → ¬Marked schema value place) ∧
      ∀ place c w, nodeAt value place = some c → isContainer c = false →
        Reaches schema value place w → ¬Marked schema value place →
        fate maxDepth schema value place = .shown

variable {doubles engine} {schema : SchemaRef} {v : Value}

theorem nodeAt_of_shown {left : ℕ} {k v : Value} {place : List Step}
    (h : fate left k v place = .shown) : ∃ c, nodeAt v place = some c := by
  induction left generalizing k v place with
  | zero => cases h
  | succ left ih =>
    cases place with
    | nil => exact ⟨v, rfl⟩
    | cons step rest =>
      cases hopen : hidesAll (left + 1) k with
      | true =>
        rw [fate_hidesAll hopen] at h
        cases h
      | false =>
        cases hparts : (Kind.read (some k)).parts v with
        | none => simp [fate, hopen, hparts] at h
        | some part =>
          cases hchild : childAt v step with
          | none => simp [fate, hopen, hparts, hchild] at h
          | some child =>
            rw [fate_child hopen hparts hchild] at h
            rw [nodeAt_cons, hchild, Option.bind_some]
            cases hpart : part step child with
            | keep =>
              rw [hpart] at h
              dsimp only at h
              split at h
              · next hrest => exact ⟨child, by rw [hrest]; rfl⟩
              · cases h
            | hide =>
              rw [hpart] at h
              cases h
            | described s =>
              rw [hpart] at h
              exact ih h

theorem nodeAt_append (v : Value) (outer rest : List Step) :
    nodeAt v (outer ++ rest) = (nodeAt v outer).bind fun c => nodeAt c rest := by
  induction outer generalizing v with
  | nil => rfl
  | cons step outer ih =>
    rw [List.cons_append, nodeAt_cons, nodeAt_cons, Option.bind_assoc]
    congr 1
    exact funext fun child => ih child

theorem eq_of_mask {d e : Value} {place outer : List Step} {placeholder : String}
    (houter : outer <+: place) (hmask : nodeAt d outer = some (mask placeholder))
    (hplace : nodeAt d place = some e) : e = mask placeholder := by
  obtain ⟨rest, rfl⟩ := houter
  rw [nodeAt_append, hmask, Option.bind_some] at hplace
  cases rest with
  | nil => exact (Option.some.inj hplace).symm
  | cons step rest =>
    obtain ⟨child, hchild, -⟩ := Option.bind_eq_some_iff.mp hplace
    cases hchild

theorem exists_placeholder (c : Value) : ∃ placeholder, c ≠ mask placeholder := by
  by_contra hnone
  simp only [not_exists, not_not] at hnone
  have heq := (hnone "").symm.trans (hnone "x")
  simp [mask] at heq

/-- What is described and unmarked is kept, and what is marked replaced, where the kinds lead to
what the marks leave. -/
theorem replaces_keeps_iff (hunions : NoUnions schema.value) (hv : v.Distinct) :
    Replaces doubles engine schema v ∧ Keeps doubles engine schema v ↔ Followed schema.value v := by
  constructor
  · rintro ⟨hreplaces, hkeeps⟩ hdeep
    constructor
    · rintro place hshown ⟨outer, houter, hmarked⟩
      obtain ⟨c, hc⟩ := nodeAt_of_shown hshown
      obtain ⟨placeholder, hne⟩ := exists_placeholder c
      obtain ⟨d, hd⟩ : ∃ d, redact doubles engine placeholder schema v = .ok d :=
        exists_copy hunions hv hdeep
      have hthere : ∃ o, nodeAt v outer = some o := by
        obtain ⟨rest, rfl⟩ := houter
        rw [nodeAt_append] at hc
        obtain ⟨o, ho, -⟩ := Option.bind_eq_some_iff.mp hc
        exact ⟨o, ho⟩
      obtain ⟨o, ho⟩ := hthere
      obtain ⟨inner, hinner, hmask⟩ := hreplaces placeholder d hd outer o ho hmarked
      rcases fate_of_ok hunions hv hd hc with ⟨-, e, he, hshows⟩ | ⟨hhidden, -⟩
      · have heq := eq_of_mask (hinner.trans houter) hmask he
        subst heq
        have hscalar : isContainer c = false := by
          unfold isContainer
          rw [← hshows.1]
          rfl
        exact hne (hshows.2 hscalar).symm
      · rw [hshown] at hhidden
        cases hhidden
    · intro place c w hc hscalar hreaches hunmarked
      obtain ⟨placeholder, hne⟩ := exists_placeholder c
      obtain ⟨d, hd⟩ : ∃ d, redact doubles engine placeholder schema v = .ok d :=
        exists_copy hunions hv hdeep
      have hkept := hkeeps placeholder d hd place c w hc hscalar hreaches hunmarked
      rcases fate_of_ok hunions hv hd hc with ⟨hshown, -⟩ | ⟨-, outer, houter, hmask⟩
      · exact hshown
      · exact absurd (eq_of_mask houter hmask hkept) hne
  · intro hfollowed
    have hcopied : ∀ {placeholder d}, redact doubles engine placeholder schema v = .ok d →
        ∀ place c, nodeAt v place = some c → fate maxDepth schema.value v place ≠ .tooDeep := by
      intro placeholder d hd place c hc
      rcases fate_of_ok hunions hv hd hc with ⟨hfate, -⟩ | ⟨hfate, -⟩
      · simp [hfate]
      · simp [hfate]
    constructor
    · intro placeholder d hd place c hc hmarked
      rcases fate_of_ok hunions hv hd hc with ⟨hshown, -⟩ | ⟨-, hmask⟩
      · exact absurd ⟨place, List.prefix_rfl, hmarked⟩ ((hfollowed (hcopied hd)).1 place hshown)
      · exact hmask
    · intro placeholder d hd place c w hc hscalar hreaches hunmarked
      have hshown := (hfollowed (hcopied hd)).2 place c w hc hscalar hreaches hunmarked
      rcases fate_of_ok hunions hv hd hc with ⟨-, e, he, hshows⟩ | ⟨hhidden, -⟩
      · rw [he, hshows.2 hscalar]
      · rw [hshown] at hhidden
        cases hhidden

/-- Two values the kinds lead through as the marks say have copies that tell nothing of what is
marked in both. -/
theorem blind_of_followed {v' : Value} (hunions : NoUnions schema.value) (hv : v.Distinct)
    (hv' : v'.Distinct) (hfollowed : Followed schema.value v) (hfollowed' : Followed schema.value v') :
    Blind doubles engine schema v v' := by
  intro placeholder d d' hequal hd hd'
  have huntold : ∀ {w e : Value}, w.Distinct → Followed schema.value w →
      redact doubles engine placeholder schema w = .ok e →
      Untold (· = schema.value) maxDepth schema.value w := by
    rintro w e hw hwfollowed he place hshown ⟨k, rfl, hmarked⟩
    refine (hwfollowed ?_).1 place hshown hmarked
    intro place' c hc
    rcases fate_of_ok hunions hw he hc with ⟨hfate, -⟩ | ⟨hfate, -⟩
    · simp [hfate]
    · simp [hfate]
  have hleft := huntold hv hfollowed hd
  have hright := huntold hv' hfollowed' hd'
  apply copies_eq (by exact rfl) (by exact rfl) hunions hv hv' _ hleft hright hd hd'
  intro place c c' hc hc' hnot
  apply hequal place c c' hc hc'
  rintro ⟨hmarked, hmarked'⟩
  exact hnot ⟨⟨_, rfl, hmarked⟩, ⟨_, rfl, hmarked'⟩⟩

/-- Redaction tells nothing of what is marked, replaces every marked node and keeps every described
scalar that is not, exactly for the values the kinds lead through as the marks say. -/
theorem redact_noninterfering_iff (doubles : Doubles) (engine : Engine) (schema : SchemaRef)
    (v v' : Value) (hunions : NoUnions schema.value) (hv : v.Distinct) (hv' : v'.Distinct) :
    (Blind doubles engine schema v v' ∧
        (Replaces doubles engine schema v ∧ Keeps doubles engine schema v) ∧
        (Replaces doubles engine schema v' ∧ Keeps doubles engine schema v')) ↔
      Followed schema.value v ∧ Followed schema.value v' := by
  rw [replaces_keeps_iff hunions hv, replaces_keeps_iff hunions hv']
  constructor
  · exact fun h => h.2
  · exact fun h => ⟨blind_of_followed hunions hv hv' h.1 h.2, h⟩

end Secrecy

private def passwordOf (text : String) : Value := .map [("password", .string text)]

/-- The condition is about every two values, among them two of a marked password. -/
theorem redact_noninterfering_login : ∃ (schema : SchemaRef) (v v' : Value), v ≠ v' ∧
    schema.value = .map [("type", .string "object"), ("properties", .map [("password",
      .map [("type", .string "string"), ("x-sensitive", .bool true)])])] ∧
    ∀ doubles engine, (Blind doubles engine schema v v' ∧
        (Replaces doubles engine schema v ∧ Keeps doubles engine schema v) ∧
        (Replaces doubles engine schema v' ∧ Keeps doubles engine schema v')) ↔
      Followed schema.value v ∧ Followed schema.value v' := by
  refine ⟨⟨_, rfl⟩, passwordOf "hunter2", passwordOf "letmein", by decide, rfl, ?_⟩
  intro doubles engine
  exact redact_noninterfering_iff doubles engine _ _ _ (noUnions_of_everywhere (by decide))
    (by decide) (by decide)

/-- A password whose mark is in a member beside the properties. -/
private def besideSchema : SchemaRef where
  value := .map [("type", .string "object"),
    ("properties", .map [("password", .map [("type", .string "string")])]),
    ("allOf", .list [.map [("properties",
      .map [("password", .map [("x-sensitive", .bool true)])])]])]
  map := rfl

theorem noUnions_besideSchema : NoUnions besideSchema.value :=
  noUnions_of_everywhere (by decide)

theorem marked_passwordOf (text : String) (place : List Step) :
    Marked besideSchema.value (passwordOf text) (.key "password" :: place) := by
  have hmember : Describes (passwordOf text) besideSchema.value
      (.map [("properties", .map [("password", .map [("x-sensitive", .bool true)])])]) :=
    .single (.member (List.mem_singleton.mpr rfl))
  have hfield : (⟨"password", .map [("x-sensitive", .bool true)], false⟩ : FieldRef) ∈
      fieldsOf (.map [("properties", .map [("password", .map [("x-sensitive", .bool true)])])]) :=
    List.mem_singleton.mpr rfl
  have hthere : childAt (passwordOf text) (.key "password") = some (.string text) := rfl
  exact ⟨[.key "password"], ⟨place, rfl⟩, _, .down hmember (.field hfield) hthere (.here .refl), rfl⟩

/-- A mark in a member beside the properties is not read, and the copies show what it marks. -/
theorem redact_tells_member : ∃ (schema : SchemaRef) (v v' : Value),
    NoUnions schema.value ∧ v.Distinct ∧ v'.Distinct ∧ EqualOutside schema.value v v' ∧
      ∀ doubles engine placeholder, ∃ d d', redact doubles engine placeholder schema v = .ok d ∧
        redact doubles engine placeholder schema v' = .ok d' ∧ d ≠ d' := by
  refine ⟨besideSchema, passwordOf "hunter2", passwordOf "letmein", noUnions_besideSchema,
    by decide, by decide, ?_, ?_⟩
  · intro place c c' hc hc' hnot
    cases place with
    | nil =>
      obtain rfl := Option.some.inj hc
      obtain rfl := Option.some.inj hc'
      exact ⟨rfl, rfl⟩
    | cons step place =>
      by_cases hstep : step = .key "password"
      · subst hstep
        exact absurd ⟨marked_passwordOf _ place, marked_passwordOf _ place⟩ hnot
      · have hnone : childAt (passwordOf "hunter2") step = none :=
          AssocList.get_eq_none_iff.mpr (by simp [passwordOf, inside, AssocList.keys, hstep])
        rw [nodeAt_cons, hnone] at hc
        cases hc
  · intro doubles engine placeholder
    refine ⟨passwordOf "hunter2", passwordOf "letmein", rfl, rfl, ?_⟩
    decide

end Guatiao.Schema
