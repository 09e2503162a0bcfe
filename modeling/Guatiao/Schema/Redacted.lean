import Guatiao.Schema.Redact

/-!
# What a copy shows of a value

Each place of a value is shown in its copy or lies under a placeholder, and which of the two is read
off the marks and the kinds on the way to it. So a copy tells nothing of what is marked exactly when
no place shown is, and keeps what is described and unmarked exactly when each such place is shown.
-/

namespace Guatiao.Schema

open Lib

theorem nodup_steps {value : Value} (h : value.Distinct) :
    (AssocList.keys (inside value)).Nodup := by
  cases value with
  | list items =>
    have hkeys : AssocList.keys (inside (.list items)) = (List.range' 0 items.length).map Step.index := by
      rw [← List.zipIdx_map_snd, List.map_map]
      simp [AssocList.keys, inside, Function.comp_def]
    rw [hkeys]
    exact List.Nodup.map (fun i j h => Step.index.inj h) List.nodup_range'
  | map entries =>
    have hkeys : AssocList.keys (inside (.map entries)) = (AssocList.keys entries).map Step.key := by
      simp [AssocList.keys, inside, Function.comp_def]
    rw [hkeys]
    exact (Value.distinct_map.mp h).1.map fun i j h => Step.key.inj h
  | _ => exact List.nodup_nil

theorem distinct_inside {value child : Value} {step : Step} (h : value.Distinct)
    (hmem : (step, child) ∈ inside value) : child.Distinct := by
  cases value with
  | list items =>
    obtain ⟨e, he, heq⟩ := List.mem_map.mp hmem
    obtain ⟨-, rfl⟩ := Prod.mk.inj heq
    exact Value.distinct_list.mp h e.1 (List.fst_mem_of_mem_zipIdx he)
  | map entries =>
    obtain ⟨e, he, heq⟩ := List.mem_map.mp hmem
    obtain ⟨-, rfl⟩ := Prod.mk.inj heq
    exact (Value.distinct_map.mp h).2 e.1 e.2 he
  | _ => exact absurd hmem List.not_mem_nil

variable {v : Value}

theorem eq_of_inside {w : Value} (htag : v.tag = w.tag) (hcontainer : isContainer v = true)
    (h : inside v = inside w) : v = w := by
  cases v with
  | list items =>
    cases w with
    | list others =>
      have hsnd : ∀ xs : List Value, (inside (.list xs)).map Prod.snd = xs := by
        intro xs
        simp [inside, Function.comp_def]
      rw [← hsnd items, ← hsnd others, h]
    | _ => cases htag
  | map entries =>
    cases w with
    | map others =>
      have hinj : Function.Injective fun e : Entry => (Step.key e.1, e.2) := by
        rintro ⟨name, c⟩ ⟨name', c'⟩ heq
        simpa using heq
      rw [hinj.list_map h]
    | _ => cases htag
  | _ => cases hcontainer

/-- A thing and its copy, under one step. -/
def CopiedBy (copy : Step → Value → Copy) (p q : Step × Value) : Prop :=
  p.1 = q.1 ∧ copy p.1 p.2 = .ok q.2

variable {copy : Step → Value → Copy}

theorem copyItems_ok {i : ℕ} {items out : List Value} (h : copyItems copy i items = .ok out) :
    List.Forall₂ (CopiedBy copy) ((items.zipIdx i).map fun e => (.index e.2, e.1))
      ((out.zipIdx i).map fun e => (.index e.2, e.1)) := by
  induction items generalizing i out with
  | nil =>
    obtain rfl := Except.ok.inj h
    exact .nil
  | cons v items ih =>
    simp only [copyItems] at h
    cases hv : copy (.index i) v with
    | error e => rw [hv] at h; cases h
    | ok w =>
      cases hrest : copyItems copy (i + 1) items with
      | error e => rw [hv, hrest] at h; cases h
      | ok rest =>
        rw [hv, hrest] at h
        obtain rfl := Except.ok.inj h
        exact .cons ⟨rfl, hv⟩ (ih hrest)

theorem copyEntries_ok {entries out r : List Entry}
    (hnodup : (AssocList.keys (out ++ entries)).Nodup) (h : copyEntries copy out entries = .ok r) :
    ∃ outs, r = out ++ outs ∧ List.Forall₂ (CopiedBy copy)
      (entries.map fun e => (.key e.1, e.2)) (outs.map fun e => (.key e.1, e.2)) := by
  induction entries generalizing out with
  | nil =>
    obtain rfl := Except.ok.inj h
    exact ⟨[], (List.append_nil _).symm, .nil⟩
  | cons e entries ih =>
    simp only [copyEntries] at h
    cases hchild : copy (.key e.1) e.2 with
    | error err => rw [hchild] at h; cases h
    | ok w =>
      rw [hchild] at h
      have hnew : e.1 ∉ AssocList.keys out := by
        intro hmem
        rw [AssocList.keys_append, AssocList.keys_cons] at hnodup
        exact (List.nodup_append.mp hnodup).2.2 e.1 hmem e.1 (List.mem_cons_self ..) rfl
      change copyEntries copy (AssocList.set e.1 w out) entries = .ok r at h
      rw [AssocList.set_of_not_mem hnew] at h
      have hnodup' : (AssocList.keys ((out ++ [(e.1, w)]) ++ entries)).Nodup := by
        simpa [AssocList.keys] using hnodup
      obtain ⟨outs, rfl, houts⟩ := ih hnodup' h
      exact ⟨(e.1, w) :: outs, by simp, .cons ⟨rfl, hchild⟩ houts⟩

theorem copyInside_ok {d : Value} (hv : v.Distinct) (h : copyInside copy v = .ok d) :
    d.tag = v.tag ∧ List.Forall₂ (CopiedBy copy) (inside v) (inside d) := by
  cases v with
  | list items =>
    cases hitems : copyItems copy 0 items with
    | error e => rw [copyInside, hitems] at h; cases h
    | ok out =>
      rw [copyInside, hitems] at h
      obtain rfl := Except.ok.inj h
      exact ⟨rfl, copyItems_ok hitems⟩
  | map entries =>
    cases hentries : copyEntries copy [] entries with
    | error e => rw [copyInside, hentries] at h; cases h
    | ok out =>
      rw [copyInside, hentries] at h
      obtain rfl := Except.ok.inj h
      obtain ⟨outs, rfl, houts⟩ := @copyEntries_ok _ _ [] _ (Value.distinct_map.mp hv).1 hentries
      exact ⟨rfl, houts⟩
  | _ =>
    obtain rfl := Except.ok.inj h
    exact ⟨rfl, .nil⟩

theorem copyItems_exists {i : ℕ} {items : List Value}
    (h : ∀ p ∈ (items.zipIdx i).map fun e => (Step.index e.2, e.1), ∃ w, copy p.1 p.2 = .ok w) :
    ∃ out, copyItems copy i items = .ok out := by
  induction items generalizing i with
  | nil => exact ⟨[], rfl⟩
  | cons v items ih =>
    obtain ⟨w, hw⟩ := h (.index i, v) (List.mem_cons_self ..)
    obtain ⟨out, hout⟩ := ih fun p hp => h p (List.mem_cons_of_mem _ hp)
    refine ⟨w :: out, ?_⟩
    simp only [copyItems]
    rw [hw, hout]
    rfl

theorem copyEntries_exists {entries out : List Entry}
    (h : ∀ p ∈ entries.map fun e => (Step.key e.1, e.2), ∃ w, copy p.1 p.2 = .ok w) :
    ∃ r, copyEntries copy out entries = .ok r := by
  induction entries generalizing out with
  | nil => exact ⟨out, rfl⟩
  | cons e entries ih =>
    obtain ⟨w, hw⟩ := h (.key e.1, e.2) (List.mem_cons_self ..)
    obtain ⟨r, hr⟩ : ∃ r, copyEntries copy (AssocList.set e.1 w out) entries = .ok r :=
      ih fun p hp => h p (List.mem_cons_of_mem _ hp)
    refine ⟨r, ?_⟩
    simp only [copyEntries]
    rw [hw]
    exact hr

theorem copyInside_exists (h : ∀ p ∈ inside v, ∃ w, copy p.1 p.2 = .ok w) :
    ∃ d, copyInside copy v = .ok d := by
  cases v with
  | list items =>
    obtain ⟨out, hout⟩ := copyItems_exists h
    exact ⟨.list out, by rw [copyInside, hout]; rfl⟩
  | map entries =>
    obtain ⟨r, hr⟩ : ∃ r, copyEntries copy [] entries = .ok r := copyEntries_exists h
    exact ⟨.map r, by rw [copyInside, hr]; rfl⟩
  | absent => exact ⟨_, rfl⟩
  | null => exact ⟨_, rfl⟩
  | bool b => exact ⟨_, rfl⟩
  | number n => exact ⟨_, rfl⟩
  | string text => exact ⟨_, rfl⟩
  | bytes data => exact ⟨_, rfl⟩

/-- Whether a kind is a reference nobody followed. -/
def Kind.isRef : Kind → Bool
  | .unknown name => name == Vocab.ref
  | _ => false

/-- What becomes of a place in a copy. -/
inductive Fate
  | shown
  | hidden
  /-- It is nested deeper than the walk follows. -/
  | tooDeep
  deriving DecidableEq

/-- Whether a schema hides all of its value: it is marked, or a reference nobody followed. -/
def hidesAll (left : ℕ) (schema : Value) : Bool :=
  marksSecret left schema || (Kind.read (some schema)).isRef

/-- What becomes of a place of a value, by the marks and the kinds on the way. -/
def fate : ℕ → Value → Value → List Step → Fate
  | 0, _, _, _ => .tooDeep
  | left + 1, schema, value, place =>
    if hidesAll (left + 1) schema then .hidden
    else
      match (Kind.read (some schema)).parts value, place with
      | none, [] => if isContainer value then .hidden else .shown
      | none, _ :: _ => .hidden
      | some _, [] => .shown
      | some part, step :: rest =>
        match childAt value step with
        | none => .hidden
        | some child =>
          match part step child with
          | .keep => if rest = [] then .shown else .hidden
          | .hide => .hidden
          | .described next => fate left next child rest

/-- A node and its copy where it is shown: the same scalar, or a container of the same kind. -/
def CopyShows (c e : Value) : Prop := e.tag = c.tag ∧ (isContainer c = false → e = c)

section Fate

variable {doubles : Doubles} {engine : Engine} {placeholder : String} {left : ℕ}
  {schema v : Value} {part : Step → Value → Part}

theorem fate_hidesAll (h : hidesAll (left + 1) schema = true) (place : List Step) :
    fate (left + 1) schema v place = .hidden := by
  simp [fate, h]

variable {step : Step} {child : Value}

theorem fate_child (hopen : hidesAll (left + 1) schema = false)
    (hparts : (Kind.read (some schema)).parts v = some part)
    (hchild : childAt v step = some child) (rest : List Step) :
    fate (left + 1) schema v (step :: rest) =
      match part step child with
      | .keep => if rest = [] then .shown else .hidden
      | .hide => .hidden
      | .described next => fate left next child rest := by
  simp [fate, hopen, hparts, hchild]

theorem isContainer_of_child (h : childAt v step = some child) :
    isContainer v = true := by
  cases v with
  | list items => rfl
  | map entries => rfl
  | _ => cases h

theorem isContainer_of_parts {kind : Kind} (h : kind.parts v = some part) :
    isContainer v = true := by
  unfold Kind.parts at h
  split at h
  all_goals first
    | rfl
    | cases h

theorem ofField_ne_keep {field : Option FieldRef} {extra : Option Value} :
    Part.ofField field extra ≠ .keep := by
  cases field <;> cases extra <;> simp [Part.ofField]

theorem isContainer_of_keep {kind : Kind} (h : kind.parts v = some part)
    (hkeep : part step child = .keep) : isContainer child = false := by
  have hfallback : Part.fallback child = .keep → isContainer child = false := by
    unfold Part.fallback
    split
    · intro hhide
      cases hhide
    · next hscalar => exact fun _ => by simpa using hscalar
  unfold Kind.parts at h
  split at h
  · obtain rfl := Option.some.inj h
    cases hkeep
  · obtain rfl := Option.some.inj h
    dsimp only at hkeep
    split at hkeep
    · split at hkeep
      · cases hkeep
      · exact hfallback hkeep
    · cases hkeep
  · obtain rfl := Option.some.inj h
    exact absurd hkeep ofField_ne_keep
  · obtain rfl := Option.some.inj h
    dsimp only at hkeep
    split at hkeep
    · exact absurd hkeep ofField_ne_keep
    · cases hkeep
  · obtain rfl := Option.some.inj h
    dsimp only at hkeep
    split at hkeep
    · split at hkeep
      · cases child with
        | string text => rfl
        | _ => cases hkeep
      · exact absurd hkeep ofField_ne_keep
    · cases hkeep
  · cases h

/-- The walk, but for unions: hidden whole, copied part by part, or left to the fallback. -/
theorem redactNode_eq (hunion : ∀ anyOf, Kind.read (some schema) ≠ .union anyOf) :
    redactNode doubles engine placeholder (left + 1) schema v =
      if hidesAll (left + 1) schema then .ok (mask placeholder)
      else
        match (Kind.read (some schema)).parts v with
        | some part =>
          copyInside (fun step child => (part step child).copy placeholder
            (redactNode doubles engine placeholder left) child) v
        | none => .ok (fallback placeholder v) := by
  by_cases hmarks : marksSecret (left + 1) schema = true
  · have hhides : hidesAll (left + 1) schema = true := by simp [hidesAll, hmarks]
    rw [if_pos hhides, redactNode, if_pos hmarks]
  · have hhides : hidesAll (left + 1) schema = (Kind.read (some schema)).isRef := by
      simp [hidesAll, hmarks]
    rw [redactNode, if_neg hmarks, hhides]
    cases hkind : Kind.read (some schema) with
    | union anyOf => exact absurd hkind (hunion anyOf)
    | unknown name =>
      by_cases href : name = Vocab.ref
      · simp [Kind.parts, Kind.isRef, href]
      · simp [Kind.parts, Kind.isRef, href]
    | _ =>
      cases hparts : Kind.parts _ v with
      | none => simp [Kind.isRef, hparts]
      | some part => simp [Kind.isRef, hparts]

theorem NoUnions.inside (h : NoUnions schema) (hparts : (Kind.read (some schema)).parts v = some part)
    {s : Value} (hchild : childAt v step = some child)
    (hpart : part step child = .described s) : NoUnions s := by
  obtain ⟨w, hdescribes, hgives⟩ := gives_of_part hparts hpart hchild
  exact h.below (.step (.describes hdescribes) hgives)

/-- Each place of a value is shown in its copy, or lies under a placeholder. -/
theorem fate_of_ok {d : Value} (hunions : NoUnions schema) (hv : v.Distinct)
    (h : redactNode doubles engine placeholder left schema v = .ok d) {place : List Step} {c : Value}
    (hplace : nodeAt v place = some c) :
    fate left schema v place = .shown ∧ (∃ e, nodeAt d place = some e ∧ CopyShows c e) ∨
      fate left schema v place = .hidden ∧
        ∃ outer, outer <+: place ∧ nodeAt d outer = some (mask placeholder) := by
  induction left generalizing schema v d place c with
  | zero => cases h
  | succ left ih =>
    rw [redactNode_eq (hunions schema .self)] at h
    cases hopen : hidesAll (left + 1) schema with
    | true =>
      rw [hopen] at h
      obtain rfl := Except.ok.inj h
      exact .inr ⟨fate_hidesAll hopen place, [], List.nil_prefix, rfl⟩
    | false =>
      rw [hopen, if_neg Bool.false_ne_true] at h
      cases hparts : (Kind.read (some schema)).parts v with
      | none =>
        rw [hparts] at h
        obtain rfl := Except.ok.inj h
        cases place with
        | nil =>
          obtain rfl := Option.some.inj hplace
          cases hcontainer : isContainer v with
          | true =>
            refine .inr ⟨by simp [fate, hopen, hparts, hcontainer], [], List.nil_prefix, ?_⟩
            simp [fallback, hcontainer]
          | false =>
            refine .inl ⟨by simp [fate, hopen, hparts, hcontainer], v, ?_, rfl, fun _ => rfl⟩
            simp [fallback, hcontainer]
        | cons step rest =>
          obtain ⟨child, hchild, -⟩ := Option.bind_eq_some_iff.mp hplace
          have hcontainer := isContainer_of_child hchild
          refine .inr ⟨by simp [fate, hopen, hparts], [], List.nil_prefix, ?_⟩
          simp [fallback, hcontainer]
      | some part =>
        rw [hparts] at h
        obtain ⟨htag, hcopied⟩ := copyInside_ok hv h
        cases place with
        | nil =>
          obtain rfl := Option.some.inj hplace
          refine .inl ⟨by simp [fate, hopen, hparts], d, rfl, htag, ?_⟩
          intro hscalar
          rw [isContainer_of_parts hparts] at hscalar
          cases hscalar
        | cons step rest =>
          obtain ⟨child, hchild, hrest⟩ := Option.bind_eq_some_iff.mp hplace
          obtain ⟨w, hw, -, hcopy⟩ := AssocList.get_forall₂_left (fun _ _ h => h.1) hcopied hchild
          dsimp only at hcopy
          have hat : ∀ outer, nodeAt d (step :: outer) = nodeAt w outer := by
            intro outer
            rw [nodeAt_cons, childAt, hw]
            rfl
          rw [fate_child hopen hparts hchild]
          cases hpart : part step child with
          | keep =>
            rw [hpart] at hcopy
            obtain rfl := Except.ok.inj hcopy
            have hscalar := isContainer_of_keep hparts hpart
            cases rest with
            | nil =>
              obtain rfl := Option.some.inj hrest
              exact .inl ⟨rfl, _, hat [], rfl, fun _ => rfl⟩
            | cons step' rest =>
              obtain ⟨child', hchild', -⟩ := Option.bind_eq_some_iff.mp hrest
              rw [isContainer_of_child hchild'] at hscalar
              cases hscalar
          | hide =>
            rw [hpart] at hcopy
            obtain rfl := Except.ok.inj hcopy
            exact .inr ⟨rfl, [step], by simp, hat []⟩
          | described s =>
            rw [hpart] at hcopy
            have hdistinct := distinct_inside hv (AssocList.mem_of_get hchild)
            rcases ih (hunions.inside hparts hchild hpart) hdistinct hcopy hrest with
              ⟨hfate, e, he, hshows⟩ | ⟨hfate, outer, houter, he⟩
            · exact .inl ⟨hfate, e, by rw [hat, he], hshows⟩
            · exact .inr ⟨hfate, step :: outer, List.cons_prefix_cons.mpr ⟨rfl, houter⟩, by rw [hat, he]⟩

theorem exists_copy (hunions : NoUnions schema) (hv : v.Distinct)
    (h : ∀ place c, nodeAt v place = some c → fate left schema v place ≠ .tooDeep) :
    ∃ d, redactNode doubles engine placeholder left schema v = .ok d := by
  induction left generalizing schema v with
  | zero => exact absurd rfl (h [] v rfl)
  | succ left ih =>
    rw [redactNode_eq (hunions schema .self)]
    cases hopen : hidesAll (left + 1) schema with
    | true => exact ⟨_, rfl⟩
    | false =>
      rw [if_neg Bool.false_ne_true]
      cases hparts : (Kind.read (some schema)).parts v with
      | none => exact ⟨_, rfl⟩
      | some part =>
        apply copyInside_exists
        rintro ⟨step, child⟩ hmem
        have hchild : childAt v step = some child := AssocList.get_of_mem (nodup_steps hv) hmem
        dsimp only
        cases hpart : part step child with
        | keep => exact ⟨child, rfl⟩
        | hide => exact ⟨_, rfl⟩
        | described s =>
          apply ih (hunions.inside hparts hchild hpart) (distinct_inside hv hmem)
          intro place c hplace
          have hfate := h (step :: place) c (by rw [nodeAt_cons, hchild]; exact hplace)
          rwa [fate_child hopen hparts hchild, hpart] at hfate

end Fate

end Guatiao.Schema
