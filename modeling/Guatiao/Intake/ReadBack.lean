import Guatiao.Intake.Fields

/-!
# What is read back of a field

Reading a field back looks at nothing but what the store holds at or under the field's key. So
whatever is flattened into a store, and in whatever order, a field reads back as what was last
flattened into it.
-/

namespace Guatiao.Intake

open Lib Schema

/-- Two stores hold the same at or under a path. -/
def Alike (s s' : Store) (path : Text) : Prop :=
  ∀ key, atOrUnder key path = true → s.get key = s'.get key

/-- A store with fields flattened into it, one after the other. -/
def flattenAll (writes : List (FieldRef × Value)) (store : Store) : Store :=
  writes.foldl (fun store w => (flatten w.1 w.2 store).1) store

/-- What is spelled behind a path. -/
def Behind (path below : Text) : Prop := ∃ rest, Boundary rest ∧ below = path ++ rest

variable {s s' : Store} {path below : Text}

theorem behind_named (path name : Text) : Behind path (named path name) :=
  ⟨_, by simpa using boundary_behind (segmentOf name) [], named_eq path name⟩

theorem behind_keyed (path key : Text) : Behind path (keyed path key) :=
  ⟨_, by simpa [Segment.behind] using boundary_behind (.key key) [], rfl⟩

theorem behind_indexed (path : Text) (at_ : ℕ) : Behind path (indexed path at_) :=
  ⟨_, by simpa [Segment.behind] using boundary_behind (.index at_) [], rfl⟩

theorem Alike.get (h : Alike s s' path) : s.get path = s'.get path :=
  h path (atOrUnder_iff.mpr ⟨[], boundary_nil, (List.append_nil _).symm⟩)

theorem Alike.behind (h : Alike s s' path) (hbelow : Behind path below) : Alike s s' below := by
  obtain ⟨rest, hrest, rfl⟩ := hbelow
  intro key hkey
  obtain ⟨more, hmore, rfl⟩ := atOrUnder_iff.mp hkey
  refine h _ (atOrUnder_iff.mpr ⟨rest ++ more, ?_, List.append_assoc ..⟩)
  cases rest with
  | nil => exact hmore
  | cons c rest => simpa [Boundary] using hrest

theorem atOrUnder_opened {opener : Char} (hopener : opener ∈ ['.', '[']) {key : Text}
    (h : (path ++ [opener]).isPrefixOf key = true) : atOrUnder key path = true := by
  obtain ⟨rest, rfl⟩ := List.isPrefixOf_iff_prefix.mp h
  refine atOrUnder_iff.mpr ⟨opener :: rest, ?_, by simp⟩
  simpa [Boundary] using hopener

theorem Alike.scan (h : Alike s s' path) (opener : Char) (hopener : opener ∈ ['.', '[']) :
    s.scan (path ++ [opener]) (path ++ [opener]).isPrefixOf =
      s'.scan (path ++ [opener]) (path ++ [opener]).isPrefixOf := by
  apply SortedMap.scan_congr
  · intro key hkey
    exact SortedMap.prefix_le (List.isPrefixOf_iff_prefix.mp hkey)
  · intro key later hstart hle hlater
    exact List.isPrefixOf_iff_prefix.mpr
      (SortedMap.prefix_of_le hstart hle (List.isPrefixOf_iff_prefix.mp hlater))
  · exact fun key hkey => h key (atOrUnder_opened hopener hkey)

theorem startsUnder_eq (store : Store) (start : Text) :
    startsUnder store start = !(store.scan start start.isPrefixOf).isEmpty := by
  rw [startsUnder, SortedMap.scan]
  cases store.fromKey start with
  | nil => rfl
  | cons e rest => cases hstart : start.isPrefixOf e.1 <;> simp [hstart]

theorem Alike.holds (h : Alike s s' path) : Intake.holds s path = Intake.holds s' path := by
  simp only [Intake.holds, startsUnder_eq, List.any_cons, List.any_nil, h.get,
    h.scan '.' (by simp), h.scan '[' (by simp)]

theorem Alike.children (h : Alike s s' path) : Intake.children s path = Intake.children s' path := by
  have hdot := h.scan '.' (by simp)
  have hbracket := h.scan '[' (by simp)
  simp only [Intake.children, steps, List.flatMap_cons, List.flatMap_nil, hdot, hbracket]

theorem behind_of_steps {p : Step × Text} (h : p ∈ steps s path) : Behind path p.2 := by
  obtain ⟨opener, hopener, h⟩ := List.mem_flatMap.mp h
  obtain ⟨e, he, h⟩ := List.mem_filterMap.mp h
  obtain ⟨q, -, rfl⟩ := Option.map_eq_some_iff.mp h
  obtain ⟨more, hmore⟩ := List.isPrefixOf_iff_prefix.mp (List.all_eq_true.mp List.all_takeWhile e he)
  refine ⟨(opener :: more).take q.2, ?_, ?_⟩
  · cases q.2 with
    | zero => exact boundary_nil
    | succ n => simpa [Boundary] using hopener
  · rw [← hmore, List.append_assoc, List.take_length_add_append]
    rfl

theorem mem_addOnce {all out : List (Step × Text)} {p : Step × Text}
    (h : p ∈ all.foldl addOnce out) : p ∈ out ∨ p ∈ all := by
  induction all generalizing out with
  | nil => exact .inl h
  | cons next all ih =>
    rcases ih h with hin | hin
    · unfold addOnce at hin
      split at hin
      · exact .inl hin
      · rcases List.mem_append.mp hin with hin | hin
        · exact .inl hin
        · rw [List.mem_singleton.mp hin]
          exact .inr (List.mem_cons_self ..)
    · exact .inr (List.mem_cons_of_mem _ hin)

theorem mem_spellings {all : List (Step × Text)} {p : Text × List Text} (hp : p ∈ spellings all)
    {at_ : Text} (hat : at_ ∈ p.2) : ∃ q ∈ all, q.2 = at_ := by
  induction all using List.reverseRecOn generalizing p with
  | nil => cases hp
  | append_singleton all q ih =>
    rw [spellings, List.foldl_append] at hp
    have hbefore : ∀ p ∈ spellings all, at_ ∈ p.2 → ∃ r ∈ all ++ [q], r.2 = at_ := by
      intro p hp hat
      obtain ⟨r, hr, heq⟩ := ih hp hat
      exact ⟨r, List.mem_append_left _ hr, heq⟩
    rcases AssocList.mem_set hp with rfl | hp
    · rcases List.mem_append.mp hat with hat | hat
      · change at_ ∈ (AssocList.get q.1.key (spellings all)).getD [] at hat
        cases hget : AssocList.get q.1.key (spellings all) with
        | none =>
          rw [hget] at hat
          cases hat
        | some texts =>
          rw [hget] at hat
          exact hbefore _ (AssocList.mem_of_get hget) hat
      · exact ⟨q, List.mem_append_right _ (List.mem_singleton_self q), (List.mem_singleton.mp hat).symm⟩
    · exact hbefore p hp hat

theorem behind_of_spellings {p : Text × List Text} (hp : p ∈ spellings (children s path)) {at_ : Text}
    (hat : at_ ∈ p.2) : Behind path at_ := by
  obtain ⟨q, hq, rfl⟩ := mem_spellings hp hat
  rcases mem_addOnce hq with hq | hq
  · cases hq
  · exact behind_of_steps hq

theorem setFound_congr {α : Type} {key : α → String} {found found' : α → Option Value} {all : List α}
    (h : ∀ a ∈ all, found a = found' a) (map : List Entry) :
    setFound key found all map = setFound key found' all map :=
  List.foldl_ext _ _ _ fun map a ha => by simp only [h a ha]

theorem Alike.positions (h : Alike s s' path) {rebuilt rebuilt' : Text → Kind → Option Value}
    (hbelow : ∀ below kind, Behind path below → rebuilt below kind = rebuilt' below kind) (index : ℕ)
    (kinds : List Kind) :
    positionsFrom s path rebuilt index kinds = positionsFrom s' path rebuilt' index kinds := by
  induction kinds generalizing index with
  | nil => rfl
  | cons kind kinds ih =>
    have hindexed := behind_indexed path index
    simp only [positionsFrom, (h.behind hindexed).holds, hbelow _ kind hindexed, ih]

theorem Alike.rebuild (h : Alike s s' path) (left : ℕ) (kind : Kind) :
    Intake.rebuild s left path kind = Intake.rebuild s' left path kind := by
  induction left generalizing path kind with
  | zero => rfl
  | succ left ih =>
    have hbelow : ∀ below kind, Behind path below →
        Intake.rebuild s left below kind = Intake.rebuild s' left below kind :=
      fun below kind hbehind => ih (h.behind hbehind) kind
    have hmember : ∀ f : FieldRef, Intake.rebuild s left (named path f.key.toList) f.kind =
        Intake.rebuild s' left (named path f.key.toList) f.kind :=
      fun f => hbelow _ _ (behind_named path _)
    cases kind with
    | variant tag arms => simp only [Intake.rebuild, h.get, hmember]
    | map fields => simp only [Intake.rebuild, hmember]
    | mapOf values =>
      simp only [Intake.rebuild, h.children]
      congr 1
      apply setFound_congr
      intro p hp
      rw [← h.children] at hp
      have hall : ∀ at_ ∈ keyed path p.1 :: p.2.filter (· != keyed path p.1), Behind path at_ := by
        intro at_ hat
        rcases List.mem_cons.mp hat with rfl | hat
        · exact behind_keyed path _
        · exact behind_of_spellings hp (List.mem_filter.mp hat).1
      rw [List.filter_congr fun at_ hat => (h.behind (hall at_ hat)).holds]
      rw [← List.head?_filterMap, ← List.head?_filterMap,
        List.filterMap_congr fun at_ hat => hbelow at_ _ (hall at_ (List.mem_filter.mp hat).1)]
    | list items =>
      have hindexed : ∀ at_ kind, Intake.rebuild s left (indexed path at_) kind =
          Intake.rebuild s' left (indexed path at_) kind :=
        fun at_ kind => hbelow _ kind (behind_indexed path at_)
      simp only [Intake.rebuild, h.children, hindexed]
    | tuple positions => simp only [Intake.rebuild, h.positions hbelow]
    | _ => simp only [Intake.rebuild, h.get]

theorem Alike.unflatten {field : FieldRef} (h : Alike s s' (rootPath field.key.toList)) :
    Intake.unflatten field s = Intake.unflatten field s' := by
  simp only [Intake.unflatten, h.holds, h.rebuild]

/-- A field reads back by what the store holds at or under its key. Whatever is flattened into a
store, that is what was last flattened into the field, or what was there before. -/
theorem unflatten_own (field : FieldRef) (store : Store) :
    (∀ s, Alike s store (rootPath field.key.toList) → unflatten field s = unflatten field store) ∧
    ∀ writes, unflatten field (flattenAll writes store) =
      match (writes.filter fun w => w.1.key = field.key).getLast? with
      | some w => unflatten field (flatten w.1 w.2 SortedMap.empty).1
      | none => unflatten field store := by
  refine ⟨fun s h => h.unflatten, fun writes => ?_⟩
  induction writes using List.reverseRecOn with
  | nil => rfl
  | append_singleton writes w ih =>
    rw [flattenAll, List.foldl_append, List.filter_append]
    change unflatten field (flatten w.1 w.2 (flattenAll writes store)).1 = _
    by_cases hkey : w.1.key = field.key
    · rw [List.filter_cons_of_pos (by simpa using hkey), List.filter_nil, List.getLast?_concat]
      refine Alike.unflatten fun key hunder => ?_
      rw [get_flatten, if_pos (hkey ▸ hunder)]
    · rw [List.filter_cons_of_neg (by simpa using hkey), List.filter_nil, List.append_nil, ← ih]
      refine Alike.unflatten fun key hunder => ?_
      rw [get_flatten, if_neg]
      simp [atOrUnder_other (Ne.symm hkey) hunder]

end Guatiao.Intake
