import Guatiao.Intake.Flat

/-!
# What a walk writes

A walk is told by its leaves: the segments that lead to each, and its text. The store after a
walk is the store before with every leaf under the path of the frame, whatever the path; and two
leaves of one value are never under one key.
-/

namespace Guatiao.Intake

open Lib Schema

/-- A name as the segment that spells it. -/
def segmentOf (name : Text) : Segment := if isBareName name then .field name else .key name

theorem named_eq (path name : Text) : named path name = path ++ (segmentOf name).behind := by
  unfold named segmentOf
  split <;> rfl

theorem segmentOf_spellable (name : Text) : (segmentOf name).Spellable := by
  unfold segmentOf
  split
  · assumption
  · trivial

theorem segmentOf_injective {name other : Text} (h : segmentOf name = segmentOf other) :
    name = other := by
  unfold segmentOf at h
  split at h <;> split at h <;> simp_all

/-- One thing a node contains: the segment that leads to it, the field that governs it, its value.
What has no declared name is governed by a field of its schema under the empty key. -/
structure Part where
  segment : Segment
  field : FieldRef
  value : Value

/-- The members of a map that fields declare, as parts. -/
def memberParts (map : List Entry) (fields : List FieldRef) : List Part :=
  fields.filterMap fun member =>
    (AssocList.get member.key map).map fun v => ⟨segmentOf member.key.toList, member, v⟩

/-- The field of an open map's values. An absent schema is of no kind, as no schema is. -/
def valuesField (owner : Value) : FieldRef :=
  ⟨"", (owner.get Vocab.additionalProperties).getD .absent, false⟩

/-- What a node writes at its own place, and what it contains. -/
def parts (kind : Kind) (value : Value) : Option (Option Text × List Part) :=
  match kind with
  | .variant tag _ =>
    value.asMap.bind fun map =>
      (selected kind tag map).map fun p => (some p.1.toList, memberParts map p.2.fields)
  | .map _ => value.asMap.map fun map => (none, memberParts map kind.fields)
  | .mapOf owner =>
    value.asMap.map fun map => (none, map.map fun e => ⟨.key e.1.toList, valuesField owner, e.2⟩)
  | .list items =>
    value.asList.map fun list =>
      (none, list.mapIdx fun at_ v => ⟨.index at_, ⟨"", items, false⟩, v⟩)
  | .tuple owner =>
    value.asList.map fun list =>
      (none, (list.zip (listUnder Vocab.prefixItems owner)).mapIdx fun at_ p =>
        ⟨.index at_, ⟨"", p.2, false⟩, p.1⟩)
  | _ => (scalarText value).map fun text => (some text, [])

/-- A part as the frame a walk pushes for it. -/
def Part.frame (path : Text) (p : Part) : Frame := ⟨path ++ p.segment.behind, p.field.kind, p.value⟩

theorem members_eq (path : Text) (map : List Entry) (fields : List FieldRef) :
    members path map fields = (memberParts map fields).map (Part.frame path) := by
  rw [members, memberParts, List.map_filterMap]
  apply List.filterMap_congr
  intro member _
  cases AssocList.get member.key map with
  | none => rfl
  | some v => simp [Part.frame, named_eq]

theorem mapIdx_map {α β γ : Type} (f : ℕ → β → γ) (g : α → β) (l : List α) :
    (l.map g).mapIdx f = l.mapIdx fun at_ a => f at_ (g a) := by
  apply List.ext_getElem?
  intro i
  simp [Function.comp_def]

theorem map_mapIdx {α β γ : Type} (g : β → γ) (f : ℕ → α → β) (l : List α) :
    (l.mapIdx f).map g = l.mapIdx fun at_ a => g (f at_ a) := by
  apply List.ext_getElem?
  intro i
  simp [Function.comp_def]

theorem valuesField_kind (owner : Value) : (valuesField owner).kind = (Kind.mapOf owner).values := by
  simp only [valuesField, FieldRef.kind, Kind.values]
  cases owner.get Vocab.additionalProperties with
  | none => rfl
  | some values => rfl

theorem visit_eq (path : Text) (kind : Kind) (value : Value) :
    visit path kind value =
      (parts kind value).map fun p => (p.1, p.2.map (Part.frame path)) := by
  cases kind with
  | variant tag arms =>
    simp only [visit, parts, Option.map_bind]
    apply Option.bind_congr
    intro map _
    rw [Function.comp_apply, Option.map_map]
    cases selected (.variant tag arms) tag map with
    | none => rfl
    | some p => simp [members_eq]
  | map owner => simp [visit, parts, members_eq, Option.map_map, Function.comp_def]
  | mapOf owner =>
    simp [visit, parts, Part.frame, keyed, Segment.behind, Function.comp_def, valuesField_kind]
  | list items =>
    simp [visit, parts, map_mapIdx, Part.frame, indexed, Segment.behind, Function.comp_def,
      FieldRef.kind, Kind.items]
  | tuple owner =>
    have hzip : ∀ list : List Value, list.zip (Kind.tuple owner).positions =
        (list.zip (listUnder Vocab.prefixItems owner)).map fun p => (p.1, Kind.read (some p.2)) := by
      intro list
      rw [Kind.positions, List.zip_map_right]
      rfl
    simp [visit, parts, hzip, map_mapIdx, mapIdx_map, Part.frame, indexed, Segment.behind,
      Function.comp_def, FieldRef.kind]
  | _ => simp [visit, parts, Function.comp_def]

/-- A leaf below a place: the segments that lead to it, the fields on the way, the field that
governs it, its text. A variant's discriminant is a leaf at the variant's own place. -/
structure Leaf where
  segments : List Segment
  above : List FieldRef
  field : FieldRef
  text : Text
  deriving DecidableEq

/-- A leaf behind one more segment, inside one more field. -/
def Leaf.behind (field : FieldRef) (segment : Segment) (leaf : Leaf) : Leaf :=
  { leaf with segments := segment :: leaf.segments, above := field :: leaf.above }

/-- The leaves of a field's value, in the order a walk writes them. -/
def leaves : ℕ → FieldRef → Value → List Leaf
  | 0, _, _ => []
  | left + 1, field, value =>
    match parts field.kind value with
    | none => []
    | some (text, ps) =>
      (text.map fun text => (⟨[], [], field, text⟩ : Leaf)).toList ++
        ps.reverse.flatMap fun p => (leaves left p.field p.value).map (Leaf.behind field p.segment)

variable {left : ℕ} {field : FieldRef} {value : Value} {leaf : Leaf} {p : Part} {text : Option Text}
   {kind : Kind} {ps : List Part}

theorem mem_leaves :
    leaf ∈ leaves (left + 1) field value ↔
      ∃ text ps, parts field.kind value = some (text, ps) ∧
        ((∃ own, text = some own ∧ leaf = ⟨[], [], field, own⟩) ∨
          ∃ p ∈ ps, ∃ below ∈ leaves left p.field p.value, leaf = below.behind field p.segment) := by
  simp only [leaves]
  cases hparts : parts field.kind value with
  | none => simp
  | some q =>
    obtain ⟨text, ps⟩ := q
    simp only [List.mem_append, Option.mem_toList, Option.map_eq_some_iff, List.mem_flatMap,
      List.mem_reverse, List.mem_map, Option.some.injEq, Prod.mk.injEq]
    constructor
    · rintro (⟨own, htext, rfl⟩ | ⟨p, hp, below, hbelow, rfl⟩)
      · exact ⟨text, ps, ⟨rfl, rfl⟩, .inl ⟨own, htext, rfl⟩⟩
      · exact ⟨text, ps, ⟨rfl, rfl⟩, .inr ⟨p, hp, below, hbelow, rfl⟩⟩
    · rintro ⟨text', ps', ⟨rfl, rfl⟩, ⟨own, htext, rfl⟩ | ⟨p, hp, below, hbelow, rfl⟩⟩
      · exact .inl ⟨own, htext, rfl⟩
      · exact .inr ⟨p, hp, below, hbelow, rfl⟩

/-- The entry of a leaf under a path. -/
def Leaf.entry (path : Text) (leaf : Leaf) : Text × Text := (path ++ render leaf.segments, leaf.text)

/-- A store with entries written in turn. -/
def putAll (entries : List (Text × Text)) (store : Store) : Store :=
  entries.foldl (fun store e => store.insert e.1 e.2) store

theorem putAll_append (entries more : List (Text × Text)) (store : Store) :
    putAll (entries ++ more) store = putAll more (putAll entries store) := List.foldl_append

theorem get_putAll_of_not_mem {entries : List (Text × Text)} {key : Text} (store : Store)
    (h : ∀ e ∈ entries, e.1 ≠ key) : (putAll entries store).get key = store.get key := by
  induction entries generalizing store with
  | nil => rfl
  | cons e entries ih =>
    rw [putAll, List.foldl_cons, ← putAll, ih _ fun e he => h e (List.mem_cons_of_mem _ he)]
    exact SortedMap.get_insert_of_ne (h e (List.mem_cons_self ..)).symm _ _

theorem get_putAll_of_mem {entries : List (Text × Text)} {key text : Text} (store : Store)
    (hone : ∀ e ∈ entries, e.1 = key → e.2 = text) (hmem : (key, text) ∈ entries) :
    (putAll entries store).get key = some text := by
  induction entries generalizing store with
  | nil => exact absurd hmem List.not_mem_nil
  | cons e entries ih =>
    have hone' : ∀ e ∈ entries, e.1 = key → e.2 = text :=
      fun e he => hone e (List.mem_cons_of_mem _ he)
    rw [putAll, List.foldl_cons, ← putAll]
    by_cases hlater : (key, text) ∈ entries
    · exact ih _ hone' hlater
    · have hnone : ∀ e ∈ entries, e.1 ≠ key := by
        intro f hf hkey
        have htext := hone' f hf hkey
        apply hlater
        rw [← hkey, ← htext]
        exact hf
      rw [get_putAll_of_not_mem _ hnone]
      rcases List.mem_cons.mp hmem with rfl | hmem
      · exact SortedMap.get_insert_self _ _ _
      · exact absurd hmem hlater

theorem put_eq (path : Text) (text : Option Text) (store : Store) :
    Store.put path text store = putAll (text.map fun text => (path, text)).toList store := by
  cases text <;> rfl

theorem walk_fst (left : ℕ) (path : Text) (field : FieldRef) (value : Value) (store : Store) :
    (walk left ⟨path, field.kind, value⟩ store).1 =
      putAll ((leaves left field value).map (Leaf.entry path)) store := by
  induction left generalizing path field value store with
  | zero => rfl
  | succ left ih =>
    simp only [walk, leaves, visit_eq]
    cases parts field.kind value with
    | none => rfl
    | some p =>
      obtain ⟨text, ps⟩ := p
      simp only [Option.map_some, List.map_append, putAll_append, List.map_flatMap, List.map_map]
      have hown : ((text.map fun text => (⟨[], [], field, text⟩ : Leaf)).toList).map (Leaf.entry path) =
          (text.map fun text => (path, text)).toList := by
        cases text <;> simp [Leaf.entry]
      rw [hown, ← put_eq]
      -- The frames are walked from the last: induction over them, from the first.
      induction ps with
      | nil => rfl
      | cons p ps ihps =>
        simp only [List.map_cons, List.foldr_cons, List.reverse_cons, List.flatMap_append, putAll_append]
        rw [← ihps]
        simp only [Part.frame, ih, List.flatMap_cons, List.flatMap_nil, List.append_nil]
        congr 1
        apply List.map_congr_left
        intro leaf _
        simp [Leaf.entry, Leaf.behind]

theorem walk_snd_eq (left : ℕ) (frame : Frame) (store other : Store) :
    (walk left frame store).2 = (walk left frame other).2 := by
  induction left generalizing frame store other with
  | zero => rfl
  | succ left ih =>
    simp only [walk]
    cases visit frame.path frame.kind frame.value with
    | none => rfl
    | some p =>
      obtain ⟨text, frames⟩ := p
      simp only
      induction frames with
      | nil => rfl
      | cons f frames ihframes =>
        simp only [List.foldr_cons]
        rw [ihframes, ih f]

theorem mem_memberParts {map : List Entry} {fields : List FieldRef} :
    p ∈ memberParts map fields ↔
      ∃ f ∈ fields, ∃ v, AssocList.get f.key map = some v ∧
        p = ⟨segmentOf f.key.toList, f, v⟩ := by
  simp only [memberParts, List.mem_filterMap, Option.map_eq_some_iff]
  constructor
  · rintro ⟨f, hf, v, hget, rfl⟩
    exact ⟨f, hf, v, hget, rfl⟩
  · rintro ⟨f, hf, v, hget, rfl⟩
    exact ⟨f, hf, v, hget, rfl⟩

theorem asMap_eq {map : List Entry} (h : value.asMap = some map) :
    value = .map map := by
  cases value with
  | map entries =>
    obtain rfl : entries = map := Option.some.inj h
    rfl
  | _ => cases h

theorem asList_eq {list : List Value} (h : value.asList = some list) :
    value = .list list := by
  cases value with
  | list items =>
    obtain rfl : items = list := Option.some.inj h
    rfl
  | _ => cases h

theorem value_of_part (h : parts kind value = some (text, ps)) (hp : p ∈ ps) :
    (∃ map key, value = .map map ∧ (key, p.value) ∈ map) ∨
      ∃ list, value = .list list ∧ p.value ∈ list := by
  have hmembers : ∀ {map fields}, value = .map map → p ∈ memberParts map fields →
      ∃ map key, value = .map map ∧ (key, p.value) ∈ map := by
    intro map fields hvalue hp
    obtain ⟨f, -, v, hget, rfl⟩ := mem_memberParts.mp hp
    exact ⟨map, f.key, hvalue, AssocList.mem_of_get hget⟩
  cases kind with
  | variant tag arms =>
    obtain ⟨map, hmap, hsome⟩ := Option.bind_eq_some_iff.mp h
    obtain ⟨q, -, heq⟩ := Option.map_eq_some_iff.mp hsome
    obtain ⟨-, rfl⟩ := Prod.mk.inj heq
    exact .inl (hmembers (asMap_eq hmap) hp)
  | map owner =>
    obtain ⟨map, hmap, heq⟩ := Option.map_eq_some_iff.mp h
    obtain ⟨-, rfl⟩ := Prod.mk.inj heq
    exact .inl (hmembers (asMap_eq hmap) hp)
  | mapOf owner =>
    obtain ⟨map, hmap, heq⟩ := Option.map_eq_some_iff.mp h
    obtain ⟨-, rfl⟩ := Prod.mk.inj heq
    obtain ⟨e, he, rfl⟩ := List.mem_map.mp hp
    exact .inl ⟨map, e.1, asMap_eq hmap, he⟩
  | list items =>
    obtain ⟨list, hlist, heq⟩ := Option.map_eq_some_iff.mp h
    obtain ⟨-, rfl⟩ := Prod.mk.inj heq
    obtain ⟨i, hi, rfl⟩ := List.mem_mapIdx.mp hp
    exact .inr ⟨list, asList_eq hlist, List.getElem_mem hi⟩
  | tuple owner =>
    obtain ⟨list, hlist, heq⟩ := Option.map_eq_some_iff.mp h
    obtain ⟨-, rfl⟩ := Prod.mk.inj heq
    obtain ⟨i, hi, rfl⟩ := List.mem_mapIdx.mp hp
    exact .inr ⟨list, asList_eq hlist, (List.of_mem_zip (List.getElem_mem hi)).1⟩
  | _ =>
    obtain ⟨text, -, heq⟩ := Option.map_eq_some_iff.mp h
    obtain ⟨-, rfl⟩ := Prod.mk.inj heq
    exact absurd hp List.not_mem_nil

theorem everywhere_part {P : Value → Prop}
    (hvalue : value.Everywhere P) (h : parts kind value = some (text, ps))
    (hp : p ∈ ps) : p.value.Everywhere P := by
  rcases value_of_part h hp with ⟨map, key, rfl, hmem⟩ | ⟨list, rfl, hmem⟩
  · exact (Value.everywhere_map.mp hvalue).2 key p.value hmem
  · exact (Value.everywhere_list.mp hvalue).2 p.value hmem

theorem everywhere_partField {P : Value → Prop} (hkind : kind.Everywhere P) (habsent : P .absent)
    (h : parts kind value = some (text, ps)) (hp : p ∈ ps) :
    p.field.schema.Everywhere P := by
  cases kind with
  | variant tag arms =>
    obtain ⟨map, -, hsome⟩ := Option.bind_eq_some_iff.mp h
    obtain ⟨q, hselected, heq⟩ := Option.map_eq_some_iff.mp hsome
    obtain ⟨-, rfl⟩ := Prod.mk.inj heq
    obtain ⟨f, hf, v, -, rfl⟩ := mem_memberParts.mp hp
    obtain ⟨arm, hfind, rfl⟩ := Option.map_eq_some_iff.mp hselected
    exact everywhere_armFields hkind (List.mem_of_find?_eq_some hfind) hf
  | map owner =>
    obtain ⟨map, -, heq⟩ := Option.map_eq_some_iff.mp h
    obtain ⟨-, rfl⟩ := Prod.mk.inj heq
    obtain ⟨f, hf, v, -, rfl⟩ := mem_memberParts.mp hp
    exact everywhere_fieldsOf hkind hf
  | mapOf owner =>
    obtain ⟨map, -, heq⟩ := Option.map_eq_some_iff.mp h
    obtain ⟨-, rfl⟩ := Prod.mk.inj heq
    obtain ⟨e, -, rfl⟩ := List.mem_map.mp hp
    simp only [valuesField]
    cases hget : owner.get Vocab.additionalProperties with
    | none => exact habsent
    | some values => exact Value.Everywhere.get hkind hget
  | list items =>
    obtain ⟨list, -, heq⟩ := Option.map_eq_some_iff.mp h
    obtain ⟨-, rfl⟩ := Prod.mk.inj heq
    obtain ⟨i, -, rfl⟩ := List.mem_mapIdx.mp hp
    exact hkind
  | tuple owner =>
    obtain ⟨list, -, heq⟩ := Option.map_eq_some_iff.mp h
    obtain ⟨-, rfl⟩ := Prod.mk.inj heq
    obtain ⟨i, hi, rfl⟩ := List.mem_mapIdx.mp hp
    exact everywhere_of_under hkind (List.of_mem_zip (List.getElem_mem hi)).2
  | _ =>
    obtain ⟨text, -, heq⟩ := Option.map_eq_some_iff.mp h
    obtain ⟨-, rfl⟩ := Prod.mk.inj heq
    exact absurd hp List.not_mem_nil

/-- Every list of a tree has positions a `usize` counts. -/
def Countable (value : Value) : Prop :=
  value.Everywhere fun w => ∀ items, w = .list items → items.length ≤ usizeCount

instance (value : Value) : Decidable (Countable value) :=
  inferInstanceAs (Decidable (Value.Everywhere _ value))

/-- A part's segment can be spelled. -/
theorem spellable_of_part
    (hvalue : Countable value) (h : parts kind value = some (text, ps)) (hp : p ∈ ps) :
    p.segment.Spellable := by
  have hmembers : ∀ {map fields}, p ∈ memberParts map fields → p.segment.Spellable := by
    intro map fields hp
    obtain ⟨f, -, v, -, rfl⟩ := mem_memberParts.mp hp
    exact segmentOf_spellable _
  have hcount : ∀ {list : List Value}, value.asList = some list → list.length ≤ usizeCount :=
    fun hlist => hvalue.root _ (asList_eq hlist)
  cases kind with
  | variant tag arms =>
    obtain ⟨map, -, hsome⟩ := Option.bind_eq_some_iff.mp h
    obtain ⟨q, -, heq⟩ := Option.map_eq_some_iff.mp hsome
    obtain ⟨-, rfl⟩ := Prod.mk.inj heq
    exact hmembers hp
  | map owner =>
    obtain ⟨map, -, heq⟩ := Option.map_eq_some_iff.mp h
    obtain ⟨-, rfl⟩ := Prod.mk.inj heq
    exact hmembers hp
  | mapOf owner =>
    obtain ⟨map, -, heq⟩ := Option.map_eq_some_iff.mp h
    obtain ⟨-, rfl⟩ := Prod.mk.inj heq
    obtain ⟨e, -, rfl⟩ := List.mem_map.mp hp
    trivial
  | list items =>
    obtain ⟨list, hlist, heq⟩ := Option.map_eq_some_iff.mp h
    obtain ⟨-, rfl⟩ := Prod.mk.inj heq
    obtain ⟨i, hi, rfl⟩ := List.mem_mapIdx.mp hp
    exact Nat.lt_of_lt_of_le hi (hcount hlist)
  | tuple owner =>
    obtain ⟨list, hlist, heq⟩ := Option.map_eq_some_iff.mp h
    obtain ⟨-, rfl⟩ := Prod.mk.inj heq
    obtain ⟨i, hi, rfl⟩ := List.mem_mapIdx.mp hp
    rw [List.length_zip] at hi
    have hle := hcount hlist
    simp only [Segment.Spellable]
    omega
  | _ =>
    obtain ⟨text, -, heq⟩ := Option.map_eq_some_iff.mp h
    obtain ⟨-, rfl⟩ := Prod.mk.inj heq
    exact absurd hp List.not_mem_nil

theorem nodup_mapIdx {α β : Type} (f : ℕ → α → β) (l : List α)
    (hinj : ∀ i j a b, f i a = f j b → i = j) : (l.mapIdx f).Nodup := by
  rw [List.nodup_iff_getElem?_ne_getElem?]
  intro i j hij hj heq
  rw [List.length_mapIdx] at hj
  have hi : i < l.length := by omega
  rw [List.getElem?_mapIdx, List.getElem?_mapIdx, List.getElem?_eq_getElem hi,
    List.getElem?_eq_getElem hj] at heq
  have hsame := hinj i j _ _ (Option.some.inj heq)
  omega

theorem nodup_memberParts (map : List Entry) {fields : List FieldRef}
    (h : (fields.map FieldRef.key).Nodup) : ((memberParts map fields).map Part.segment).Nodup := by
  have hsub : ((memberParts map fields).map Part.segment).Sublist
      (fields.map fun f => segmentOf f.key.toList) := by
    unfold memberParts
    induction fields with
    | nil => exact List.Sublist.refl _
    | cons f fields ih =>
      rw [List.map_cons, List.nodup_cons] at h
      rw [List.filterMap_cons]
      cases AssocList.get f.key map with
      | none => exact (ih h.2).cons _
      | some v => exact (ih h.2).cons_cons _
  apply List.Nodup.sublist hsub
  have hmap : (fields.map fun f => segmentOf f.key.toList) =
      (fields.map FieldRef.key).map fun key => segmentOf key.toList := by
    rw [List.map_map]
    rfl
  rw [hmap]
  apply h.map
  intro key other heq
  exact String.toList_injective (segmentOf_injective heq)

theorem nodup_parts
    (hkind : kind.Everywhere fun w => ∀ entries, w = .map entries → (AssocList.keys entries).Nodup)
    (hvalue : value.Distinct) (h : parts kind value = some (text, ps)) :
    (ps.map Part.segment).Nodup := by
  cases kind with
  | variant tag arms =>
    obtain ⟨map, -, hsome⟩ := Option.bind_eq_some_iff.mp h
    obtain ⟨q, hselected, heq⟩ := Option.map_eq_some_iff.mp hsome
    obtain ⟨-, rfl⟩ := Prod.mk.inj heq
    obtain ⟨arm, hfind, rfl⟩ := Option.map_eq_some_iff.mp hselected
    have harm := everywhere_arm hkind (List.mem_of_find?_eq_some hfind)
    exact nodup_memberParts map ((nodup_fieldsOf harm).sublist (List.filter_sublist.map _))
  | map owner =>
    obtain ⟨map, -, heq⟩ := Option.map_eq_some_iff.mp h
    obtain ⟨-, rfl⟩ := Prod.mk.inj heq
    exact nodup_memberParts map (nodup_fieldsOf hkind)
  | mapOf owner =>
    obtain ⟨map, hmap, heq⟩ := Option.map_eq_some_iff.mp h
    obtain ⟨-, rfl⟩ := Prod.mk.inj heq
    obtain rfl := asMap_eq hmap
    have hkeys := (Value.distinct_map.mp hvalue).1
    have hsegments : (map.map fun e => (⟨.key e.1.toList, valuesField owner, e.2⟩ : Part)).map
        Part.segment = (AssocList.keys map).map fun key => Segment.key key.toList := by
      simp [AssocList.keys, Function.comp_def]
    rw [hsegments]
    apply hkeys.map
    intro key other heq
    exact String.toList_injective (Segment.key.inj heq)
  | list items =>
    obtain ⟨list, -, heq⟩ := Option.map_eq_some_iff.mp h
    obtain ⟨-, rfl⟩ := Prod.mk.inj heq
    rw [map_mapIdx]
    exact nodup_mapIdx _ _ fun i j a b heq => Segment.index.inj heq
  | tuple owner =>
    obtain ⟨list, -, heq⟩ := Option.map_eq_some_iff.mp h
    obtain ⟨-, rfl⟩ := Prod.mk.inj heq
    rw [map_mapIdx]
    exact nodup_mapIdx _ _ fun i j a b heq => Segment.index.inj heq
  | _ =>
    obtain ⟨text, -, heq⟩ := Option.map_eq_some_iff.mp h
    obtain ⟨-, rfl⟩ := Prod.mk.inj heq
    exact List.nodup_nil

theorem spellable_of_leaf (hvalue : Countable value) (h : leaf ∈ leaves left field value) :
    ∀ s ∈ leaf.segments, s.Spellable := by
  induction left generalizing field value leaf with
  | zero => exact absurd h List.not_mem_nil
  | succ left ih =>
    obtain ⟨text, ps, hparts, ⟨own, -, rfl⟩ | ⟨p, hp, below, hbelow, rfl⟩⟩ := mem_leaves.mp h
    · exact fun s hs => absurd hs List.not_mem_nil
    · intro s hs
      rcases List.mem_cons.mp hs with rfl | hs
      · exact spellable_of_part hvalue hparts hp
      · exact ih (everywhere_part hvalue hparts hp) hbelow s hs

theorem leaf_unique (hfield : field.schema.Distinct)
    (hvalue : value.Distinct) {other : Leaf} (h : leaf ∈ leaves left field value)
    (hother : other ∈ leaves left field value) (hsame : leaf.segments = other.segments) :
    leaf = other := by
  induction left generalizing field value leaf other with
  | zero => exact absurd h List.not_mem_nil
  | succ left ih =>
    obtain ⟨text, ps, hparts, hleaf⟩ := mem_leaves.mp h
    obtain ⟨text', ps', hparts', hother⟩ := mem_leaves.mp hother
    rw [hparts] at hparts'
    obtain ⟨rfl, rfl⟩ := Prod.mk.inj (Option.some.inj hparts')
    rcases hleaf with ⟨own, rfl, rfl⟩ | ⟨p, hp, below, hbelow, rfl⟩
    · rcases hother with ⟨own', heq, rfl⟩ | ⟨q, -, below, -, rfl⟩
      · rw [Option.some.inj heq]
      · cases hsame
    · rcases hother with ⟨own', -, rfl⟩ | ⟨q, hq, below', hbelow', rfl⟩
      · cases hsame
      · obtain ⟨hsegment, hbelows⟩ := List.cons.inj hsame
        have hnodup := nodup_parts (everywhere_kind hfield) hvalue hparts
        obtain rfl := List.inj_on_of_nodup_map hnodup hp hq hsegment
        have hschema := everywhere_partField (everywhere_kind hfield) (fun _ heq => by cases heq)
          hparts hp
        rw [ih hschema (everywhere_part hvalue hparts hp) hbelow hbelow' hbelows]

end Guatiao.Intake
