import Guatiao.Intake.Fields
import Guatiao.Intake.Resolve

/-!
# A stored key names the field that wrote it

Resolving a key against the store it stands in follows the leaf that was written under it: each
segment reads back, the path is respelled as the walk spelled it, so each discriminant is found
where it was stored, and each step reaches the field the walk reached. One step can miss: an open
map's value schema is looked for in the field's own schema, where the walk looks inside its
wrappers.
-/

namespace Guatiao.Intake

open Lib Schema

/-- Whether a field that is an open map declares its values where a step looks for them: in its own
schema, as inside the wrappers. -/
def inPlace (field : FieldRef) : Bool :=
  match field.kind with
  | .mapOf owner => decide (valuesOf field = owner.get Vocab.additionalProperties)
  | _ => true

/-- Every tagged arm of a schema has a discriminant that is not empty. -/
def NonEmptyArms (schema : Value) : Prop :=
  schema.Everywhere fun w => ∀ arm ∈ (Kind.read (some w)).arms, arm.value ≠ ""

instance (schema : Value) : Decidable (NonEmptyArms schema) :=
  inferInstanceAs (Decidable (Value.Everywhere _ schema))

theorem extended_eq (walked : Text) (segment : Segment) :
    extended walked segment = walked ++ segment.behind := by
  cases segment <;> rfl

theorem nameOf_segmentOf (name : Text) : nameOf (segmentOf name) = name := by
  unfold segmentOf
  split <;> rfl

variable {f field : FieldRef} {walked : Text} {selected : Text → Option Text} {value : Value}
   {text : Option Text} {ps : List Part} {p : Part} {left : ℕ} {leaf : Leaf}

theorem fieldNamed_of_mem {fields : List FieldRef} (h : (fields.map FieldRef.key).Nodup)
    (hf : f ∈ fields) : fieldNamed (segmentOf f.key.toList) fields = some f := by
  unfold fieldNamed
  rw [nameOf_segmentOf]
  induction fields with
  | nil => exact absurd hf List.not_mem_nil
  | cons g fields ih =>
    rw [List.map_cons, List.nodup_cons] at h
    rcases List.mem_cons.mp hf with rfl | hrest
    · exact List.find?_cons_of_pos (by simp)
    · have hne : (g.key.toList == f.key.toList) = false := by
        rw [beq_eq_false_iff_ne]
        intro heq
        apply h.1
        rw [String.toList_injective heq]
        exact List.mem_map_of_mem hrest
      rw [List.find?_cons_of_neg (by simp [hne])]
      exact ih h.2 hrest

theorem find_of_mem {schema : SchemaRef} (h : schema.value.Distinct)
    (hf : f ∈ schema.fields) : schema.find f.key = some f := by
  have hkeys : (AssocList.keys (propertiesOf schema.value)).Nodup := nodup_propertiesOf h
  obtain ⟨e, he, hfield⟩ := List.mem_filterMap.mp hf
  split at hfield
  · next hschema =>
    obtain rfl := Option.some.inj hfield
    have hfind : (propertiesOf schema.value).find? (fun p => p.1 == e.1) = some e := by
      generalize propertiesOf schema.value = entries at *
      induction entries with
      | nil => exact absurd he List.not_mem_nil
      | cons p entries ih =>
        rw [AssocList.keys_cons, List.nodup_cons] at hkeys
        rcases List.mem_cons.mp he with rfl | hrest
        · exact List.find?_cons_of_pos (by simp)
        · have hne : p.1 ≠ e.1 := by
            intro heq
            apply hkeys.1
            rw [heq]
            exact List.mem_map_of_mem hrest
          rw [List.find?_cons_of_neg (by simpa using hne)]
          exact ih hkeys.2 hrest
    simp only [SchemaRef.find, hfind, Option.bind_some, if_pos hschema]
  · cases hfield

theorem kind_of_not_schema (h : isSchema field.schema = false) :
    field.kind = .missing := by
  have hmap : field.schema.asMap = none := by
    simp only [isSchema, isMap, Bool.or_eq_false_iff] at h
    simpa using h.1
  have hget : ∀ key, field.schema.get key = none := by
    intro key
    rw [Value.get, hmap]
    rfl
  have hpeel : peelOnce field.schema = none := by
    simp [peelOnce, loneAllOf, listUnder, hget, ownKeywords]
  have hself : peel field.schema = field.schema := by
    unfold peel
    cases field.schema.nodes with
    | zero => rfl
    | succ fuel => simp only [peelFrom, hpeel]
  simp only [isSchema, Bool.or_eq_false_iff] at h
  simp only [FieldRef.kind, Kind.read, hself, h.1, h.2, Bool.false_eq_true, if_false]

theorem arm_of_selected {kind : Kind} {tag : String} {map : List Entry} {chosen : String} {arm : ArmRef}
    (h : Intake.selected kind tag map = some (chosen, arm)) :
    kind.arms.find? (fun a => a.value.toList == chosen.toList) = some arm := by
  obtain ⟨arm', hfind, heq⟩ := Option.map_eq_some_iff.mp h
  obtain ⟨hchosen, rfl⟩ := Prod.mk.inj heq
  rw [← hfind, hchosen]
  congr
  funext a
  simp [String.toList_inj]

theorem chosenAt_of_stored {chosen : Text}
    (h : selected walked = some chosen) (hne : chosen ≠ []) (spelled : Text) :
    chosenAt field walked spelled selected = chosen := by
  have hfull : (!chosen.isEmpty) = true := by
    cases chosen with
    | nil => exact absurd rfl hne
    | cons c chosen => rfl
  simp only [chosenAt, h, Option.filter_some, hfull, if_true, Option.some_or, Option.getD_some]

/-- A step of a walk that is written, but for a variant's, is made by the schema alone. -/
theorem into_part (hdistinct : field.schema.Distinct) (hparts : parts field.kind value = some (text, ps))
    (hp : p ∈ ps) (hschema : isSchema p.field.schema = true) (hplace : inPlace field = true)
    (hnot : ∀ tag arms, field.kind ≠ .variant tag arms) :
    into field p.segment = some p.field := by
  have hkind : field.kind.Everywhere _ := everywhere_kind hdistinct
  unfold inPlace at hplace
  unfold into
  cases hk : field.kind with
  | variant tag arms => exact absurd hk (hnot tag arms)
  | map owner =>
    rw [hk] at hparts hkind
    obtain ⟨map, -, heq⟩ := Option.map_eq_some_iff.mp hparts
    obtain ⟨-, rfl⟩ := Prod.mk.inj heq
    obtain ⟨f, hf, v, -, rfl⟩ := mem_memberParts.mp hp
    have hnamed : fieldNamed (segmentOf f.key.toList) (Kind.map owner).fields = some f :=
      fieldNamed_of_mem (nodup_fieldsOf hkind) hf
    exact hnamed
  | mapOf owner =>
    rw [hk] at hparts hplace
    obtain ⟨map, -, heq⟩ := Option.map_eq_some_iff.mp hparts
    obtain ⟨-, rfl⟩ := Prod.mk.inj heq
    obtain ⟨e, -, rfl⟩ := List.mem_map.mp hp
    have hvalues : valuesOf field = owner.get Vocab.additionalProperties := by simpa using hplace
    simp only [valuesField] at hschema ⊢
    cases hget : owner.get Vocab.additionalProperties with
    | none =>
      rw [hget] at hschema
      cases hschema
    | some values =>
      rw [hget] at hschema
      simp only [Option.getD_some] at hschema
      simp [hvalues, hget, FieldRef.new, hschema]
  | list items =>
    rw [hk] at hparts
    obtain ⟨list, -, heq⟩ := Option.map_eq_some_iff.mp hparts
    obtain ⟨-, rfl⟩ := Prod.mk.inj heq
    obtain ⟨i, hi, rfl⟩ := List.mem_mapIdx.mp hp
    simp only at hschema
    simp only [FieldRef.new, if_pos hschema]
  | tuple owner =>
    rw [hk] at hparts
    obtain ⟨list, -, heq⟩ := Option.map_eq_some_iff.mp hparts
    obtain ⟨-, rfl⟩ := Prod.mk.inj heq
    obtain ⟨i, hi, rfl⟩ := List.mem_mapIdx.mp hp
    have hposition : ((positionsOf owner).bind fun list => list[i]?) =
        some (list.zip (listUnder Vocab.prefixItems owner))[i].2 := by
      rw [List.length_zip] at hi
      have hlist : (listUnder Vocab.prefixItems owner)[i]? =
          some (list.zip (listUnder Vocab.prefixItems owner))[i].2 := by
        rw [List.getElem_zip]
        exact List.getElem?_eq_getElem (by omega)
      rw [← hlist]
      unfold listUnder positionsOf
      cases (owner.get Vocab.prefixItems).bind Value.asList <;> rfl
    simp only [hposition, Option.bind_some, FieldRef.new, if_pos hschema]
  | _ =>
    rw [hk] at hparts
    obtain ⟨text, -, heq⟩ := Option.map_eq_some_iff.mp hparts
    obtain ⟨-, rfl⟩ := Prod.mk.inj heq
    exact absurd hp List.not_mem_nil

theorem stepIn_part (hdistinct : field.schema.Distinct) (hparts : parts field.kind value = some (text, ps))
    (hp : p ∈ ps) (hschema : isSchema p.field.schema = true) (hplace : inPlace field = true)
    (hselected : ∀ chosen, text = some chosen → selected walked = some chosen ∧ chosen ≠ [])
    (spelled whole : Text) :
    stepIn field p.segment walked spelled whole selected = .ok p.field := by
  have hkind : field.kind.Everywhere _ := everywhere_kind hdistinct
  unfold stepIn
  cases hk : field.kind with
  | variant tag arms =>
    rw [hk] at hparts hkind
    obtain ⟨map, hmap, hsome⟩ := Option.bind_eq_some_iff.mp hparts
    obtain ⟨q, hq, heq⟩ := Option.map_eq_some_iff.mp hsome
    obtain ⟨htext, rfl⟩ := Prod.mk.inj heq
    obtain ⟨f, hf, v, -, rfl⟩ := mem_memberParts.mp hp
    obtain ⟨chosen, arm⟩ := q
    obtain ⟨hstored, hne⟩ := hselected _ htext.symm
    have harm := arm_of_selected hq
    have hfields := everywhere_arm hkind (List.mem_of_find?_eq_some harm)
    have hnamed : fieldNamed (segmentOf f.key.toList) arm.fields = some f :=
      fieldNamed_of_mem ((nodup_fieldsOf hfields).sublist (List.filter_sublist.map _)) hf
    simp only [chosenAt_of_stored hstored hne, harm, hnamed]
  | _ =>
    have hinto := into_part hdistinct hparts hp hschema hplace (by
      rw [hk]
      exact nofun)
    simp only [hinto]

theorem isSchema_of_leaf
    (hleaf : leaf ∈ leaves left field value) (hschema : isSchema leaf.field.schema = true) :
    isSchema field.schema = true := by
  cases left with
  | zero => exact absurd hleaf List.not_mem_nil
  | succ left =>
    obtain ⟨text, ps, hparts, ⟨own, -, rfl⟩ | ⟨p, hp, below, -, rfl⟩⟩ := mem_leaves.mp hleaf
    · exact hschema
    · rw [← Bool.not_eq_false]
      intro hnot
      rw [kind_of_not_schema hnot] at hparts
      obtain ⟨text, -, heq⟩ := Option.map_eq_some_iff.mp hparts
      obtain ⟨-, rfl⟩ := Prod.mk.inj heq
      exact absurd hp List.not_mem_nil

theorem discriminant_ne_nil {own : Text}
    (harms : NonEmptyArms field.schema) (hparts : parts field.kind value = some (some own, ps))
    (hps : ps ≠ []) : own ≠ [] := by
  have hroot : ∀ arm ∈ field.kind.arms, arm.value ≠ "" := harms.root
  cases hk : field.kind with
  | variant tag arms =>
    rw [hk] at hparts hroot
    obtain ⟨map, -, hsome⟩ := Option.bind_eq_some_iff.mp hparts
    obtain ⟨⟨chosen, arm⟩, hq, heq⟩ := Option.map_eq_some_iff.mp hsome
    obtain ⟨htext, -⟩ := Prod.mk.inj heq
    obtain rfl := Option.some.inj htext
    have harm := arm_of_selected hq
    have hvalue : arm.value.toList = chosen.toList := by simpa using List.find?_some harm
    intro hnil
    apply hroot arm (List.mem_of_find?_eq_some harm)
    apply String.toList_injective
    rw [hvalue, hnil]
    rfl
  | map owner =>
    rw [hk] at hparts
    obtain ⟨map, -, heq⟩ := Option.map_eq_some_iff.mp hparts
    cases (Prod.mk.inj heq).1
  | mapOf owner =>
    rw [hk] at hparts
    obtain ⟨map, -, heq⟩ := Option.map_eq_some_iff.mp hparts
    cases (Prod.mk.inj heq).1
  | list items =>
    rw [hk] at hparts
    obtain ⟨map, -, heq⟩ := Option.map_eq_some_iff.mp hparts
    cases (Prod.mk.inj heq).1
  | tuple owner =>
    rw [hk] at hparts
    obtain ⟨map, -, heq⟩ := Option.map_eq_some_iff.mp hparts
    cases (Prod.mk.inj heq).1
  | _ =>
    rw [hk] at hparts
    obtain ⟨text, -, heq⟩ := Option.map_eq_some_iff.mp hparts
    exact absurd (Prod.mk.inj heq).2.symm hps

theorem selected_of_stored
    (harms : NonEmptyArms field.schema) (hparts : parts field.kind value = some (text, ps)) (hp : p ∈ ps)
    (hstore : ∀ l ∈ leaves (left + 1) field value,
      selected (walked ++ render l.segments) = some l.text) :
    ∀ chosen, text = some chosen → selected walked = some chosen ∧ chosen ≠ [] := by
  intro chosen htext
  constructor
  · have hown := hstore ⟨[], [], field, chosen⟩
      (mem_leaves.mpr ⟨text, ps, hparts, .inl ⟨chosen, htext, rfl⟩⟩)
    rw [render_nil, List.append_nil] at hown
    exact hown
  · rw [htext] at hparts
    exact discriminant_ne_nil harms hparts (List.ne_nil_of_mem hp)

theorem stored_below (hparts : parts field.kind value = some (text, ps)) (hp : p ∈ ps)
    (hstore : ∀ l ∈ leaves (left + 1) field value,
      selected (walked ++ render l.segments) = some l.text) :
    ∀ l ∈ leaves left p.field p.value,
      selected (walked ++ p.segment.behind ++ render l.segments) = some l.text := by
  intro l hl
  have hl := hstore (l.behind field p.segment)
    (mem_leaves.mpr ⟨text, ps, hparts, .inr ⟨p, hp, l, hl, rfl⟩⟩)
  simpa [Leaf.behind] using hl

theorem walkIn_leaf (hdistinct : field.schema.Distinct)
    (harms : NonEmptyArms field.schema) (hleaf : leaf ∈ leaves left field value)
    (hschema : isSchema leaf.field.schema = true) (hplace : ∀ f ∈ leaf.above, inPlace f = true)
    (hstore : ∀ l ∈ leaves left field value, selected (walked ++ render l.segments) = some l.text)
    (key : Text) (spelled : ℕ) :
    walkIn key selected field walked spelled (placed spelled leaf.segments) = .ok leaf.field := by
  induction left generalizing field value leaf walked spelled with
  | zero => exact absurd hleaf List.not_mem_nil
  | succ left ih =>
    obtain ⟨text, ps, hparts, ⟨own, rfl, rfl⟩ | ⟨p, hp, below, hbelow, rfl⟩⟩ := mem_leaves.mp hleaf
    · rfl
    · have hselected := selected_of_stored harms hparts hp hstore
      have hstep := stepIn_part hdistinct hparts hp (isSchema_of_leaf hbelow hschema)
        (hplace field (List.mem_cons_self ..)) hselected (key.take spelled) key
      have hrest := ih
        (everywhere_partField (everywhere_kind hdistinct) (fun _ h => by cases h) hparts hp)
        (everywhere_partField (everywhere_kind harms) (fun arm harm => absurd harm List.not_mem_nil)
          hparts hp)
        hbelow hschema (fun f hf => hplace f (List.mem_cons_of_mem _ hf))
        (stored_below hparts hp hstore) (spelled + p.segment.behind.length)
      simp only [Leaf.behind, placed, walkIn, hstep, extended_eq]
      exact hrest

theorem get_leaf (hfield : field.schema.Distinct) (hvalue : value.Distinct) (hcount : Countable value)
    (hleaf : leaf ∈ leaves maxDepth field value) (store : Store) :
    (flatten field value store).1.get (rootPath field.key.toList ++ render leaf.segments) =
      some leaf.text := by
  rw [flatten_fst]
  apply get_putAll_of_mem
  · intro e he hkey
    obtain ⟨other, hother, rfl⟩ := List.mem_map.mp he
    have hsegments : other.segments = leaf.segments :=
      render_injective (spellable_of_leaf hcount hother) (spellable_of_leaf hcount hleaf)
        (List.append_cancel_left hkey)
    rw [leaf_unique hfield hvalue hother hleaf hsegments]
    rfl
  · exact List.mem_map.mpr ⟨leaf, hleaf, rfl⟩

theorem leaf_of_written {key : Text} (h : key ∈ (flatten field value SortedMap.empty).1.keys) :
    ∃ leaf ∈ leaves maxDepth field value, key = rootPath field.key.toList ++ render leaf.segments := by
  obtain ⟨text, hget⟩ := SortedMap.mem_keys_iff.mp h
  rw [flatten_fst] at hget
  by_contra hnone
  rw [get_putAll_of_not_mem, get_clearUnder] at hget
  · split at hget <;> cases hget
  · intro e he heq
    obtain ⟨leaf, hleaf, rfl⟩ := List.mem_map.mp he
    exact hnone ⟨leaf, hleaf, heq.symm⟩

theorem bare_key {name : Text} {segments : List Segment}
    (h : isBareName (rootPath name ++ render segments) = true) :
    segments = [] ∧ rootPath name = name := by
  obtain ⟨-, hplain⟩ := isBareName_iff.mp h
  constructor
  · cases segments with
    | nil => rfl
    | cons segment segments =>
      exfalso
      have hends : ∃ c rest, render (segment :: segments) = c :: rest ∧ nameEnds c = true := by
        rcases boundary_behind segment (render segments) with hnil | hdot | hopen
        · exact absurd (List.append_eq_nil_iff.mp hnil).1 (behind_ne_nil segment)
        · obtain ⟨rest, hrest⟩ := List.head?_eq_some_iff.mp hdot
          exact ⟨'.', rest, hrest, rfl⟩
        · obtain ⟨rest, hrest⟩ := List.head?_eq_some_iff.mp hopen
          exact ⟨'[', rest, hrest, rfl⟩
      obtain ⟨c, rest, hrender, hc⟩ := hends
      have hnot := hplain c (by rw [hrender]; simp)
      rw [hc] at hnot
      cases hnot
  · unfold rootPath at hplain ⊢
    split
    · rfl
    · next hname =>
      exfalso
      rw [if_neg hname] at hplain
      have hopen : '[' ∈ keyed [] name ++ render segments := by
        cases hquoted : needsQuoting name <;> simp [keyed, Segment.display, hquoted]
      have hnot := hplain '[' hopen
      cases hnot

/-- A walk through the segments of a leaf stops at an open map whose values are declared inside its
wrappers only. -/
theorem walkIn_fails (hdistinct : field.schema.Distinct)
    (harms : NonEmptyArms field.schema) (hleaf : leaf ∈ leaves left field value)
    (hschema : isSchema leaf.field.schema = true) {before after : List FieldRef}
    {owner : Value} (habove : leaf.above = before ++ f :: after)
    (hplace : ∀ g ∈ before, inPlace g = true) (hkind : f.kind = .mapOf owner) (hnone : valuesOf f = none)
    (hstore : ∀ l ∈ leaves left field value, selected (walked ++ render l.segments) = some l.text)
    (key : Text) (spelled : ℕ) (g : FieldRef) :
    walkIn key selected field walked spelled (placed spelled leaf.segments) ≠ .ok g := by
  induction left generalizing field value leaf walked spelled before with
  | zero => exact absurd hleaf List.not_mem_nil
  | succ left ih =>
    obtain ⟨text, ps, hparts, ⟨own, rfl, rfl⟩ | ⟨p, hp, below, hbelow, rfl⟩⟩ := mem_leaves.mp hleaf
    · cases before <;> cases habove
    · cases before with
      | nil =>
        obtain ⟨rfl, -⟩ := List.cons.inj habove
        simp only [Leaf.behind, placed, walkIn, stepIn, hkind, into, hnone, Option.bind_none]
        exact fun h => by cases h
      | cons b before =>
        obtain ⟨rfl, hbefore⟩ := List.cons.inj habove
        have hselected := selected_of_stored harms hparts hp hstore
        have hstep := stepIn_part hdistinct hparts hp (isSchema_of_leaf hbelow hschema)
          (hplace field (List.mem_cons_self ..)) hselected (key.take spelled) key
        have hrest := ih
          (everywhere_partField (everywhere_kind hdistinct) (fun _ h => by cases h) hparts hp)
          (everywhere_partField (everywhere_kind harms) (fun arm harm => absurd harm List.not_mem_nil)
            hparts hp)
          hbelow hschema hbefore (fun g hg => hplace g (List.mem_cons_of_mem _ hg))
          (stored_below hparts hp hstore) (spelled + p.segment.behind.length)
        simp only [Leaf.behind, placed, walkIn, hstep, extended_eq]
        exact hrest

theorem resolveIn_eq {schema : SchemaRef} (hschema : schema.value.Distinct)
    (hfield : field ∈ schema.fields) {segments : List Segment} (hall : ∀ s ∈ segments, s.Spellable)
    (selected : Text → Option Text) :
    resolveIn schema (rootPath field.key.toList ++ render segments) selected =
      walkIn (rootPath field.key.toList ++ render segments) selected field
        (rootPath field.key.toList) (rootPath field.key.toList).length
        (placed (rootPath field.key.toList).length segments) := by
  have hfind := find_of_mem hschema hfield
  have hread := spelled_rootPath field.key.toList hall
  have hroot : root schema (segmentOf field.key.toList) = some field := by
    rw [root, nameOf_segmentOf, String.ofList_toList]
    exact hfind
  unfold resolveIn
  cases hbare : isBareName (rootPath field.key.toList ++ render segments) with
  | true =>
    obtain ⟨rfl, hname⟩ := bare_key hbare
    rw [render_nil, List.append_nil, hname, String.ofList_toList, hfind]
    rfl
  | false =>
    have hdirect : ∀ f : Option FieldRef, (f.filter fun _ => false) = none := by
      intro f
      cases f <;> rfl
    rw [hdirect]
    simp only [hread, Option.bind_some, List.head?_cons, hroot, Option.map_some, nameOf_segmentOf,
      List.tail_cons, Option.getD_some]

/-- The keys a field writes are those of its leaves, and each names the field that governed its leaf
when every open map on the way declares its values in place. Where the first that does not declares
none in its own schema, the key names nothing. -/
theorem resolveIn_written (schema : SchemaRef) (hschema : schema.value.Distinct)
    (harms : NonEmptyArms schema.value) (field : FieldRef) (hfield : field ∈ schema.fields)
    (value : Value) (hvalue : value.Distinct) (hcount : Countable value)
    (hconforms : ∀ leaf ∈ leaves maxDepth field value, isSchema leaf.field.schema = true)
    (store : Store) :
    (∀ key ∈ (flatten field value SortedMap.empty).1.keys, ∃ leaf ∈ leaves maxDepth field value,
      key = rootPath field.key.toList ++ render leaf.segments) ∧
    ∀ leaf ∈ leaves maxDepth field value,
      ((∀ f ∈ leaf.above, inPlace f = true) →
        resolveIn schema (rootPath field.key.toList ++ render leaf.segments)
          (fun at_ => (flatten field value store).1.get at_) = .ok leaf.field) ∧
      ∀ before f after owner, leaf.above = before ++ f :: after → (∀ g ∈ before, inPlace g = true) →
        f.kind = .mapOf owner → valuesOf f = none → ∀ g,
          resolveIn schema (rootPath field.key.toList ++ render leaf.segments)
            (fun at_ => (flatten field value store).1.get at_) ≠ .ok g := by
  have hdistinct : field.schema.Distinct := everywhere_fieldsOf hschema hfield
  have hnonEmpty : NonEmptyArms field.schema := everywhere_fieldsOf harms hfield
  have hstore : ∀ l ∈ leaves maxDepth field value,
      (flatten field value store).1.get (rootPath field.key.toList ++ render l.segments) = some l.text :=
    fun l hl => get_leaf hdistinct hvalue hcount hl store
  refine ⟨fun key hkey => leaf_of_written hkey, fun leaf hleaf => ⟨?_, ?_⟩⟩
  · intro hplace
    rw [resolveIn_eq hschema hfield (spellable_of_leaf hcount hleaf)]
    exact walkIn_leaf hdistinct hnonEmpty hleaf (hconforms leaf hleaf) hplace hstore _ _
  · intro before f after owner habove hplace hkind hnone g
    rw [resolveIn_eq hschema hfield (spellable_of_leaf hcount hleaf)]
    exact walkIn_fails hdistinct hnonEmpty hleaf (hconforms leaf hleaf) habove hplace hkind hnone
      hstore _ _ g

/-- A list of values with the one tag `user` and a secret text under `a.b`. -/
def userItem : Value :=
  .map [("type", .string "object"), ("x-variant-tag", .string "kind"), ("oneOf", .list [.map
    [("properties", .map [("kind", .map [("const", .string "user")]),
      ("a.b", .map [("type", .string "string"), ("x-sensitive", .bool true)])])]])]

/-- A list of them. -/
def usersField : FieldRef :=
  ⟨"users", .map [("type", .string "array"), ("items", userItem)], false⟩

/-- A schema with that one field. -/
def usersSchema : SchemaRef := ⟨.map [("properties", .map [("users", usersField.schema)])], rfl⟩

/-- A value of it. -/
def usersValue : Value := .list [.map [("a.b", .string "x"), ("kind", .string "user")]]

/-- The leaf of its secret. -/
def secretLeaf : Leaf :=
  ⟨[.index 0, .key "a.b".toList], [usersField, ⟨"", userItem, false⟩],
    ⟨"a.b", .map [("type", .string "string"), ("x-sensitive", .bool true)], false⟩, "x".toList⟩

set_option maxRecDepth 4000 in
theorem resolveIn_written_users :
    resolveIn usersSchema "users[0][a.b]".toList
      (fun at_ => (flatten usersField usersValue SortedMap.empty).1.get at_) =
      .ok ⟨"a.b", .map [("type", .string "string"), ("x-sensitive", .bool true)], false⟩ := by
  have hwritten := resolveIn_written usersSchema (by decide) (by decide) usersField (by decide)
    usersValue (by decide) (by decide) (by decide) SortedMap.empty
  have hleaf := (hwritten.2 secretLeaf (by decide)).1 (by decide)
  exact hleaf

/-- An optional open map: `env`, or null. -/
def envField : FieldRef :=
  ⟨"env", .map [("anyOf", .list
    [.map [("type", .string "object"), ("additionalProperties", .map [("type", .string "string")])],
      .map [("type", .string "null")]])], false⟩

/-- A schema with that one field. -/
def envSchema : SchemaRef := ⟨.map [("properties", .map [("env", envField.schema)])], rfl⟩

set_option maxRecDepth 4000 in
/-- The key an optional open map's value is stored under names nothing. -/
theorem resolveIn_optional :
    envField ∈ envSchema.fields ∧
      (flatten envField (.map [("PATH", .string "x")]) SortedMap.empty).1.entries =
        [("env[PATH]".toList, "x".toList)] ∧
      resolveIn envSchema "env[PATH]".toList (fun at_ =>
        (flatten envField (.map [("PATH", .string "x")]) SortedMap.empty).1.get at_) =
        .error (.badValue "env".toList (hasMembers "env[PATH]".toList)) := by
  decide

end Guatiao.Intake
