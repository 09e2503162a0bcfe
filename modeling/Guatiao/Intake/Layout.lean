import Guatiao.Intake.Form
import Guatiao.Lib.Grouped

/-!
# Fields in groups, in order

A schema's fields are put into the sections a form declares, in its order, and each group into the
order its fields ask for.
-/

namespace Guatiao.Intake

open Lib Schema

/-- One field in a group, with what it is shown with. -/
structure Placed where
  field : FieldRef
  hints : HintsRef
  deriving DecidableEq

/-- A group of fields a person sees together: the section declared for it, none for the default group
of a form that does not declare it. -/
structure Group where
  section_ : Option SectionRef
  fields : List Placed

/-- Explicit orders first and ascending, then everything without one. -/
def orderKey (field : FieldRef) : Bool × ℤ :=
  if (field.schema.get Vocab.X_ORDER).isSome then (false, orderOf field) else (true, 0)

/-- The order of the keys fields are sorted by. -/
def keyLe (a b : Bool × ℤ) : Bool := (!a.1 && b.1) || (a.1 == b.1 && decide (a.2 ≤ b.2))

/-- One more section, unless its id was declared before. -/
def addHeading (order : List (String × Option SectionRef)) (s : SectionRef) :
    List (String × Option SectionRef) :=
  if order.any fun h => h.1 == s.id then order else order ++ [(s.id, some s)]

/-- The ids of the groups, each with the section declared for it. -/
def headings (form : FormRef) : List (String × Option SectionRef) :=
  form.sections.foldl addHeading
    (if (form.section_ Vocab.DEFAULT_SECTION).isNone then [(Vocab.DEFAULT_SECTION, none)] else [])

/-- The group a field is put into. -/
def groupOf (order : List (String × Option SectionRef)) (field : FieldRef) : ℕ :=
  let defaultGroup := (order.findIdx? fun h => h.1.isEmpty).getD 0
  (order.findIdx? fun h => h.1 == sectionOf field).getD defaultGroup

/-- `layout` -/
def layout (schema : SchemaRef) (form : FormRef) : List Group :=
  let order := headings form
  let groups := putInto (fun placed => groupOf order placed.field) (order.map fun _ => [])
    (schema.fields.map fun field => ⟨field, form.hints field.key⟩)
  let groups := (order.zip groups).map fun (h, fields) =>
    Group.mk h.2 (fields.mergeSort fun a b => keyLe (orderKey a.field) (orderKey b.field))
  groups.filter fun group => !group.fields.isEmpty

/-- The sections that are the first under their id. -/
def firsts : List SectionRef → List SectionRef
  | [] => []
  | s :: rest => s :: (firsts rest).filter fun other => other.id != s.id

/-- The groups a form can show, in its order: an undeclared default group first, then the first
section of each id. -/
def displayed (form : FormRef) : List (Option SectionRef) :=
  (if (form.section_ Vocab.DEFAULT_SECTION).isNone then [none] else []) ++
    (firsts form.sections).map some

/-- The first section declared under the field's section id, the default group where there is
none. -/
def home (form : FormRef) (field : FieldRef) : Option SectionRef :=
  (form.section_ (sectionOf field)).or (form.section_ Vocab.DEFAULT_SECTION)

theorem foldl_addHeading (start : List (String × Option SectionRef)) (ss : List SectionRef) :
    ss.foldl addHeading start = start ++ ((firsts ss).filter fun s =>
      !start.any fun h => h.1 == s.id).map fun s => (s.id, some s) := by
  induction ss generalizing start with
  | nil => simp [firsts]
  | cons s rest ih =>
    rw [List.foldl_cons, ih, firsts, List.filter_cons, List.filter_filter]
    by_cases hs : start.any fun h => h.1 == s.id
    · rw [addHeading, if_pos hs, if_neg (by rw [hs]; decide)]
      congr 2
      refine List.filter_congr fun other _ => ?_
      -- an id that is not among the headings is not the one this section repeats
      by_cases hother : other.id = s.id
      · rw [hother, hs]; rfl
      · rw [bne_iff_ne.mpr hother, Bool.and_true]
    · rw [addHeading, if_neg hs, if_pos (by rw [Bool.not_eq_true _ |>.mp hs]; rfl), List.map_cons,
        List.append_assoc, List.singleton_append]
      congr 3
      refine List.filter_congr fun other _ => ?_
      rw [List.any_append, Bool.not_or, List.any_cons, List.any_nil, Bool.or_false, bne,
        Bool.beq_comm (a := s.id)]

theorem find?_firsts (ss : List SectionRef) (id : String) :
    (firsts ss).find? (fun s => s.id == id) = ss.find? fun s => s.id == id := by
  induction ss with
  | nil => rfl
  | cons s rest ih =>
    rw [firsts, List.find?_cons, List.find?_cons, List.find?_filter, ← ih]
    by_cases hs : s.id = id
    · rw [beq_iff_eq.mpr hs]
    · rw [beq_eq_false_iff_ne.mpr hs]
      refine List.find?_congr fun other _ => ?_
      by_cases hother : other.id = id
      · simp [hother, Ne.symm hs]
      · simp [hother]

theorem nodup_firsts (ss : List SectionRef) : ((firsts ss).map SectionRef.id).Nodup := by
  induction ss with
  | nil => exact List.nodup_nil
  | cons s rest ih =>
    rw [firsts, List.map_cons, List.nodup_cons]
    refine ⟨fun hmem => ?_, ih.sublist (List.filter_sublist.map _)⟩
    obtain ⟨other, hother, heq⟩ := List.mem_map.mp hmem
    exact bne_iff_ne.mp (List.mem_filter.mp hother).2 heq

theorem find?_of_mem_firsts {ss : List SectionRef} {s : SectionRef} (hs : s ∈ firsts ss) :
    ss.find? (fun other => other.id == s.id) = some s := by
  rw [← find?_firsts]
  obtain ⟨first, hfirst⟩ := Option.isSome_iff_exists.mp
    (List.find?_isSome (p := fun other => other.id == s.id).mpr ⟨s, hs, beq_self_eq_true s.id⟩)
  have hid : first.id = s.id := by simpa using List.find?_some hfirst
  rw [hfirst, List.inj_on_of_nodup_map (nodup_firsts ss) (List.mem_of_find?_eq_some hfirst) hs hid]

theorem headings_eq (form : FormRef) : headings form =
    (if (form.section_ Vocab.DEFAULT_SECTION).isNone then [(Vocab.DEFAULT_SECTION, none)] else []) ++
      (firsts form.sections).map fun s => (s.id, some s) := by
  rw [headings, foldl_addHeading]
  split
  · next hnone =>
    congr 2
    refine List.filter_eq_self.mpr fun s hs => ?_
    rw [FormRef.section_, ← find?_firsts, Option.isNone_iff_eq_none, List.find?_eq_none] at hnone
    have hne := hnone s hs
    simp only [List.any_cons, List.any_nil, Bool.or_false, Bool.not_eq_true']
    rwa [Bool.beq_comm, ← Bool.not_eq_true]
  · rw [List.filter_eq_self.mpr fun s _ => by rfl]

theorem headings_snd (form : FormRef) : (headings form).map Prod.snd = displayed form := by
  rw [headings_eq, displayed, List.map_append, List.map_map]
  split <;> rfl

theorem nodup_displayed (form : FormRef) : (displayed form).Nodup := by
  have hfirsts : ((firsts form.sections).map some).Nodup :=
    ((nodup_firsts form.sections).of_map _).map (Option.some_injective _)
  rw [displayed]
  split
  · exact List.nodup_cons.mpr ⟨by simp, hfirsts⟩
  · exact hfirsts

variable {form : FormRef}

theorem section_of_heading {h : String × Option SectionRef}
    (hmem : h ∈ headings form) : h.2 = form.section_ h.1 := by
  rw [headings_eq, List.mem_append] at hmem
  rcases hmem with hmem | hmem
  · split at hmem
    · next hnone =>
      rw [List.mem_singleton.mp hmem]
      exact (Option.isNone_iff_eq_none.mp hnone).symm
    · exact absurd hmem List.not_mem_nil
  · obtain ⟨s, hs, rfl⟩ := List.mem_map.mp hmem
    exact (find?_of_mem_firsts hs).symm

theorem heading_mem {id : String} (hid : (form.section_ id).isSome ∨ id = Vocab.DEFAULT_SECTION) :
    (id, form.section_ id) ∈ headings form := by
  rw [headings_eq, List.mem_append]
  cases hs : form.section_ id with
  | some s =>
    rw [FormRef.section_, ← find?_firsts] at hs
    have heq : s.id = id := by simpa using List.find?_some hs
    exact .inr (List.mem_map.mpr ⟨s, List.mem_of_find?_eq_some hs, by rw [heq]⟩)
  | none =>
    rcases hid with hid | rfl
    · rw [hs] at hid
      cases hid
    · rw [hs]
      exact .inl (List.mem_singleton.mpr rfl)

theorem default_of_heading {h : String × Option SectionRef}
    (hmem : h ∈ headings form) (hnone : h.2 = none) : h.1 = Vocab.DEFAULT_SECTION := by
  rw [headings_eq, List.mem_append] at hmem
  rcases hmem with hmem | hmem
  · split at hmem
    · rw [List.mem_singleton.mp hmem]
    · exact absurd hmem List.not_mem_nil
  · obtain ⟨s, -, rfl⟩ := List.mem_map.mp hmem
    cases hnone

theorem heading_of_findIdx? {p : String × Option SectionRef → Bool} {i : ℕ}
    (hfind : (headings form).findIdx? p = some i) :
    ∃ h ∈ headings form, (headings form)[i]? = some h ∧ p h = true := by
  obtain ⟨hlt, hp, -⟩ := List.findIdx?_eq_some_iff_getElem.mp hfind
  exact ⟨_, List.getElem_mem hlt, List.getElem?_eq_getElem hlt, hp⟩

theorem displayed_groupOf (form : FormRef) (field : FieldRef) :
    (displayed form)[groupOf (headings form) field]? = some (home form field) := by
  rw [← headings_snd, List.getElem?_map, groupOf, home]
  cases hfind : (headings form).findIdx? fun h => h.1 == sectionOf field with
  | some i =>
    obtain ⟨h, hmem, hat, hid⟩ := heading_of_findIdx? hfind
    rw [Option.getD_some, hat, Option.map_some, ← beq_iff_eq.mp hid, ← section_of_heading hmem]
    cases hs : h.2 with
    | some s => rfl
    | none => rw [Option.none_or, ← default_of_heading hmem hs, ← section_of_heading hmem, hs]
  | none =>
    have hnone : form.section_ (sectionOf field) = none := by
      by_contra hsome
      have hmem := heading_mem (.inl (Option.isSome_iff_ne_none.mpr hsome))
      have hne := List.findIdx?_eq_none_iff.mp hfind _ hmem
      rw [beq_self_eq_true] at hne
      cases hne
    have hdefault : ((headings form).findIdx? fun h => h.1.isEmpty).isSome := by
      rw [List.findIdx?_isSome, List.any_eq_true]
      exact ⟨_, heading_mem (.inr rfl), rfl⟩
    obtain ⟨i, hi⟩ := Option.isSome_iff_exists.mp hdefault
    obtain ⟨h, hmem, hat, hempty⟩ := heading_of_findIdx? hi
    have hid : h.1 = Vocab.DEFAULT_SECTION := String.isEmpty_iff.mp hempty
    rw [hi, hnone, Option.getD_none, Option.getD_some, Option.none_or, hat, Option.map_some,
      section_of_heading hmem, hid]

theorem groupOf_eq_iff {field : FieldRef} {i : ℕ} {s : Option SectionRef}
    (hi : (displayed form)[i]? = some s) :
    groupOf (headings form) field = i ↔ home form field = s := by
  have hat := displayed_groupOf form field
  constructor
  · rintro rfl
    exact Option.some.inj (hat.symm.trans hi)
  · rintro rfl
    obtain ⟨hlt, -⟩ := List.getElem?_eq_some_iff.mp hat
    exact (List.getElem?_inj hlt (nodup_displayed form)).mp (hat.trans hi.symm)

/-- A field with the hints it is shown with. -/
def FormRef.place (form : FormRef) (field : FieldRef) : Placed := ⟨field, form.hints field.key⟩

/-- The order of placed fields in a group. -/
def Placed.le (a b : Placed) : Bool := keyLe (orderKey a.field) (orderKey b.field)

/-- The group of a section. -/
def groupAt (schema : SchemaRef) (form : FormRef) (s : Option SectionRef) : Group :=
  ⟨s, (((schema.fields.map form.place).filter fun p => home form p.field = s).mergeSort Placed.le)⟩

theorem putInto_headings (form : FormRef) (xs : List Placed) :
    putInto (fun p => groupOf (headings form) p.field) ((headings form).map fun _ => []) xs =
      (displayed form).map fun s => xs.filter fun p => home form p.field = s := by
  refine List.ext_getElem? fun i => ?_
  have hshown : (displayed form)[i]? = (headings form)[i]?.map Prod.snd := by
    rw [← headings_snd, List.getElem?_map]
  rw [getElem?_putInto, List.getElem?_map, List.getElem?_map]
  cases hi : (headings form)[i]? with
  | none =>
    rw [hshown, hi]
    rfl
  | some h =>
    rw [hi, Option.map_some] at hshown
    rw [hshown, Option.map_some, Option.map_some, Option.map_some, List.nil_append]
    exact congrArg some (List.filter_congr fun p _ => decide_eq_decide.mpr (groupOf_eq_iff hshown))

theorem layout_eq (schema : SchemaRef) (form : FormRef) : layout schema form =
    ((displayed form).map (groupAt schema form)).filter fun group => !group.fields.isEmpty := by
  have hzip : (headings form).zip (putInto (fun p => groupOf (headings form) p.field)
      ((headings form).map fun _ => []) (schema.fields.map form.place)) =
      (headings form).map fun h =>
        (h, (schema.fields.map form.place).filter fun p => home form p.field = h.2) := by
    refine (List.zip_of_prod (by rw [List.map_map]; exact List.map_id _) ?_).symm
    rw [putInto_headings, ← headings_snd, List.map_map, List.map_map]
    rfl
  show (((headings form).zip (putInto _ _ (schema.fields.map form.place))).map _).filter _ = _
  rw [hzip, ← headings_snd, List.map_map, List.map_map]
  rfl

theorem keyLe_trans (a b c : Bool × ℤ) : keyLe a b → keyLe b c → keyLe a c := by
  simp only [keyLe, Bool.or_eq_true, Bool.and_eq_true, Bool.not_eq_true', beq_iff_eq,
    decide_eq_true_eq]
  rintro (⟨ha, hb⟩ | ⟨hab, hle⟩) (⟨hb', hc⟩ | ⟨hbc, hle'⟩)
  · exact .inl ⟨ha, hc⟩
  · exact .inl ⟨ha, hbc ▸ hb⟩
  · exact .inl ⟨hab.trans hb', hc⟩
  · exact .inr ⟨hab.trans hbc, hle.trans hle'⟩

theorem keyLe_total (a b : Bool × ℤ) : keyLe a b || keyLe b a := by
  simp only [keyLe, Bool.or_eq_true, Bool.and_eq_true, Bool.not_eq_true', beq_iff_eq,
    decide_eq_true_eq]
  rcases le_total a.2 b.2 with hle | hle <;> cases a.1 <;> cases b.1 <;> simp [hle]

theorem Placed.le_trans (a b c : Placed) : a.le b → b.le c → a.le c := keyLe_trans _ _ _

theorem Placed.le_total (a b : Placed) : a.le b || b.le a := keyLe_total _ _

theorem keyLe_refl (a : Bool × ℤ) : keyLe a a := by
  simp [keyLe]

/-- The field gives itself a place among its siblings. -/
def hasOrder (field : FieldRef) : Bool := (field.schema.get Vocab.X_ORDER).isSome

/-- A field may be shown before another one: the fields with an order come first, by ascending
order. -/
def Before (a b : FieldRef) : Prop := hasOrder b → hasOrder a ∧ orderOf a ≤ orderOf b

theorem before_of_keyLe {a b : FieldRef} (hle : keyLe (orderKey a) (orderKey b)) : Before a b := by
  intro hb
  rw [hasOrder] at hb
  by_cases ha : (a.schema.get Vocab.X_ORDER).isSome
  · refine ⟨ha, ?_⟩
    simpa [keyLe, orderKey, ha, hb] using hle
  · simp [keyLe, orderKey, ha, hb] at hle

/-- What one group of a layout holds: the fields of its section with their hints, the ones with an
order first, and the schema's own order among equal orders and among the rest. -/
structure Laid (schema : SchemaRef) (form : FormRef) (group : Group) : Prop where
  filled : group.fields ≠ []
  own : ∀ p ∈ group.fields, home form p.field = group.section_ ∧ p.hints = form.hints p.field.key
  ordered : (group.fields.map Placed.field).Pairwise Before
  ties : ∀ n, (group.fields.map Placed.field).filter (fun f => hasOrder f && orderOf f == n) =
    schema.fields.filter fun f => home form f == group.section_ && (hasOrder f && orderOf f == n)
  rest : (group.fields.map Placed.field).filter (fun f => !hasOrder f) =
    schema.fields.filter fun f => home form f == group.section_ && !hasOrder f

theorem map_field_place (form : FormRef) (fields : List FieldRef) :
    (fields.map form.place).map Placed.field = fields := by
  rw [List.map_map]
  exact List.map_id fields

theorem filter_place (form : FormRef) (s : Option SectionRef) (fields : List FieldRef) :
    ((fields.map form.place).filter fun p => home form p.field = s) =
      (fields.filter fun f => home form f = s).map form.place := by
  rw [List.filter_map]
  rfl

theorem groupAt_perm (schema : SchemaRef) (form : FormRef) (s : Option SectionRef) :
    ((groupAt schema form s).fields.map Placed.field).Perm
      (schema.fields.filter fun f => home form f = s) := by
  rw [groupAt, filter_place]
  refine ((List.mergeSort_perm _ _).map _).trans ?_
  rw [map_field_place]

theorem groupAt_filter (schema : SchemaRef) (form : FormRef) (s : Option SectionRef)
    {p : FieldRef → Bool} (hp : ∀ a b, p a → p b → keyLe (orderKey a) (orderKey b)) :
    ((groupAt schema form s).fields.map Placed.field).filter p =
      schema.fields.filter fun f => home form f == s && p f := by
  have hsteady := filter_mergeSort Placed.le_trans Placed.le_total
    (p := p ∘ Placed.field) fun a b ha hb => hp _ _ ha hb
  rw [groupAt, filter_place, List.filter_map, hsteady, ← List.filter_map, map_field_place,
    List.filter_filter]
  exact List.filter_congr fun f _ => by rw [Bool.and_comm, beq_eq_decide]

theorem laid_groupAt {schema : SchemaRef} {s : Option SectionRef}
    (hfilled : (groupAt schema form s).fields ≠ []) : Laid schema form (groupAt schema form s) where
  filled := hfilled
  own p hp := by
    rw [groupAt, List.mem_mergeSort, List.mem_filter, List.mem_map] at hp
    obtain ⟨⟨field, -, rfl⟩, hhome⟩ := hp
    exact ⟨of_decide_eq_true hhome, rfl⟩
  ordered := by
    have hsorted := List.pairwise_mergeSort Placed.le_trans Placed.le_total
      ((schema.fields.map form.place).filter fun p => home form p.field = s)
    exact List.pairwise_map.mpr (hsorted.imp fun hle => before_of_keyLe hle)
  ties n := by
    refine groupAt_filter schema form s fun a b ha hb => ?_
    rw [Bool.and_eq_true, beq_iff_eq, hasOrder] at ha hb
    rw [orderKey, if_pos ha.1, orderKey, if_pos hb.1, ha.2, hb.2]
    exact keyLe_refl _
  rest := by
    refine groupAt_filter schema form s fun a b ha hb => ?_
    rw [Bool.not_eq_true', hasOrder] at ha hb
    rw [orderKey, ha, orderKey, hb]
    exact keyLe_refl _

theorem flatMap_layout_perm (schema : SchemaRef) (form : FormRef) :
    ((layout schema form).flatMap fun g => g.fields.map Placed.field).Perm schema.fields := by
  have hplace : ∀ p ∈ schema.fields.map form.place,
      groupOf (headings form) p.field < ((headings form).map fun _ => ([] : List Placed)).length := by
    intro p _
    obtain ⟨hlt, -⟩ := List.getElem?_eq_some_iff.mp (displayed_groupOf form p.field)
    rwa [← headings_snd, List.length_map, ← List.length_map (fun _ => ([] : List Placed))] at hlt
  have hgroups := (flatten_putInto_perm _ _ _ hplace).map Placed.field
  rw [putInto_headings, List.map_flatten, List.map_map, List.map_append, map_field_place] at hgroups
  have hempty : ((headings form).map fun _ => ([] : List Placed)).flatten = [] := by simp
  rw [hempty, List.map_nil, List.nil_append] at hgroups
  refine List.Perm.trans ?_ hgroups
  -- the groups left out hold nothing
  have hfilter : (fun group : Group => !group.fields.isEmpty) =
      (fun fields => !fields.isEmpty) ∘ fun g : Group => g.fields.map Placed.field := by
    funext group
    exact congrArg (!·) List.isEmpty_map.symm
  rw [layout_eq, List.flatMap_def, hfilter, ← List.filter_map, List.flatten_filter_not_isEmpty,
    List.map_map]
  refine List.Perm.flatMap_left _ fun s _ => (groupAt_perm schema form s).trans ?_
  rw [Function.comp_apply, filter_place, map_field_place]

/-- Each field of the schema is in one group, in the group of its section, and the groups are the
sections the form declares, in its order, as far as they have fields. -/
theorem layout_partition (schema : SchemaRef) (form : FormRef) :
    ((layout schema form).flatMap fun g => g.fields.map Placed.field).Perm schema.fields ∧
      (layout schema form).map Group.section_ =
        ((displayed form).filter fun s => schema.fields.any fun f => home form f == s) ∧
      (displayed form).Nodup ∧ ∀ g ∈ layout schema form, Laid schema form g := by
  refine ⟨flatMap_layout_perm schema form, ?_, nodup_displayed form, fun g hg => ?_⟩
  · rw [layout_eq, List.filter_map, List.map_map]
    refine (List.map_id _).trans (List.filter_congr fun s _ => ?_)
    have hperm := groupAt_perm schema form s
    rw [Function.comp_apply, Bool.eq_iff_iff, Bool.not_eq_true', List.isEmpty_eq_false_iff_exists_mem, List.any_eq_true]
    constructor
    · rintro ⟨p, hp⟩
      obtain ⟨hmem, hhome⟩ := List.mem_filter.mp (hperm.subset (List.mem_map_of_mem hp))
      exact ⟨_, hmem, beq_iff_eq.mpr (of_decide_eq_true hhome)⟩
    · rintro ⟨field, hmem, hhome⟩
      have hfield := hperm.symm.subset
        (List.mem_filter.mpr ⟨hmem, decide_eq_true (beq_iff_eq.mp hhome)⟩)
      obtain ⟨p, hp, -⟩ := List.mem_map.mp hfield
      exact ⟨p, hp⟩
  · rw [layout_eq, List.mem_filter] at hg
    obtain ⟨hmem, hfilled⟩ := hg
    obtain ⟨s, -, rfl⟩ := List.mem_map.mp hmem
    exact laid_groupAt (by simpa using hfilled)

end Guatiao.Intake
