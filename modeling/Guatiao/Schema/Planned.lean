import Guatiao.Schema.Finished

/-!
# What the builders write the readers read

By induction over the plan: a kind whose parts are whole is whole and read as planned, unless a name
is repeated, and a repeated name anywhere stops every builder above it.
-/

namespace Guatiao.Schema

open Lib

section Arms

variable {tag : String} {value title : String} {fields : List (String × Bool × Plan)}
  {vs : List Value}

/-- What is written for an arm: a map whose value, title and fields are read as planned. -/
structure GoodArm (tag : String) (arm : String × String × List (String × Bool × Plan)) (v : Value) :
    Prop where
  map : isMap v = true
  value : (ArmRef.mk tag v).value = arm.1
  title : (ArmRef.mk tag v).title = if arm.2.1.isEmpty then arm.1 else arm.2.1
  fields : ReadsFields arm.2.2 (ArmRef.mk tag v).fields

/-- What an arm holds before its fields are written. -/
def armEntries (value title : String) : List Entry :=
  if !title.isEmpty && title != value then [(Vocab.title, .string title)] else []

/-- What an arm pins its discriminant with. -/
def pinned (value : String) : Value := .map [(Vocab.const, .string value)]

theorem new_state (value title : String) :
    (ArmBuilder.new value title).state = .ok (.map (armEntries value title)) ∧
      (ArmBuilder.new value title).discriminant = .ok (pinned value) := by
  refine ⟨?_, rfl⟩
  unfold ArmBuilder.new armEntries
  split <;> rfl

theorem armEntries_get {key : String} (hkey : key ≠ Vocab.title) :
    (Value.map (armEntries value title)).get key = none := by
  unfold armEntries
  split
  · exact (get_map_set Vocab.title (.string title) [] key).trans (if_neg hkey)
  · rfl

/-- An arm whose fields have names of their own, and none the tag's, is read as planned. -/
theorem goodArm_sealed (hnodup : (tag :: fields.map Prod.fst).Nodup)
    (h : List.Forall₂ (fun f v => Good f.2.2 v) fields vs) :
    GoodArm tag (value, title, fields)
      (.map (sealedEntries (armEntries value title) (some (tag, pinned value)) fields vs)) := by
  set v := Value.map (sealedEntries (armEntries value title) (some (tag, pinned value)) fields vs)
    with hv
  have hproperties : v.get Vocab.properties =
      some (.map ((tag, pinned value) :: List.zip (fields.map Prod.fst) vs)) := get_sealed_properties
  have hvalue : (ArmRef.mk tag v).value = value := by
    have hget : (Value.map ((tag, pinned value) :: List.zip (fields.map Prod.fst) vs)).get tag =
        some (pinned value) := by
      simp [Value.get, Value.asMap, AssocList.get]
    rw [ArmRef.value, hproperties, Option.bind_some, hget]
    rfl
  refine ⟨rfl, hvalue, ?_, ?_⟩
  · have htitle : textUnder Vocab.title v =
        if !title.isEmpty && title != value then some title else none := by
      rw [textUnder, get_sealed, if_neg fun h => absurd h.1 (by decide), if_neg (by decide),
        if_neg (by decide), armEntries]
      split <;> rfl
    rw [ArmRef.title, hvalue]
    show (if ((textUnder Vocab.title v).getD "").isEmpty then value
      else (textUnder Vocab.title v).getD "") = _
    rw [htitle]
    by_cases hempty : title.isEmpty = true
    · simp [hempty]
    · by_cases hsame : title = value
      · subst hsame
        simp [hempty]
      · simp [hempty, hsame]
  · have hnames : ((some (tag, pinned value)).toList.map Prod.fst ++ fields.map Prod.fst).Nodup := hnodup
    have hnone : (Value.map (armEntries value title)).get Vocab.required = none :=
      armEntries_get (by decide)
    have hpinned : ∀ t ∈ some (tag, pinned value), isMap t.2 = true := by
      intro t ht
      obtain rfl := Option.some.inj ht
      rfl
    have hfields := fieldsOf_sealed hnone hnames hpinned h
    have hother : ∀ f ∈ fieldRefs fields vs, (f.key != tag) = true := by
      intro f hf
      rw [List.nodup_cons] at hnodup
      have hkey : f.key ∈ fields.map Prod.fst := fieldRefs_key hf
      rw [bne_iff_ne]
      rintro rfl
      exact hnodup.1 hkey
    show ReadsFields fields ((fieldsOf v).filter fun f => f.key != tag)
    rw [hfields, List.filter_append, List.filter_eq_self.mpr hother]
    simpa using readsFields_of_good h

variable {arms : List (String × String × List (String × Bool × Plan))} {builders : List ArmBuilder}

/-- What a variant puts into its list for an arm. -/
def ArmBuilder.sealed (tag : String) (arm : ArmBuilder) : Drafted :=
  sealObject arm.state (some (tag, arm.discriminant)) arm.fields

theorem readsArms_of_good (h : List.Forall₂ (GoodArm tag) arms vs) :
    ReadsArms arms (Kind.variant tag (.list vs)).arms := by
  induction h with
  | nil => rfl
  | @cons arm v arms vs hgood _ ih =>
    have hcons : (Kind.variant tag (.list (v :: vs))).arms =
        ⟨tag, v⟩ :: (Kind.variant tag (.list vs)).arms := by
      show ((v :: vs).filter isMap).map (ArmRef.mk tag) = _
      rw [List.filter_cons_of_pos hgood.map]
      rfl
    rw [hcons]
    exact ⟨_, _, rfl, hgood.value, hgood.title, hgood.fields, ih⟩

theorem variant_state (tag : String) (builders : List ArmBuilder) :
    (KindBuilder.variant tag builders).state =
      (builders.map (ArmBuilder.sealed tag)).foldl (fun state value => push state Vocab.oneOf value)
        (if repeats (builders.map ArmBuilder.value) then repeated
          else .ok (.map [(Vocab.type, .string Vocab.typeObject), (Vocab.xVariantTag, .string tag),
            (Vocab.oneOf, .list [])])) := by
  rw [List.foldl_map]
  cases hrepeats : repeats (builders.map ArmBuilder.value) with
  | true =>
    simp only [KindBuilder.variant, hrepeats, Bool.true_and]
    rfl
  | false =>
    simp only [KindBuilder.variant, hrepeats, Bool.false_and]
    rfl

theorem good_variant (hnodup : (builders.map ArmBuilder.value).Nodup)
    (hstates : builders.map (ArmBuilder.sealed tag) = vs.map Except.ok)
    (h : List.Forall₂ (GoodArm tag) arms vs) :
    ∃ v, (KindBuilder.variant tag builders).state = .ok v ∧ Good (.variant tag arms) v := by
  have hrepeats : repeats (builders.map ArmBuilder.value) = false := by
    rw [Bool.eq_false_iff, ne_eq, repeats_iff, not_not]
    exact hnodup
  have hstart : (Value.map [(Vocab.type, .string Vocab.typeObject), (Vocab.xVariantTag, .string tag),
      (Vocab.oneOf, .list [])]).get Vocab.oneOf = some (.list []) := rfl
  obtain ⟨es, hfold, hget⟩ := foldl_push_ok vs [] hstart
  have hother {key : String} (hne : key ≠ Vocab.oneOf) : (Value.map es).get key =
      (Value.map [(Vocab.type, .string Vocab.typeObject), (Vocab.xVariantTag, .string tag),
        (Vocab.oneOf, .list [])]).get key := by
    rw [hget, if_neg hne]
  have htype : (Value.map es).get Vocab.type = some (.string Vocab.typeObject) :=
    (hother (by decide)).trans rfl
  refine ⟨.map es, ?_, good_of_typed htype (by decide) ((hother (by decide)).trans rfl) ?_ rfl⟩
  · rw [variant_state, hrepeats, hstates]
    exact hfold
  · refine ⟨vs, ⟨rfl, (hother (by decide)).trans rfl, (hother (by decide)).trans rfl,
      (hother (by decide)).trans rfl, ?_, (hother (by decide)).trans rfl,
      (hother (by decide)).trans rfl, ?_, (hother (by decide)).trans rfl⟩, readsArms_of_good h⟩
    · rw [declaredType, htype]
    · rw [hget, if_pos rfl, List.nil_append]

theorem variant_repeated (hall : ∀ state ∈ builders.map (ArmBuilder.sealed tag), Stopping state)
    (h : ¬ (builders.map ArmBuilder.value).Nodup ∨ repeated ∈ builders.map (ArmBuilder.sealed tag)) :
    (KindBuilder.variant tag builders).state = repeated := by
  rw [variant_state]
  cases hrepeats : repeats (builders.map ArmBuilder.value) with
  | true =>
    rw [if_pos rfl]
    exact foldl_push_stopped _
  | false =>
    have hmem : repeated ∈ builders.map (ArmBuilder.sealed tag) := by
      refine h.resolve_left fun hvalues => ?_
      rw [repeats_iff.mpr hvalues] at hrepeats
      cases hrepeats
    have hstart : (Value.map [(Vocab.type, .string Vocab.typeObject), (Vocab.xVariantTag, .string tag),
        (Vocab.oneOf, .list [])]).get Vocab.oneOf = some (.list []) := rfl
    rw [if_neg Bool.false_ne_true]
    exact foldl_push_repeated hstart hall hmem

end Arms

/-- A plan is stopped where it repeats a name, and is whole where it does not. -/
structure Made (plan : Plan) : Prop where
  stopped : plan.Repeats → plan.finish = repeated
  whole : ¬ plan.Repeats → ∃ v, plan.finish = .ok v ∧ Good plan v

/-- The same of some plans. -/
structure AllMade (plans : List Plan) : Prop where
  stopped : RepeatsAny plans → repeated ∈ (buildAll plans).map KindBuilder.state
  stopping : ∀ state ∈ (buildAll plans).map KindBuilder.state, Stopping state
  whole : ¬ RepeatsAny plans →
    ∃ vs, (buildAll plans).map KindBuilder.state = vs.map Except.ok ∧ List.Forall₂ Good plans vs

/-- The same of the plans of some fields. -/
structure FieldsMade (fields : List (String × Bool × Plan)) : Prop where
  stopped : RepeatsFields fields → ∃ builder ∈ buildFields fields, builder.state = repeated
  stopping : ∀ builder ∈ buildFields fields, Stopping builder.state
  keys : (buildFields fields).map FieldBuilder.key = fields.map Prod.fst
  whole : ¬ RepeatsFields fields → ∃ vs, buildFields fields = fielded fields vs ∧
    List.Forall₂ (fun f v => Good f.2.2 v) fields vs

/-- The same of some arms, where their fields are sealed behind a tag. -/
structure ArmsMade (tag : String) (arms : List (String × String × List (String × Bool × Plan))) :
    Prop where
  stopped : RepeatsArms tag arms → repeated ∈ (buildArms arms).map (ArmBuilder.sealed tag)
  stopping : ∀ state ∈ (buildArms arms).map (ArmBuilder.sealed tag), Stopping state
  values : (buildArms arms).map ArmBuilder.value = arms.map Prod.fst
  whole : ¬ RepeatsArms tag arms → ∃ vs, (buildArms arms).map (ArmBuilder.sealed tag) =
    vs.map Except.ok ∧ List.Forall₂ (GoodArm tag) arms vs

section Made

variable {plan : Plan} {plans : List Plan} {fields : List (String × Bool × Plan)}
  {arms : List (String × String × List (String × Bool × Plan))} {tag : String}

theorem Made.stopping (h : Made plan) : Stopping plan.finish := by
  by_cases hrepeats : plan.Repeats
  · exact .inl (h.stopped hrepeats)
  · obtain ⟨v, hv, -⟩ := h.whole hrepeats
    exact .inr ⟨v, hv⟩

theorem Made.of_part {part : Plan} (h : Made part) (hrepeats : plan.Repeats ↔ part.Repeats)
    (hstopped : part.finish = repeated → plan.finish = repeated)
    (hwhole : ∀ v, part.finish = .ok v → Good part v → ∃ w, plan.finish = .ok w ∧ Good plan w) :
    Made plan where
  stopped hplan := hstopped (h.stopped (hrepeats.mp hplan))
  whole hplan := by
    obtain ⟨v, hv, hgood⟩ := h.whole fun hpart => hplan (hrepeats.mpr hpart)
    exact hwhole v hv hgood

theorem allMade_nil : AllMade [] where
  stopped h := by
    rw [RepeatsAny] at h
    exact h.elim
  stopping state hstate := by cases hstate
  whole _ := ⟨[], rfl, .nil⟩

theorem allMade_cons (h : Made plan) (hrest : AllMade plans) : AllMade (plan :: plans) where
  stopped hrepeats := by
    rw [RepeatsAny] at hrepeats
    rw [buildAll, List.map_cons, List.mem_cons]
    rcases hrepeats with hplan | hplans
    · exact .inl (h.stopped hplan).symm
    · exact .inr (hrest.stopped hplans)
  stopping state hstate := by
    rw [buildAll, List.map_cons, List.mem_cons] at hstate
    rcases hstate with rfl | hstate
    · exact h.stopping
    · exact hrest.stopping state hstate
  whole hrepeats := by
    rw [RepeatsAny, not_or] at hrepeats
    obtain ⟨v, hv, hgood⟩ := h.whole hrepeats.1
    obtain ⟨vs, hvs, hall⟩ := hrest.whole hrepeats.2
    refine ⟨v :: vs, ?_, .cons hgood hall⟩
    rw [buildAll, List.map_cons, hvs, List.map_cons, ← hv]
    rfl

theorem fieldsMade_nil : FieldsMade [] where
  stopped h := by
    rw [RepeatsFields] at h
    exact h.elim
  stopping builder hbuilder := by cases hbuilder
  keys := rfl
  whole _ := ⟨[], rfl, .nil⟩

theorem fieldsMade_cons {key : String} {required : Bool} (h : Made plan) (hrest : FieldsMade fields) :
    FieldsMade ((key, required, plan) :: fields) where
  stopped hrepeats := by
    rw [RepeatsFields] at hrepeats
    rw [buildFields]
    rcases hrepeats with hplan | hfields
    · exact ⟨_, List.mem_cons_self, h.stopped hplan⟩
    · obtain ⟨builder, hbuilder, hstate⟩ := hrest.stopped hfields
      exact ⟨builder, List.mem_cons_of_mem _ hbuilder, hstate⟩
  stopping builder hbuilder := by
    rw [buildFields, List.mem_cons] at hbuilder
    rcases hbuilder with rfl | hbuilder
    · exact h.stopping
    · exact hrest.stopping builder hbuilder
  keys := by
    rw [buildFields, List.map_cons, hrest.keys]
    rfl
  whole hrepeats := by
    rw [RepeatsFields, not_or] at hrepeats
    obtain ⟨v, hv, hgood⟩ := h.whole hrepeats.1
    obtain ⟨vs, hvs, hall⟩ := hrest.whole hrepeats.2
    refine ⟨v :: vs, ?_, .cons hgood hall⟩
    have hstate : plan.build.state = .ok v := hv
    rw [buildFields, hvs, FieldBuilder.new, hstate]
    rfl

theorem armsMade_nil : ArmsMade tag [] where
  stopped h := by
    rw [RepeatsArms] at h
    exact h.elim
  stopping state hstate := by cases hstate
  values := rfl
  whole _ := ⟨[], rfl, .nil⟩

theorem armSealed {value title : String} (h : FieldsMade fields) :
    ((¬ (tag :: fields.map Prod.fst).Nodup ∨ RepeatsFields fields) →
      ArmBuilder.sealed tag { ArmBuilder.new value title with fields := buildFields fields } =
        repeated) ∧
    (¬ (¬ (tag :: fields.map Prod.fst).Nodup ∨ RepeatsFields fields) →
      ∃ v, ArmBuilder.sealed tag { ArmBuilder.new value title with fields := buildFields fields } =
        .ok v ∧ GoodArm tag (value, title, fields) v) := by
  obtain ⟨hstate, hpinned⟩ := new_state value title
  have hsealed : ArmBuilder.sealed tag
      { ArmBuilder.new value title with fields := buildFields fields } =
        sealObject (.ok (.map (armEntries value title))) (some (tag, .ok (pinned value)))
          (buildFields fields) := by
    rw [ArmBuilder.sealed, hstate, hpinned]
  rw [hsealed]
  constructor
  · rintro (hnames | hfields)
    · refine seal_repeated (.inr ⟨_, rfl⟩) ?_
      rw [h.keys]
      exact hnames
    · refine seal_of_repeated (.inr ⟨_, rfl⟩) ?_ ?_ h.stopping (h.stopped hfields)
      · intro t ht
        obtain rfl := Option.some.inj ht
        exact ⟨_, rfl⟩
      · intro v hv
        rw [← Except.ok.inj hv]
        rfl
  · intro hnot
    rw [not_or, not_not] at hnot
    obtain ⟨vs, hvs, hall⟩ := h.whole hnot.2
    rw [hvs]
    refine ⟨_, ?_, goodArm_sealed hnot.1 hall⟩
    have hnames : ((some (tag, pinned value)).toList.map Prod.fst ++ fields.map Prod.fst).Nodup :=
      hnot.1
    exact seal_ok hnames hall

theorem armsMade_cons {value title : String} (h : FieldsMade fields) (hrest : ArmsMade tag arms) :
    ArmsMade tag ((value, title, fields) :: arms) where
  stopped hrepeats := by
    rw [RepeatsArms] at hrepeats
    rw [buildArms, List.map_cons, List.mem_cons]
    rcases hrepeats with harm | harms
    · exact .inl ((armSealed h).1 harm).symm
    · exact .inr (hrest.stopped harms)
  stopping state hstate := by
    rw [buildArms, List.map_cons, List.mem_cons] at hstate
    rcases hstate with rfl | hstate
    · by_cases hrepeats : ¬ (tag :: fields.map Prod.fst).Nodup ∨ RepeatsFields fields
      · exact .inl ((armSealed h).1 hrepeats)
      · obtain ⟨v, hv, -⟩ := (armSealed h).2 hrepeats
        exact .inr ⟨v, hv⟩
    · exact hrest.stopping state hstate
  values := by
    rw [buildArms, List.map_cons, hrest.values]
    rfl
  whole hrepeats := by
    rw [RepeatsArms, not_or] at hrepeats
    obtain ⟨v, hv, hgood⟩ := (armSealed h).2 hrepeats.1
    obtain ⟨vs, hvs, hall⟩ := hrest.whole hrepeats.2
    refine ⟨v :: vs, ?_, .cons hgood hall⟩
    rw [buildArms, List.map_cons, hvs, List.map_cons, hv]

theorem Made.of_plain (hnot : ¬ plan.Repeats) (h : ∃ v, plan.finish = .ok v ∧ Good plan v) :
    Made plan where
  stopped hrepeats := absurd hrepeats hnot
  whole _ := h

theorem given_repeated {α : Type} {k : KindBuilder} {write : KindBuilder → α → KindBuilder}
    {key : String} {f : α → Value} (hk : k.state = repeated)
    (hwrite : ∀ k a, write k a = k.keyword key (.ok (f a))) (a : Option α) :
    (k.given write a).state = repeated :=
  given_error hk hwrite a

theorem made_list (h : Made plan) (minItems maxItems : Option UInt64) :
    Made (.list plan minItems maxItems) := by
  refine h.of_part (by rw [Plan.Repeats]) (fun hpart => ?_) fun v hv hgood => ?_
  · have hlist : (KindBuilder.list plan.build).state = repeated := by
      show put (.ok (.map _)) Vocab.items plan.finish = _
      rw [hpart]
      rfl
    rw [Plan.finish, Plan.build]
    exact given_repeated (given_repeated hlist (fun k n => (rfl : k.minItems n = _)) minItems)
      (fun k n => (rfl : k.maxItems n = _)) maxItems
  · have hbuild : plan.build = ⟨.ok v⟩ := congrArg KindBuilder.mk hv
    rw [Plan.finish, Plan.build, hbuild]
    exact good_list hgood minItems maxItems

theorem made_mapOf (h : Made plan) : Made (.mapOf plan) := by
  refine h.of_part (by rw [Plan.Repeats]) (fun hpart => ?_) fun v hv hgood => ?_
  · show put (.ok (.map _)) Vocab.additionalProperties plan.finish = _
    rw [hpart]
    rfl
  · have hbuild : plan.build = ⟨.ok v⟩ := congrArg KindBuilder.mk hv
    rw [Plan.finish, Plan.build, hbuild]
    exact good_mapOf hgood

theorem Note.write_repeated (note : Note) : note.write repeated = repeated := by
  cases note <;> rfl

theorem made_noted (h : Made plan) (note : Note) : Made (.noted note plan) := by
  refine h.of_part (by rw [Plan.Repeats]) (fun hpart => ?_) fun v hv hgood => ?_
  · show note.write plan.finish = _
    rw [hpart]
    exact note.write_repeated
  · obtain ⟨w, hw, hnoted⟩ := good_note hgood note
    refine ⟨w, ?_, hnoted⟩
    show note.write plan.finish = _
    rw [hv, hw]

theorem made_nullable (h : Made plan) : Made (.nullable plan) := by
  refine h.of_part (repeats_nullable plan) (fun hpart => ?_) fun v hv hgood => ?_
  · have hbuild : plan.build = ⟨repeated⟩ := congrArg KindBuilder.mk hpart
    rw [finish_nullable, hbuild]
    rfl
  · have hbuild : plan.build = ⟨.ok v⟩ := congrArg KindBuilder.mk hv
    rw [finish_nullable, hbuild]
    exact good_nullable hgood

theorem made_tuple (h : AllMade plans) : Made (.tuple plans) where
  stopped hrepeats := by
    rw [Plan.Repeats] at hrepeats
    have hstart : (Value.map [(Vocab.type, .string Vocab.typeArray), (Vocab.prefixItems, .list [])]).get
        Vocab.prefixItems = some (.list []) := rfl
    have hfold := foldl_push_repeated hstart h.stopping (h.stopped hrepeats)
    rw [Plan.finish, Plan.build]
    simp only [KindBuilder.tuple, foldl_states]
    show (KindBuilder.maxItems (KindBuilder.minItems (KindBuilder.keyword
      ⟨((buildAll plans).map KindBuilder.state).foldl _ (.ok (.map [(Vocab.type, .string Vocab.typeArray),
        (Vocab.prefixItems, .list [])]))⟩ _ _) _) _).state = _
    rw [hfold]
    rfl
  whole hrepeats := by
    rw [Plan.Repeats] at hrepeats
    obtain ⟨vs, hvs, hall⟩ := h.whole hrepeats
    rw [Plan.finish, Plan.build]
    exact good_tuple hvs hall

theorem made_union (h : AllMade plans) : Made (.union plans) where
  stopped hrepeats := by
    rw [Plan.Repeats] at hrepeats
    have hstart : (Value.map [(Vocab.anyOf, .list [])]).get Vocab.anyOf = some (.list []) := rfl
    have hfold := foldl_push_repeated hstart h.stopping (h.stopped hrepeats)
    rw [← foldl_states] at hfold
    rw [Plan.finish, Plan.build, KindBuilder.union]
    exact hfold
  whole hrepeats := by
    rw [Plan.Repeats] at hrepeats
    obtain ⟨vs, hvs, hall⟩ := h.whole hrepeats
    rw [Plan.finish, Plan.build]
    exact good_union hvs hall

theorem made_map (h : FieldsMade fields) : Made (.map fields) where
  stopped hrepeats := by
    rw [Plan.Repeats] at hrepeats
    rw [Plan.finish, Plan.build]
    show sealObject (.ok (.map [(Vocab.type, .string Vocab.typeObject)])) none (buildFields fields) = _
    rcases hrepeats with hnames | hfields
    · refine seal_repeated (.inr ⟨_, rfl⟩) ?_
      rw [h.keys]
      exact hnames
    · refine seal_of_repeated (.inr ⟨_, rfl⟩) (fun t ht => by cases ht) ?_ h.stopping
        (h.stopped hfields)
      intro v hv
      rw [← Except.ok.inj hv]
      rfl
  whole hrepeats := by
    rw [Plan.Repeats, not_or, not_not] at hrepeats
    obtain ⟨vs, hvs, hall⟩ := h.whole hrepeats.2
    rw [Plan.finish, Plan.build, hvs]
    exact good_map hrepeats.1 hall

theorem made_variant (h : ArmsMade tag arms) : Made (.variant tag arms) where
  stopped hrepeats := by
    rw [Plan.Repeats] at hrepeats
    rw [Plan.finish, Plan.build]
    refine variant_repeated h.stopping ?_
    rw [h.values]
    exact hrepeats.imp_right h.stopped
  whole hrepeats := by
    rw [Plan.Repeats, not_or, not_not] at hrepeats
    obtain ⟨vs, hvs, hall⟩ := h.whole hrepeats.2
    rw [Plan.finish, Plan.build]
    refine good_variant ?_ hvs hall
    rw [h.values]
    exact hrepeats.1

end Made

mutual

theorem made : ∀ plan : Plan, Made plan
  | .bool => .of_plain not_false ⟨_, rfl, good_bool⟩
  | .float => .of_plain not_false ⟨_, rfl, good_float⟩
  | .bytes => .of_plain not_false ⟨_, rfl, good_bytes⟩
  | .int min max => .of_plain not_false (good_int min max)
  | .string minLength maxLength pattern format =>
    .of_plain not_false (good_string minLength maxLength pattern format)
  | .enumeration choices =>
    .of_plain not_false (good_enumeration choices)
  | .list items minItems maxItems => made_list (made items) minItems maxItems
  | .tuple positions => made_tuple (all_made positions)
  | .map fields => made_map (fields_made fields)
  | .mapOf values => made_mapOf (made values)
  | .union arms => made_union (all_made arms)
  | .variant tag arms => made_variant (arms_made tag arms)
  | .noted note kind => made_noted (made kind) note
  | .nullable kind => made_nullable (made kind)

theorem all_made : ∀ plans : List Plan, AllMade plans
  | [] => allMade_nil
  | plan :: rest => allMade_cons (made plan) (all_made rest)

theorem fields_made : ∀ fields : List (String × Bool × Plan), FieldsMade fields
  | [] => fieldsMade_nil
  | (_, _, plan) :: rest => fieldsMade_cons (made plan) (fields_made rest)

theorem arms_made (tag : String) :
    ∀ arms : List (String × String × List (String × Bool × Plan)), ArmsMade tag arms
  | [] => armsMade_nil
  | (_, _, fields) :: rest => armsMade_cons (fields_made fields) (arms_made tag rest)

end

/-- What the builders write is read as it was planned: what is finished is the plan's kinds with
their bounds, names, marks, choices, arms and positions, made nullable it is the same and accepts
null, and a builder is stopped exactly where a name is repeated. -/
theorem built_reads (plan : Plan) :
    (∀ v, plan.finish = .ok v → Reads plan v ∧
      ∃ w, (Plan.nullable plan).finish = .ok w ∧ Reads plan w ∧ isNullable w = true) ∧
    (plan.finish = .error .duplicateKey ↔ plan.Repeats) := by
  have hmade := made plan
  have hnot {v : Value} (hv : plan.finish = .ok v) : ¬ plan.Repeats := by
    intro hrepeats
    rw [hmade.stopped hrepeats] at hv
    cases hv
  refine ⟨fun v hv => ?_, fun hstopped => ?_, hmade.stopped⟩
  · obtain ⟨v', hv', hgood⟩ := hmade.whole (hnot hv)
    obtain rfl := Except.ok.inj (hv'.symm.trans hv)
    have hnullable : ¬ (Plan.nullable plan).Repeats := by
      rw [repeats_nullable]
      exact hnot hv
    obtain ⟨w, hw, hgood'⟩ := (made (.nullable plan)).whole hnullable
    exact ⟨hgood.reads, w, hw, hgood'.reads⟩
  · by_contra hrepeats
    obtain ⟨v, hv, -⟩ := hmade.whole hrepeats
    rw [hv] at hstopped
    cases hstopped

/-- Two labels given for one value are read back as the last, for both. -/
theorem relabelled : ∃ v, (KindBuilder.enumeration [("a", "A"), ("a", "B")]).state = .ok v ∧
    (Kind.read (some v)).choiceRefs.map (fun c => (c.value, c.label)) = [("a", "B"), ("a", "B")] ∧
    (Kind.read (some v)).choiceRefs.map (fun c => (c.value, c.label)) ≠ [("a", "A"), ("a", "B")] :=
  ⟨_, rfl, by decide +kernel, by decide +kernel⟩

end Guatiao.Schema
