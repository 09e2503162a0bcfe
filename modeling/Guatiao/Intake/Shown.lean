import Guatiao.Intake.Judge
import Guatiao.Schema.SameJson

/-!
# Which fields are shown

A field with a condition is shown when the field the condition reads is shown and holds one of its
values. The fields a field waits on are a chain, walked in a loop that keeps the conditions it came by;
a form whose check finds no cycle has no chain that comes back, so the walk comes to an end.
-/

namespace Guatiao.Intake

open Lib Schema

/-- Whether the arm that is picked for an owner declares a member. -/
def declares (schema : SchemaRef) (values : Value) (owner member : String) : Bool :=
  match schema.find owner with
  | none => false
  | some field =>
    match field.kind with
    | .variant tag _ =>
      match ((values.get owner).bind fun held => held.get tag).bind Value.asStr with
      | none => false
      | some picked => field.kind.arms.any fun arm =>
          arm.value == picked && arm.fields.any fun f => f.key == member
    | _ => false

/-- What a field holds now: its value, else its default, and for a variant named by its own key, the
discriminant of either. -/
def current (schema : SchemaRef) (values : Value) (path : String) : Option Value :=
  match topLevel schema path with
  | some field => do
    let held ← (values.get field.key).or (field.schema.get Schema.Vocab.default)
    match field.kind with
    | .variant tag _ => if isMap held then held.get tag else some held
    | _ => some held
  | none => do
    let (owner, member) ← split path
    let owner := formKey schema owner
    (((values.get owner).filter fun _ => declares schema values owner member).bind fun held =>
      held.get member).or
        ((resolve schema path.toList).bind fun f => f.schema.get Schema.Vocab.default)

/-- The field a condition reads holds one of its values. -/
def meets (schema : SchemaRef) (values : Value) (condition : Condition) : Bool :=
  (current schema values condition.field).any fun held =>
    condition.values.any fun value => held == value

variable {form : FormRef} {at_ : String} {schema : SchemaRef}

theorem get_of_visibleWhen {condition : Condition} (h : (form.hints at_).visibleWhen = some condition) :
    ∃ v, AssocList.get at_ form.entries = some v := by
  cases hget : AssocList.get at_ form.entries with
  | some v => exact ⟨v, rfl⟩
  | none =>
    rw [FormRef.hints, hget] at h
    cases h

/-- The fields a field waits on, from one on, with the fields met before it: whether the chain came to
an end, and the conditions on it. -/
def chain (schema : SchemaRef) (form : FormRef) (seen : List String) (at_ : String) :
    Except FormError (Bool × List Condition) :=
  if (resolve schema at_.toList).isNone then .error (.unknownField Vocab.FIELDS at_)
  else if _hseen : at_ ∈ seen then .ok (false, [])
  else
    match _hcondition : (form.hints at_).visibleWhen with
    | none => .ok (true, [])
    | some condition =>
      (chain schema form (at_ :: seen) (formKey schema condition.field)).map fun walked =>
        (walked.1, condition :: walked.2)
termination_by linksLeft form.entries seen
decreasing_by
  obtain ⟨_, hget⟩ := get_of_visibleWhen _hcondition
  exact linksLeft_lt hget _hseen

/-- Whether the field at a path is shown, given the values a person has entered so far. -/
def isVisible (schema : SchemaRef) (form : FormRef) (path : String) (values : Value) :
    Except FormError Bool :=
  (chain schema form [] (formKey schema path)).map fun walked =>
    walked.1 && walked.2.all (meets schema values)

theorem key_of_find {key : String} {field : FieldRef}
    (h : schema.find key = some field) : field.key = key := by
  obtain ⟨e, hfind, hfield⟩ := Option.bind_eq_some_iff.mp h
  split at hfield
  · cases hfield
    simpa using List.find?_some hfind
  · cases hfield

theorem find_of_topLevel {path : String} {field : FieldRef}
    (h : topLevel schema path = some field) : schema.find field.key = some field := by
  rcases Option.or_eq_some_iff.mp h with h | ⟨-, h⟩
  · rwa [key_of_find h]
  · obtain ⟨name, -, hname⟩ := Option.bind_eq_some_iff.mp h
    rwa [key_of_find hname]

theorem formKey_formKey (schema : SchemaRef) (path : String) :
    formKey schema (formKey schema path) = formKey schema path := by
  rw [formKey.eq_def schema path]
  cases htop : topLevel schema path with
  | some field =>
    have hfind := find_of_topLevel htop
    rw [Option.map_some, Option.getD_some, formKey, topLevel, hfind, Option.some_or]
    rfl
  | none => rw [Option.map_none, Option.getD_none, formKey, htop]; rfl

theorem resolve_formKey {path : String} (h : (resolve schema path.toList).isSome) :
    (resolve schema (formKey schema path).toList).isSome := by
  rw [formKey]
  cases htop : topLevel schema path with
  | some field =>
    rw [Option.map_some, Option.getD_some, resolve, String.ofList_toList, find_of_topLevel htop]
    rfl
  | none => exact h

/-- The field a field waits on. -/
def waitsOn (schema : SchemaRef) (form : FormRef) (at_ : String) : Option String :=
  (form.hints at_).visibleWhen.map fun condition => formKey schema condition.field

/-- A field is shown: it has no condition, or the field its condition reads is shown and holds one of
the values. -/
inductive Shown (schema : SchemaRef) (form : FormRef) (values : Value) : String → Prop
  | free {at_ : String} (hnone : (form.hints at_).visibleWhen = none) : Shown schema form values at_
  | met {at_ : String} {condition : Condition}
      (hcondition : (form.hints at_).visibleWhen = some condition)
      (hshown : Shown schema form values (formKey schema condition.field))
      (hmeets : meets schema values condition = true) : Shown schema form values at_

theorem shown_iff {values : Value}
    {condition : Condition} (hcondition : (form.hints at_).visibleWhen = some condition) :
    Shown schema form values at_ ↔
      Shown schema form values (formKey schema condition.field) ∧
        meets schema values condition = true := by
  constructor
  · intro h
    cases h with
    | free hnone => rw [hcondition] at hnone; cases hnone
    | met hother hshown hmeets =>
      rw [hcondition] at hother
      cases hother
      exact ⟨hshown, hmeets⟩
  · exact fun ⟨hshown, hmeets⟩ => .met hcondition hshown hmeets

theorem get_filterMap_links {β γ : Type*} {entries : List (String × β)}
    (hnodup : (AssocList.keys entries).Nodup) (f : β → Option γ) (at_ : String) :
    AssocList.get at_ (entries.filterMap fun e => (f e.2).map fun x => (e.1, x)) =
      (AssocList.get at_ entries).bind f := by
  induction entries with
  | nil => rfl
  | cons e rest ih =>
    obtain ⟨key, v⟩ := e
    rw [AssocList.keys_cons, List.nodup_cons] at hnodup
    rw [List.filterMap_cons, AssocList.get]
    cases hv : f v with
    | some x =>
      rw [Option.map_some, AssocList.get, ih hnodup.2]
      split
      · rw [Option.bind_some, hv]
      · rfl
    | none =>
      rw [Option.map_none, ih hnodup.2]
      split
      · next hkey =>
        rw [Option.bind_some, hv, AssocList.get_eq_none_iff.mpr (hkey ▸ hnodup.1), Option.bind_none]
      · rfl

theorem nodup_entries (h : form.value.Distinct) :
    (AssocList.keys form.entries).Nodup := by
  rw [FormRef.entries]
  cases hget : form.value.get Vocab.FIELDS with
  | none => exact List.nodup_nil
  | some fields =>
    have hfields := Value.Everywhere.get h hget
    cases fields with
    | map entries => exact (Value.distinct_map.mp hfields).1
    | _ => exact List.nodup_nil

theorem linked_conditionLinks (h : form.value.Distinct) :
    linked (conditionLinks schema form) = waitsOn schema form := by
  funext at_
  let leads (v : Value) : Option String :=
    (HintsRef.mk (some v |>.filter isMap)).visibleWhen.map fun condition =>
      formKey schema condition.field
  have hlinks : conditionLinks schema form =
      form.entries.filterMap fun e => (leads e.2).map fun x => (e.1, x) := by
    rw [conditionLinks, FormRef.fields, List.filterMap_map]
    refine List.filterMap_congr fun e _ => ?_
    rw [Option.map_map]
    rfl
  rw [linked, hlinks, get_filterMap_links (nodup_entries h), waitsOn, FormRef.hints]
  cases AssocList.get at_ form.entries <;> rfl

theorem keys_fields (form : FormRef) : form.fields.map Prod.fst = AssocList.keys form.entries := by
  rw [FormRef.fields, List.map_map]
  rfl

theorem mem_keys_of_waitsOn (h : (waitsOn schema form at_).isSome) : at_ ∈ form.fields.map Prod.fst := by
  rw [waitsOn, Option.isSome_map] at h
  obtain ⟨condition, hcondition⟩ := Option.isSome_iff_exists.mp h
  obtain ⟨v, hget⟩ := get_of_visibleWhen hcondition
  rw [keys_fields]
  exact AssocList.key_mem (AssocList.mem_of_get hget)

/-- Some field the form lists, its key read as the form files it, waits on a chain of fields that comes
back to one of them. -/
def Cyclic (schema : SchemaRef) (form : FormRef) : Prop :=
  ∃ key ∈ form.fields.map Prod.fst, Returns (waitsOn schema form) (formKey schema key)

theorem cyclic_of_returns {start : String}
    (h : Returns (waitsOn schema form) start) : Cyclic schema form := by
  obtain ⟨x, y, hyx, hx⟩ := h.exists_lap
  obtain ⟨condition, -, hkey⟩ := Option.map_eq_some_iff.mp hyx
  refine ⟨x, mem_keys_of_waitsOn hx.next_isSome, ?_⟩
  rwa [← hkey, formKey_formKey, hkey]

theorem findCycle_isSome_iff (h : form.value.Distinct) :
    (findCycle schema form).isSome ↔ Cyclic schema form := by
  rw [findCycle, firstReturn_isSome_iff fun _ hx => absurd hx List.not_mem_nil,
    linked_conditionLinks h]
  constructor
  · rintro ⟨start, -, hreturns⟩
    exact cyclic_of_returns hreturns
  · rintro ⟨key, -, hreturns⟩
    exact ⟨_, mem_keys_of_waitsOn hreturns.next_isSome, hreturns⟩

section Checked

variable {doubles : Doubles} {engine : Engine} {schema : SchemaRef} {form : FormRef}

variable {at_ : String} {sub : SchemaRef → FormRef → Fit}

theorem resolve_of_checkCondition {condition : Value} {field : String}
    (hfield : textUnder Vocab.FIELD condition = some field)
    (h : checkCondition doubles engine schema condition at_ = .ok ()) :
    (resolve schema field.toList).isSome := by
  rw [checkCondition] at h
  split at h
  · cases h
  · rw [hfield] at h
    cases hvalues : valuesOfCondition condition at_ with
    | error e => simp only [hvalues] at h; cases h
    | ok values =>
      cases hresolve : resolve schema field.toList with
      | some referenced => rfl
      | none => simp only [hvalues, hresolve] at h; cases h

theorem checkHints_of_checkFields
    (h : checkFields doubles engine sub schema form = .ok ()) {e : Entry} (he : e ∈ form.entries) :
    checkHints doubles engine sub schema e = .ok () := by
  rw [FormRef.entries] at he
  rw [checkFields] at h
  cases hfields : form.value.get Vocab.FIELDS with
  | none => rw [hfields] at he; cases he
  | some fields =>
    rw [hfields, Option.bind_some] at he
    cases hmap : fields.asMap with
    | none => rw [hmap] at he; cases he
    | some entries =>
      rw [hmap] at he
      simp only [hfields, hmap] at h
      exact eachFits_iff.mp h e he

theorem checkVisibleWhen_of_checkHints {e : Entry} (h : checkHints doubles engine sub schema e = .ok ()) :
    ∃ at_, checkVisibleWhen doubles engine schema e.2 at_ = .ok () := by
  rw [checkHints] at h
  split at h
  · cases h
  · split at h
    · cases h
    · obtain ⟨-, h⟩ := fit_seq.mp h
      obtain ⟨-, h⟩ := fit_seq.mp h
      obtain ⟨-, h⟩ := fit_seq.mp h
      obtain ⟨-, h⟩ := fit_seq.mp h
      exact ⟨_, (fit_seq.mp h).1⟩

theorem resolve_of_checkFields
    (h : checkFields doubles engine sub schema form = .ok ()) {condition : Condition}
    (hcondition : (form.hints at_).visibleWhen = some condition) :
    (resolve schema condition.field.toList).isSome := by
  obtain ⟨v, hget⟩ := get_of_visibleWhen hcondition
  obtain ⟨place, hcheck⟩ := checkVisibleWhen_of_checkHints
    (checkHints_of_checkFields h (AssocList.mem_of_get hget))
  rw [FormRef.hints, hget, HintsRef.visibleWhen] at hcondition
  obtain ⟨hints, hhints, hcondition⟩ := Option.bind_eq_some_iff.mp hcondition
  obtain ⟨written, hwritten, hcondition⟩ := Option.bind_eq_some_iff.mp hcondition
  obtain ⟨field, hfield, hcondition⟩ := Option.bind_eq_some_iff.mp hcondition
  obtain ⟨values, -, hcondition⟩ := Option.bind_eq_some_iff.mp hcondition
  cases hcondition
  have hheld : (some v).filter isMap = some hints := hhints
  obtain ⟨heq, -⟩ := Option.filter_eq_some_iff.mp hheld
  cases heq
  rw [checkVisibleWhen, hwritten] at hcheck
  exact resolve_of_checkCondition hfield hcheck

/-- The walk from a field comes to an end, and the conditions it came by are all met exactly when the
field is shown. -/
theorem chain_of_acyclic (hresolves : ∀ at_ condition, (form.hints at_).visibleWhen = some condition →
      (resolve schema condition.field.toList).isSome)
    {start : String} (hstart : ¬ Returns (waitsOn schema form) start) {seen : List String}
    (hfollowed : Followed (waitsOn schema form) start seen at_) (hat : (resolve schema at_.toList).isSome) :
    ∃ conditions, chain schema form seen at_ = .ok (true, conditions) ∧
      ∀ values, conditions.all (meets schema values) = true ↔ Shown schema form values at_ := by
  induction seen, at_ using chain.induct schema form with
  | case1 seen at_ hnone =>
    rw [← Option.not_isSome, hat] at hnone
    cases hnone
  | case2 seen at_ hsome hseen => exact absurd (hfollowed.returns hseen) hstart
  | case3 seen at_ hsome hseen hnone =>
    refine ⟨[], ?_, fun values => iff_of_true rfl (.free hnone)⟩
    rw [chain, if_neg hsome, dif_neg hseen]
    split
    · rfl
    · next condition hcondition => rw [hnone] at hcondition; cases hcondition
  | case4 seen at_ hsome hseen condition hcondition ih =>
    have hnext : waitsOn schema form at_ = some (formKey schema condition.field) := by
      rw [waitsOn, hcondition]
      rfl
    obtain ⟨conditions, hchain, hshown⟩ := ih (hfollowed.step hnext)
      (resolve_formKey (hresolves at_ condition hcondition))
    refine ⟨condition :: conditions, ?_, fun values => ?_⟩
    · rw [chain, if_neg hsome, dif_neg hseen]
      split
      · next hnone => rw [hcondition] at hnone; cases hnone
      · next other hother =>
        rw [hcondition] at hother
        cases hother
        rw [hchain]
        rfl
    · rw [List.all_cons, Bool.and_eq_true, and_comm, hshown, shown_iff hcondition]

end Checked

/-- Among forms whose other checks pass, the check answers a cycle exactly when some chain of
conditions comes back; and where it accepts, the walk from every declared path comes to an end with no
field met twice, and answers what the conditions say. -/
theorem check_agrees_visible (doubles : Doubles) (engine : Engine) (schema : SchemaRef)
    (form : FormRef) (hform : form.value.Distinct) :
    (checkSections form = .ok () →
      checkFields doubles engine (checkAt doubles engine (maxDepth - 1)) schema form = .ok () →
        ((∃ path, check doubles engine schema form = .error (.cyclicCondition path)) ↔
          Cyclic schema form)) ∧
    (check doubles engine schema form = .ok () →
      ∀ path, (resolve schema path.toList).isSome →
        ¬ Returns (waitsOn schema form) (formKey schema path) ∧
        (∃ conditions, chain schema form [] (formKey schema path) = .ok (true, conditions)) ∧
        ∀ values, ∃ shown, isVisible schema form path values = .ok shown ∧
          (shown = true ↔ Shown schema form values (formKey schema path))) := by
  constructor
  · intro hsections hfields
    rw [← findCycle_isSome_iff hform, check_eq, hsections]
    show (∃ path, (checkFields doubles engine (checkAt doubles engine (maxDepth - 1)) schema form >>=
      fun _ => acyclic (findCycle schema form)) = .error (.cyclicCondition path)) ↔ _
    rw [hfields]
    cases hcycle : findCycle schema form with
    | some onCycle => exact iff_of_true ⟨onCycle, rfl⟩ rfl
    | none => exact iff_of_false (fun ⟨path, hpath⟩ => by cases hpath) (by simp)
  · intro hcheck path hpath
    rw [check_eq] at hcheck
    obtain ⟨-, hcheck⟩ := fit_seq.mp hcheck
    obtain ⟨hfields, hcheck⟩ := fit_seq.mp hcheck
    have hacyclic : ¬ Cyclic schema form := by
      rw [← findCycle_isSome_iff hform]
      intro hsome
      obtain ⟨onCycle, honCycle⟩ := Option.isSome_iff_exists.mp hsome
      rw [honCycle] at hcheck
      cases hcheck
    have hstart : ¬ Returns (waitsOn schema form) (formKey schema path) :=
      fun hreturns => hacyclic (cyclic_of_returns hreturns)
    obtain ⟨conditions, hchain, hshown⟩ := chain_of_acyclic
      (fun _ _ hcondition => resolve_of_checkFields hfields hcondition) hstart
      (followed_nil _) (resolve_formKey hpath)
    refine ⟨hstart, ⟨conditions, hchain⟩, fun values => ⟨_, ?_, hshown values⟩⟩
    rw [isVisible, hchain]
    rfl

/-- A schema of one field. -/
def hostSchema : SchemaRef :=
  ⟨.map [("properties", .map [("host", .map [("type", .string "string")])])], rfl⟩

/-- A form whose one field waits on itself. -/
def ownForm : FormRef :=
  ⟨.map [("fields", .map [("host", .map [("visibleWhen",
    .map [("field", .string "host"), ("equals", .string "x")])])])], rfl⟩

theorem check_agrees_visible_own : ownForm.value.Distinct ∧
    ∃ path, check roundedDoubles (fun _ => none) hostSchema ownForm = .error (.cyclicCondition path) := by
  have hform : ownForm.value.Distinct := by decide
  refine ⟨hform, ((check_agrees_visible roundedDoubles (fun _ => none) hostSchema ownForm hform).1 rfl
    rfl).mpr ⟨"host", by decide, 0, 1, "host", by decide, rfl, rfl⟩⟩

end Guatiao.Intake
