import Guatiao.Intake.Shown
import Guatiao.Intake.Resolved

/-!
# The form a schema implies

One section for each id the fields name, a masked control for each secret typed as text, and the form
of its own for each field with members, where there is something in it.
-/

namespace Guatiao.Intake

open Lib Schema

/-- What a builder has so far, or the first error that stopped it. -/
abbrev Built := Except ValueError (List Entry)

/-- `Map::push_into` -/
def pushInto (key : String) (v : Value) (map : List Entry) : Built :=
  match AssocList.get key map with
  | none => .ok (AssocList.set key (.list [v]) map)
  | some (.list items) => .ok (AssocList.set key (.list (items ++ [v])) map)
  | some _ => .error .wrongKind

/-- `Form::section`, of a section that has an id only. -/
def sectionInto (form : Built) (id : String) : Built :=
  form.bind fun map => pushInto Vocab.SECTIONS (.map [(Vocab.ID, .string id)]) map

/-- `Form::field` -/
def fieldInto (form : Built) (path : String) (hints : Value) : Built :=
  form.bind fun map =>
    match AssocList.get Vocab.FIELDS map with
    | none => .ok (AssocList.set Vocab.FIELDS (.map [(path, hints)]) map)
    | some (.map fields) => .ok (AssocList.set Vocab.FIELDS (.map (AssocList.set path hints fields)) map)
    | some _ => .error .wrongKind

/-- Whether the schema marks the field a secret, by either mark. -/
def isSecret (field : FieldRef) : Bool := field.isSensitive || field.flag Vocab.writeOnly

/-- Whether a kind is a text's. -/
def isText : Kind → Bool
  | .str => true
  | _ => false

/-- Whether a form would tell a renderer anything it did not know. -/
def saysNothing (form : Value) : Bool :=
  match FormRef.new form with
  | none => true
  | some f => f.sections.isEmpty && f.fields.isEmpty

/-- One more section id, unless it is empty or was seen. -/
def addSection (found : List String × Built) (field : FieldRef) : List String × Built :=
  let id := sectionOf field
  if !id.isEmpty && !found.1.contains id then (found.1 ++ [id], sectionInto found.2 id) else found

/-- The loop over the fields, with how the form of a member is built. -/
def addFields (nested : SchemaRef → Except ValueError Value) (form : Built) :
    List FieldRef → Except ValueError Built
  | [] => .ok form
  | field :: rest =>
    if isSecret field && isText field.kind then
      addFields nested
        (fieldInto form field.key (.map [(Vocab.WIDGET, .string Vocab.PASSWORD)])) rest
    else
      match (memberSchema field).bind SchemaRef.new with
      | none => addFields nested form rest
      | some members =>
        match nested members with
        | .error e => .error e
        | .ok inner =>
          if saysNothing inner then addFields nested form rest
          else addFields nested (fieldInto form field.key (.map [(Vocab.FORM, inner)])) rest

/-- `build`, with the levels that may still be followed. -/
def build : ℕ → SchemaRef → Except ValueError Value
  | 0, _ => .error .tooDeep
  | left + 1, schema => do
    let sections := (schema.fields.foldl addSection ([], .ok [])).2
    let form ← addFields (build left) sections schema.fields
    return .map (← form)

/-- The form a schema implies. -/
def forSchema (schema : SchemaRef) : Except ValueError Value := build maxDepth schema

/-- The entries of a form with sections that have ids only, and hints. -/
def formOf (ids : List String) (hints : List Entry) : List Entry :=
  (if ids.isEmpty then [] else
    [(Vocab.SECTIONS, .list (ids.map fun id => .map [(Vocab.ID, .string id)]))]) ++
  (if hints.isEmpty then [] else [(Vocab.FIELDS, .map hints)])

theorem sectionInto_formOf (ids : List String) (id : String) :
    sectionInto (.ok (formOf ids [])) id = .ok (formOf (ids ++ [id]) []) := by
  cases ids with
  | nil => rfl
  | cons first rest =>
    show (Except.ok (AssocList.set Vocab.SECTIONS _ _) : Built) = _
    simp [formOf, AssocList.set]

theorem fieldInto_formOf (ids : List String) (hints : List Entry) (path : String) (v : Value) :
    fieldInto (.ok (formOf ids hints)) path v = .ok (formOf ids (AssocList.set path v hints)) := by
  cases hints with
  | nil => cases ids <;> rfl
  | cons e rest =>
    have hne : (AssocList.set path v (e :: rest)).isEmpty = false := by
      rw [AssocList.set]
      split <;> rfl
    rw [formOf, formOf, hne]
    cases ids <;> rfl

theorem foldl_addSection {fields : List FieldRef} {ids : List String} (hids : ids.Nodup) :
    ∃ ids', ids'.Nodup ∧
      fields.foldl addSection (ids, .ok (formOf ids [])) = (ids', .ok (formOf ids' [])) := by
  induction fields generalizing ids with
  | nil => exact ⟨ids, hids, rfl⟩
  | cons field rest ih =>
    rw [List.foldl_cons, addSection]
    split
    · next hnew =>
      rw [sectionInto_formOf]
      refine ih (List.nodup_append.mpr ⟨hids, List.nodup_singleton _, ?_⟩)
      rintro x hx y hy rfl
      rw [List.mem_singleton.mp hy] at hx
      simp [hx] at hnew
    · exact ih hids

/-- What the loop over the fields writes: a mask, or the form of the field's members. -/
def Implied (nested : SchemaRef → Except ValueError Value) (schema : SchemaRef) (e : Entry) : Prop :=
  ∃ field ∈ schema.fields, field.key = e.1 ∧
    (e.2 = .map [(Vocab.WIDGET, .string Vocab.PASSWORD)] ∨
      ∃ members inner, (memberSchema field).bind SchemaRef.new = some members ∧
        nested members = .ok inner ∧ e.2 = .map [(Vocab.FORM, inner)])

theorem addFields_spec {nested : SchemaRef → Except ValueError Value} {schema : SchemaRef}
    {fields : List FieldRef} (hfields : ∀ f ∈ fields, f ∈ schema.fields) {ids : List String}
    {hints : List Entry} (hhints : ∀ e ∈ hints, Implied nested schema e) {form : Built}
    (h : addFields nested (.ok (formOf ids hints)) fields = .ok form) :
    ∃ hints', form = .ok (formOf ids hints') ∧ ∀ e ∈ hints', Implied nested schema e := by
  induction fields generalizing hints with
  | nil =>
    cases h
    exact ⟨hints, rfl, hhints⟩
  | cons field rest ih =>
    have hrest : ∀ f ∈ rest, f ∈ schema.fields := fun f hf => hfields f (List.mem_cons_of_mem _ hf)
    have hfield := hfields field List.mem_cons_self
    have hset : ∀ v, Implied nested schema (field.key, v) →
        ∀ e ∈ AssocList.set field.key v hints, Implied nested schema e := by
      intro v hv e he
      rcases AssocList.mem_set he with rfl | he
      · exact hv
      · exact hhints e he
    rw [addFields] at h
    split at h
    · rw [fieldInto_formOf] at h
      exact ih hrest (hset _ ⟨field, hfield, rfl, .inl rfl⟩) h
    · split at h
      · exact ih hrest hhints h
      · next members hmembers =>
        split at h
        · cases h
        · next inner hinner =>
          split at h
          · exact ih hrest hhints h
          · rw [fieldInto_formOf] at h
            exact ih hrest
              (hset _ ⟨field, hfield, rfl, .inr ⟨members, inner, hmembers, hinner, rfl⟩⟩) h

theorem build_spec {left : ℕ} {schema : SchemaRef} {form : Value}
    (h : build (left + 1) schema = .ok form) :
    ∃ ids hints, ids.Nodup ∧ form = .map (formOf ids hints) ∧
      ∀ e ∈ hints, Implied (build left) schema e := by
  obtain ⟨ids, hids, hsections⟩ := @foldl_addSection schema.fields [] List.nodup_nil
  have hempty : formOf [] [] = [] := rfl
  rw [hempty] at hsections
  rw [build, hsections] at h
  cases hadded : addFields (build left) (.ok (formOf ids [])) schema.fields with
  | error e => rw [hadded] at h; cases h
  | ok added =>
    obtain ⟨hints, rfl, hhints⟩ := addFields_spec (fun f hf => hf)
      (fun e he => absurd he List.not_mem_nil) hadded
    rw [hadded] at h
    cases h
    exact ⟨ids, hints, hids, rfl, hhints⟩

section Fits

variable {doubles : Doubles} {engine : Engine}

variable {ids : List String} {schema : SchemaRef} {left : ℕ}

theorem sectionsFrom_ok {seen : List String} (i : ℕ) (hnodup : (seen ++ ids).Nodup) :
    sectionsFrom i seen (ids.map fun id => .map [(Vocab.ID, .string id)]) = .ok () := by
  induction ids generalizing i seen with
  | nil => rfl
  | cons id rest ih =>
    have hnew : id ∉ seen := fun hmem =>
      (List.nodup_append.mp hnodup).2.2 id hmem id List.mem_cons_self rfl
    have hnodup' : ((seen ++ [id]) ++ rest).Nodup := by rwa [List.append_assoc]
    have hrest := ih (i + 1) hnodup'
    show (if id ∈ seen then _ else sectionsFrom (i + 1) (seen ++ [id]) _) = .ok ()
    rw [if_neg hnew, hrest]

theorem checkSections_formOf (hids : ids.Nodup) (hints : List Entry)
    (hmap : isMap (.map (formOf ids hints)) = true) :
    checkSections ⟨.map (formOf ids hints), hmap⟩ = .ok () := by
  cases ids with
  | nil => cases hints <;> rfl
  | cons id rest =>
    have hnodup : ([] ++ id :: rest).Nodup := hids
    exact sectionsFrom_ok 0 hnodup

theorem entries_formOf (ids : List String) (hints : List Entry)
    (hmap : isMap (.map (formOf ids hints)) = true) :
    FormRef.entries ⟨.map (formOf ids hints), hmap⟩ = hints := by
  cases ids <;> cases hints <;> rfl

theorem checkFields_formOf {hints : List Entry} {sub : SchemaRef → FormRef → Fit}
    (hhints : ∀ e ∈ hints, checkHints doubles engine sub schema e = .ok ())
    (hmap : isMap (.map (formOf ids hints)) = true) :
    checkFields doubles engine sub schema ⟨.map (formOf ids hints), hmap⟩ = .ok () := by
  cases hints with
  | nil => cases ids <;> rfl
  | cons e rest => cases ids <;> exact eachFits_iff.mpr hhints

theorem distinct_memberSchema {field : FieldRef} {members : SchemaRef} (h : field.schema.Distinct)
    (hmembers : (memberSchema field).bind SchemaRef.new = some members) :
    members.value.Distinct := by
  obtain ⟨owner, howner, hnew⟩ := Option.bind_eq_some_iff.mp hmembers
  have hvalue : members.value = owner := by
    rw [SchemaRef.new] at hnew
    split at hnew
    · cases hnew
      rfl
    · cases hnew
  have hkind := everywhere_kind h
  rw [hvalue]
  rw [memberSchema, FieldRef.kind] at howner
  split at howner
  · next object hkindeq =>
    cases howner
    rw [hkindeq] at hkind
    exact hkind
  · next items hkindeq =>
    split at howner
    · cases howner
      rw [hkindeq] at hkind
      exact hkind
    · cases howner
  · exact Value.Everywhere.get h (Option.filter_eq_some_iff.mp howner).1
  · cases howner

theorem checkHints_implied (hschema : schema.value.Distinct)
    (hbelow : ∀ (members : SchemaRef) inner, members.value.Distinct →
      build left members = .ok inner →
        ∃ form, FormRef.new inner = some form ∧ checkAt doubles engine left members form = .ok ())
    {e : Entry} (h : Implied (build left) schema e) :
    checkHints doubles engine (checkAt doubles engine left) schema e = .ok () := by
  obtain ⟨path, hints⟩ := e
  obtain ⟨field, hmem, rfl, hhints⟩ := h
  have hresolve : resolve schema field.key.toList = some field := by
    rw [resolve, String.ofList_toList, find_of_mem hschema hmem]
  rw [checkHints, hresolve]
  rcases hhints with rfl | ⟨members, inner, hmembers, hinner, rfl⟩
  · rfl
  · have hdistinct := distinct_memberSchema (everywhere_fieldsOf hschema hmem) hmembers
    obtain ⟨form, hform, hfits⟩ := hbelow members inner hdistinct hinner
    obtain ⟨owner, howner, hnew⟩ := Option.bind_eq_some_iff.mp hmembers
    show checkSubForm _ schema field.key inner (fieldAt field.key) = .ok ()
    simp only [checkSubForm, hresolve, howner, hnew, hform, hfits]

theorem findCycle_implied {form : FormRef}
    (h : ∀ e ∈ form.entries, Implied (build left) schema e) : findCycle schema form = none := by
  have hlinks : conditionLinks schema form = [] := by
    rw [conditionLinks, FormRef.fields, List.filterMap_map, List.filterMap_eq_nil_iff]
    rintro ⟨path, hints⟩ he
    obtain ⟨field, -, -, hhints⟩ := h _ he
    rcases hhints with rfl | ⟨members, inner, -, -, rfl⟩ <;> rfl
  rw [findCycle, hlinks, ← Option.not_isSome_iff_eq_none,
    firstReturn_isSome_iff fun _ hx => absurd hx List.not_mem_nil]
  rintro ⟨start, -, hreturns⟩
  exact Bool.false_ne_true hreturns.next_isSome

theorem build_fits (hschema : schema.value.Distinct) {form : Value} (h : build left schema = .ok form) :
    ∃ f, FormRef.new form = some f ∧ checkAt doubles engine left schema f = .ok () := by
  induction left generalizing schema form with
  | zero => cases h
  | succ left ih =>
    obtain ⟨ids, hints, hids, rfl, hhints⟩ := build_spec h
    have hmap : isMap (.map (formOf ids hints)) = true := rfl
    have hchecked : ∀ e ∈ hints,
        checkHints doubles engine (checkAt doubles engine left) schema e = .ok () := fun e he =>
      checkHints_implied hschema (fun members inner hdistinct hinner => ih hdistinct hinner)
        (hhints e he)
    refine ⟨⟨.map (formOf ids hints), hmap⟩, dif_pos hmap, ?_⟩
    rw [checkAt, fit_seq, fit_seq]
    refine ⟨checkSections_formOf hids hints hmap, ?_, ?_⟩
    · exact checkFields_formOf hchecked hmap
    · have hentries : ∀ e ∈ FormRef.entries ⟨.map (formOf ids hints), hmap⟩,
          Implied (build left) schema e := by rwa [entries_formOf]
      rw [findCycle_implied hentries]
      rfl

end Fits

/-- The form a schema implies fits that schema. -/
theorem forSchema_fits (doubles : Doubles) (engine : Engine) (schema : SchemaRef)
    (hschema : schema.value.Distinct) (form : Value) (h : forSchema schema = .ok form) :
    ∃ f, FormRef.new form = some f ∧ check doubles engine schema f = .ok () :=
  build_fits hschema h

/-- A schema with a section, a secret typed as text and a nested object. -/
def loginForm : SchemaRef :=
  ⟨.map [("properties", .map [
    ("a.b", .map [("type", .string "string"), ("writeOnly", .bool true), ("x-section", .string "net")]),
    ("tls", .map [("type", .string "object"), ("properties", .map [
      ("ca", .map [("type", .string "string"), ("x-section", .string "files")])])])])], rfl⟩

theorem forSchema_fits_login : ∃ form, forSchema loginForm = .ok form ∧
    ∃ f, FormRef.new form = some f ∧ check roundedDoubles (fun _ => none) loginForm f = .ok () :=
  ⟨.map [("sections", .list [.map [("id", .string "net")]]), ("fields", .map [
      ("a.b", .map [("widget", .string "password")]),
      ("tls", .map [("form", .map [("sections", .list [.map [("id", .string "files")]])])])])],
    by rfl, forSchema_fits roundedDoubles (fun _ => none) loginForm (by decide) _ (by rfl)⟩

end Guatiao.Intake
