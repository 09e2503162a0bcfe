import Guatiao.Schema.Accepts
import Guatiao.Schema.SameJson

/-!
# The root of a document, and the same value one level down

A map of values is checked by a driver of its own at the root of a document, and by the walk
where it is a field's value. The root reads the fields of the schema as it stands, checks each one
level higher than the walk, and reads neither `not` nor `propertyNames`; it also reads the fields
of a schema whose kind the walk does not know. Where none of this tells, the two agree.
-/

namespace Guatiao.Schema

open Lib

section Root

variable (doubles : Doubles) (engine : Engine)

/-- Whether an entry of a map fits the field it is found in, or what is said of undeclared keys. -/
def entryFits (left : ℕ) (find : String → Option FieldRef) (owner : Value) (e : Entry) : Bool :=
  match find e.1 with
  | some f => (valueAgainst doubles engine left f.schema e.1 e.2).isOk
  | none => (undeclared (valueAgainst doubles engine (maxDepth - 1)) owner e.1 e.2 "").isOk

/-- Whether the entries of a map fit what an owner declares, and every required field is there. -/
def fits (left : ℕ) (find : String → Option FieldRef) (owner : Value) (entries : List Entry) :
    Bool :=
  entries.all (entryFits doubles engine left find owner) &&
    (fieldsOf owner).all fun f => !f.required || AssocList.contains f.key entries

/-- Whether the entries fit a schema as its root reads it: as it stands, a level higher. -/
def fitsRoot (schema : SchemaRef) (entries : List Entry) : Bool :=
  fits doubles engine maxDepth schema.find schema.value entries

/-- Whether the entries fit an object as the walk reads it. -/
def fitsObject (owner : Value) (entries : List Entry) : Bool :=
  fits doubles engine (maxDepth - 1) (fun key => (fieldsOf owner).find? fun f => f.key == key) owner
    entries

/-- Whether a value is one its schema must not describe. -/
def isExcluded (schema value : Value) : Bool :=
  (excluded schema).any fun e => (valueAgainst doubles engine (maxDepth - 1) e "" value).isOk

/-- Whether every key is one the schema of the keys takes. -/
def namesFit (owner : Value) (entries : List Entry) : Bool :=
  (namesAgainst (against doubles engine (maxDepth - 1)) owner "" entries).isOk

variable {doubles engine}

theorem agreeOn_self (left : ℕ) (schema : Value) :
    AgreeOn (valueAgainst doubles engine left) (valueAgainst doubles engine left) schema :=
  fun key key' value => isOk_valueAgainst (.inl rfl) key key' value

theorem agreeOn_text (left : ℕ) (schema : Value) :
    AgreeOn (against doubles engine left) (against doubles engine left) schema :=
  fun key key' text => isOk_against (.inl rfl) key key' text

theorem isOk_required (f : FieldRef) (key wanted : String) (entries : List Entry) :
    (if f.required && !AssocList.contains f.key entries then bad key wanted else .ok ()).isOk =
      (!f.required || AssocList.contains f.key entries) := by
  cases f.required <;> cases hcontains : AssocList.contains f.key entries <;> rfl

theorem isOk_validateMap {schema : SchemaRef}
    (hkind : (Kind.read (some schema.value)).isDocument = true) (entries : List Entry) :
    (validateMap doubles engine schema (.map entries)).isOk =
      fitsRoot doubles engine schema entries := by
  have hentry : ∀ e ∈ entries, (entryAgainst doubles engine schema e).isOk =
      entryFits doubles engine maxDepth schema.find schema.value e := by
    intro e _
    unfold entryAgainst entryFits undeclared
    cases schema.find e.1 with
    | some f => exact isOk_valueAgainst (.inl rfl) f.key e.1 e.2
    | none => cases undeclaredRule schema.value <;> rfl
  simp only [validateMap, hkind, Bool.not_true, Bool.false_eq_true, if_false, Value.asMap, isOk_bind,
    isOk_checkAll, all_congr_mem hentry, isOk_required]
  rfl

theorem isOk_object (owner : Value) (key : String) (refusal : String → String) (wanted : String)
    (entries : List Entry) :
    ((eachDeclared (valueAgainst doubles engine (maxDepth - 1)) (fieldsOf owner) owner key refusal
        entries).isOk &&
      (eachRequired (fieldsOf owner) key wanted entries).isOk) =
      fitsObject doubles engine owner entries := by
  have hentry : ∀ e ∈ entries,
      (entryUnder (valueAgainst doubles engine (maxDepth - 1)) (fieldsOf owner) owner key refusal
        e).isOk =
      entryFits doubles engine (maxDepth - 1)
        (fun key => (fieldsOf owner).find? fun f => f.key == key) owner e := by
    intro e _
    simp only [entryUnder, entryFits]
    cases (fieldsOf owner).find? fun f => f.key == e.1 with
    | some field => exact agreeOn_self ..
    | none => exact isOk_undeclared (fun s _ => agreeOn_self (maxDepth - 1) s) ..
  rw [eachDeclared, eachRequired, isOk_checkAll, isOk_checkAll]
  simp only [isOk_required]
  rw [fitsObject, fits]
  congr 1
  exact all_congr_mem hentry

theorem isExcluded_walk (schema value : Value) (key : String) :
    ((excluded schema).any fun e => (valueAgainst doubles engine (maxDepth - 1) e key value).isOk) =
      isExcluded doubles engine schema value :=
  any_excluded_congr fun e _ => agreeOn_self (maxDepth - 1) e key "" value

/-- The walk takes the maps its `not` leaves, that fit the object once its wrappers are off. -/
theorem isOk_validateValue_map {field : FieldRef} {owner : Value} (hkind : field.kind = .map owner)
    (entries : List Entry) :
    (validateValue doubles engine field (.map entries)).isOk =
      (!isExcluded doubles engine field.schema (.map entries) &&
        (namesFit doubles engine owner entries && fitsObject doubles engine owner entries)) := by
  have hkind' : Kind.read (some field.schema) = .map owner := hkind
  have hnames : (namesAgainst (against doubles engine (maxDepth - 1)) owner field.key entries).isOk =
      namesFit doubles engine owner entries :=
    isOk_namesAgainst (fun s _ => agreeOn_text (maxDepth - 1) s) ..
  unfold validateValue
  rw [show maxDepth = maxDepth - 1 + 1 from rfl, isOk_valueAgainst_succ]
  simp only [Value.tag, reduceCtorEq, false_and, if_false, kindAgainst, hkind', Value.asMap, isOk_bind,
    Kind.fields]
  rw [isExcluded_walk, isOk_object, hnames]

theorem isOk_validateValue_unknown {field : FieldRef} {name : String}
    (hkind : field.kind = .unknown name) (entries : List Entry) :
    (validateValue doubles engine field (.map entries)).isOk =
      !isExcluded doubles engine field.schema (.map entries) := by
  have hkind' : Kind.read (some field.schema) = .unknown name := hkind
  unfold validateValue
  rw [show maxDepth = maxDepth - 1 + 1 from rfl, isOk_valueAgainst_succ]
  simp only [Value.tag, reduceCtorEq, false_and, if_false, kindAgainst, hkind', isOk_ok, Bool.and_true]
  exact congrArg not (isExcluded_walk ..)

theorem find_eq {schema : SchemaRef} (hdistinct : schema.value.Distinct) (key : String) :
    schema.find key = (fieldsOf schema.value).find? fun f => f.key == key := by
  have hnodup := nodup_propertiesOf hdistinct
  unfold SchemaRef.find fieldsOf
  generalize propertiesOf schema.value = properties at hnodup ⊢
  induction properties with
  | nil => rfl
  | cons e rest ih =>
    obtain ⟨hnot, hrest⟩ := List.nodup_cons.mp hnodup
    rw [List.find?_cons, List.filterMap_cons]
    cases hschema : isSchema e.2 with
    | false =>
      cases hkey : e.1 == key with
      | false => simpa [hschema] using ih hrest
      | true =>
        have hnone : (rest.find? fun e => e.1 == key) = none := by
          rw [List.find?_eq_none]
          intro x hx heq
          refine hnot (List.mem_map.mpr ⟨x, hx, ?_⟩)
          rw [beq_iff_eq.mp heq, beq_iff_eq.mp hkey]
        have hsame := ih hrest
        rw [hnone] at hsame
        simpa [hschema] using hsame
    | true =>
      cases hkey : e.1 == key with
      | false => simpa [hschema, hkey] using ih hrest
      | true => simp [hschema, hkey]

/-- A schema the root reads as the walk does: an object that declares as it stands what it does
inside its wrappers, nested no deeper than is followed; or a kind that is known, or says nothing of
its entries. -/
def RootAlike (schema : Value) : Prop :=
  match Kind.read (some schema) with
  | .map owner => fieldsOf schema = fieldsOf owner ∧
      undeclaredRule schema = undeclaredRule owner ∧ schema.depth ≤ maxDepth
  | .unknown _ => fieldsOf schema = [] ∧ undeclaredRule schema = .accepted
  | _ => True

variable (doubles engine)

/-- What the walk alone reads takes a map: it is not what the `not` of its schema describes, and the
keys of an object are ones its `propertyNames` takes. -/
def Admitted (schema : Value) (entries : List Entry) : Prop :=
  match Kind.read (some schema) with
  | .map owner => isExcluded doubles engine schema (.map entries) = false ∧
      namesFit doubles engine owner entries = true
  | .unknown _ => isExcluded doubles engine schema (.map entries) = false
  | _ => True

variable {doubles engine}

theorem fitsRoot_eq {schema : SchemaRef} {owner : Value} (hdistinct : schema.value.Distinct)
    (hfields : fieldsOf schema.value = fieldsOf owner)
    (hrule : undeclaredRule schema.value = undeclaredRule owner)
    (hdepth : schema.value.depth ≤ maxDepth) (entries : List Entry) :
    fitsRoot doubles engine schema entries = fitsObject doubles engine owner entries := by
  have hentry : ∀ e ∈ entries, entryFits doubles engine maxDepth schema.find schema.value e =
      entryFits doubles engine (maxDepth - 1)
        (fun key => (fieldsOf owner).find? fun f => f.key == key) owner e := by
    intro e _
    simp only [entryFits, find_eq hdistinct, hfields]
    cases hfind : (fieldsOf owner).find? fun f => f.key == e.1 with
    | none => simp only [undeclared, hrule]
    | some field =>
      have hfield := depth_field (hfields ▸ List.mem_of_find?_eq_some hfind)
      exact isOk_valueAgainst (.inr ⟨by omega, by omega⟩) e.1 e.1 e.2
  rw [fitsRoot, fitsObject, fits, fits, all_congr_mem hentry, hfields]

variable (doubles engine) in
/-- The root of a document accepts a map exactly if the walk does under a field of its schema. -/
def Agree (schema : SchemaRef) (key : String) (required : Bool) (entries : List Entry) : Prop :=
  (validateMap doubles engine schema (.map entries)).isOk =
    (validateValue doubles engine ⟨key, schema.value, required⟩ (.map entries)).isOk

theorem admitted_of_none {schema : Value} (hnot : excluded schema = none)
    (hnames : (peel schema).get Vocab.propertyNames = none) (entries : List Entry) :
    Admitted doubles engine schema entries := by
  have hexcluded : isExcluded doubles engine schema (.map entries) = false := by
    rw [isExcluded, hnot]
    rfl
  have hfrom := kind_from schema
  unfold Admitted
  cases hkind : Kind.read (some schema) with
  | map owner =>
    rw [hkind] at hfrom
    obtain rfl : owner = peel schema := hfrom
    refine ⟨hexcluded, ?_⟩
    rw [namesFit, namesAgainst, hnames]
    rfl
  | unknown name => exact hexcluded
  | _ => trivial

/-- Where the root reads a schema as the walk does, the two part on what it takes against `not` and
`propertyNames` alone; and wherever they agree it takes nothing against these. -/
theorem agree_iff_admitted (schema : SchemaRef) (key : String) (required : Bool)
    (entries : List Entry) (hdistinct : schema.value.Distinct) :
    (RootAlike schema.value → (Agree doubles engine schema key required entries ↔
      ((validateMap doubles engine schema (.map entries)).isOk = true →
        Admitted doubles engine schema.value entries))) ∧
    (Agree doubles engine schema key required entries →
      (validateMap doubles engine schema (.map entries)).isOk = true →
        Admitted doubles engine schema.value entries) := by
  have hschema : isSchema schema.value = true := by simp [isSchema, schema.map]
  unfold RootAlike Admitted Agree
  cases hkind : Kind.read (some schema.value) with
  | map owner =>
    have hdocument : (Kind.read (some schema.value)).isDocument = true := by rw [hkind]; rfl
    rw [isOk_validateMap hdocument, @isOk_validateValue_map _ _ ⟨key, schema.value, required⟩ _ hkind]
    constructor
    · rintro ⟨hfields, hrule, hdepth⟩
      rw [fitsRoot_eq hdistinct hfields hrule hdepth]
      cases fitsObject doubles engine owner entries <;> simp
    · intro hagree hroot
      rw [hagree] at hroot
      simp only [Bool.and_eq_true, Bool.not_eq_true'] at hroot
      exact ⟨hroot.1, hroot.2.1⟩
  | unknown name =>
    have hdocument : (Kind.read (some schema.value)).isDocument = true := by rw [hkind]; rfl
    rw [isOk_validateMap hdocument,
      @isOk_validateValue_unknown _ _ ⟨key, schema.value, required⟩ _ hkind]
    constructor
    · rintro ⟨hfields, hrule⟩
      have hroot : fitsRoot doubles engine schema entries = true := by
        simp [fitsRoot, fits, entryFits, find_eq hdistinct, hfields, undeclared, hrule]
      simp [hroot]
    · intro hagree hroot
      rw [hagree] at hroot
      simpa using hroot
  | missing => exact absurd hkind (kind_ne_missing hschema)
  | _ =>
    -- The root is checked as the value it describes, which is what the walk checks.
    have hdocument : (Kind.read (some schema.value)).isDocument = false := by rw [hkind]; rfl
    have hsame : (validateMap doubles engine schema (.map entries)).isOk =
        (validateValue doubles engine ⟨key, schema.value, required⟩ (.map entries)).isOk := by
      simp only [validateMap, hdocument, Bool.not_false, if_true]
      apply agreeOn_self
    exact ⟨fun _ => ⟨fun _ _ => trivial, fun _ => hsame⟩, fun _ _ => trivial⟩

/-- The root of a document and the walk under a field agree on every map where the root reads the
schema as the walk does, and there is neither `not` nor `propertyNames`. With these, they agree on a
map exactly if the root does not take it against them; and no agreement does without that, however
the root reads the schema. -/
theorem validateMap_agrees_iff (schema : SchemaRef) (key : String) (required : Bool)
    (entries : List Entry) (hdistinct : schema.value.Distinct) :
    (RootAlike schema.value → excluded schema.value = none →
      (peel schema.value).get Vocab.propertyNames = none →
      Agree doubles engine schema key required entries) ∧
    (RootAlike schema.value → (Agree doubles engine schema key required entries ↔
      ((validateMap doubles engine schema (.map entries)).isOk = true →
        Admitted doubles engine schema.value entries))) ∧
    (Agree doubles engine schema key required entries →
      (validateMap doubles engine schema (.map entries)).isOk = true →
        Admitted doubles engine schema.value entries) := by
  obtain ⟨halike, hkept⟩ := @agree_iff_admitted doubles engine schema key required entries hdistinct
  refine ⟨fun hroot hnot hnames => (halike hroot).mpr fun _ => ?_, halike, hkept⟩
  exact admitted_of_none hnot hnames entries

end Root

/-- An object that must not say it is encrypted. -/
private def portSchema : Value :=
  .map [("type", .string "object"), ("properties", .map [("port", .map [("type", .string "integer")])]),
    ("not", .map [("type", .string "object"), ("required", .list [.string "tls"]),
      ("properties", .map [("tls", .map [("type", .string "boolean")])])])]

/-- A port is taken on both levels, and is not what `not` describes. -/
theorem validateMap_agrees_port :
    Agree roundedDoubles (fun _ => none) ⟨portSchema, rfl⟩ "listen" false
      [("port", .number ⟨"80", by decide⟩)] := by
  refine ((validateMap_agrees_iff ⟨portSchema, rfl⟩ "listen" false _ ?_).2.1 ?_).mpr fun _ => ?_
  · decide
  · exact ⟨rfl, rfl, by decide⟩
  · exact ⟨rfl, rfl⟩

/-- A description around an object: what a generator writes for one it refers to. -/
private def wrappedSchema : Value :=
  .map [("description", .string "Where to listen."),
    ("allOf", .list [.map [("type", .string "object"),
      ("properties", .map [("port", .map [("type", .string "integer")])]),
      ("required", .list [.string "port"]), ("additionalProperties", .bool false)]])]

/-- The root of a wrapped object declares nothing, and takes what the object refuses. -/
theorem validateMap_parts : ∃ (schema : SchemaRef) (values : Value), isMap values = true ∧
    ∀ doubles engine key required,
      (validateMap doubles engine schema values).isOk = true ∧
        (validateValue doubles engine ⟨key, schema.value, required⟩ values).isOk = false := by
  refine ⟨⟨wrappedSchema, rfl⟩, .map [("prot", .string "eighty")], rfl, ?_⟩
  intro doubles engine key required
  constructor
  · rfl
  · rfl

end Guatiao.Schema
