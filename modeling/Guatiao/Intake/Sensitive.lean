import Guatiao.Intake.Resolved

/-!
# Secrets by their keys

A key is a secret's when the field it names is marked, and it is read against the schema alone. So
it is read as the name of a field first, and then through an arm of a variant that may not be the one
a value selects, and past the values of an open map that are declared inside a wrapper. A stored
secret is told by its key where the schema alone goes along with the value, or comes to a marked field
even so.
-/

namespace Guatiao.Intake

open Lib Schema

/-- A segment names a field below another, by the schema alone: a declared member, a member of the
first arm that declares one so named, an element, or a value of an open map declared in the field's
own schema. -/
inductive Enters : FieldRef → Segment → FieldRef → Prop
  | member {f g : FieldRef} {segment : Segment} {owner : Value} (hkind : f.kind = .map owner)
      (hfield : g ∈ fieldsOf owner) (hname : g.key.toList = nameOf segment) : Enters f segment g
  | armMember {f g : FieldRef} {segment : Segment} {tag : String} {arms : Value}
      {before after : List ArmRef} {arm : ArmRef} (hkind : f.kind = .variant tag arms)
      (harms : f.kind.arms = before ++ arm :: after)
      (hbefore : ∀ a ∈ before, ∀ h ∈ a.fields, h.key.toList ≠ nameOf segment)
      (hfield : g ∈ arm.fields) (hname : g.key.toList = nameOf segment) : Enters f segment g
  | item {f : FieldRef} {items : Value} (hkind : f.kind = .list items)
      (hschema : isSchema items = true) (at_ : ℕ) : Enters f (.index at_) ⟨"", items, false⟩
  | position {f : FieldRef} {owner position : Value} {at_ : ℕ} (hkind : f.kind = .tuple owner)
      (hposition : (listUnder Vocab.prefixItems owner)[at_]? = some position)
      (hschema : isSchema position = true) : Enters f (.index at_) ⟨"", position, false⟩
  | value {f : FieldRef} {owner values : Value} (hkind : f.kind = .mapOf owner)
      (hvalues : f.schema.get Vocab.additionalProperties = some values)
      (hschema : isSchema values = true) (segment : Segment) : Enters f segment ⟨"", values, false⟩

/-- Segments name a field below another, one step after the other. -/
inductive Names : FieldRef → List Segment → FieldRef → Prop
  | here (f : FieldRef) : Names f [] f
  | behind {f g h : FieldRef} {segment : Segment} {rest : List Segment} (henters : Enters f segment g)
      (hrest : Names g rest h) : Names f (segment :: rest) h

/-- Whether the schema alone leads from a field to the next one a value led to: of a variant's arms the
first that declares a member so named declares that one, and an open map declares its values in its
own schema. -/
def leadsTo (f : FieldRef) (segment : Segment) (g : FieldRef) : Bool :=
  match f.kind with
  | .variant _ _ => f.kind.arms.findSome? (fun arm => fieldNamed segment arm.fields) == some g
  | _ => inPlace f

/-- Whether the schema alone leads along all the fields a value led to. -/
def along : FieldRef → List (Segment × FieldRef) → Bool
  | _, [] => true
  | f, (segment, g) :: rest => leadsTo f segment g && along g rest

/-- The schema alone comes to a marked field where a value led to one: it goes along with the value; or
where it first turns off, what is left of the segments names a marked field from there. -/
def Comes : FieldRef → List (Segment × FieldRef) → Prop
  | _, [] => True
  | f, (segment, g) :: rest =>
    if leadsTo f segment g then Comes g rest
    else ∃ turned h, Enters f segment turned ∧ Names turned (rest.map Prod.fst) h ∧ h.isSensitive = true

/-- The fields a value led to, each with the segment it was led by. -/
def Leaf.steps (leaf : Leaf) : List (Segment × FieldRef) :=
  leaf.segments.zip (leaf.above.tail ++ [leaf.field])

/-- The key of a secret's leaf tells it: a field that has the whole key for its name is marked, and
where there is none the schema alone comes to a marked field. -/
def Kept (schema : SchemaRef) (field : FieldRef) (leaf : Leaf) : Prop :=
  match schema.find (.ofList (rootPath field.key.toList ++ render leaf.segments)) with
  | some direct => direct.isSensitive = true
  | none => Comes field leaf.steps

variable {segment : Segment} {f g field : FieldRef} {value : Value} {leaf : Leaf} {left : ℕ}

theorem fieldNamed_eq_some {fields : List FieldRef} (h : (fields.map FieldRef.key).Nodup)
    :
    fieldNamed segment fields = some f ↔ f ∈ fields ∧ f.key.toList = nameOf segment := by
  constructor
  · intro hnamed
    exact ⟨List.mem_of_find?_eq_some hnamed, by simpa using List.find?_some hnamed⟩
  · rintro ⟨hf, hname⟩
    have hfound := fieldNamed_of_mem h hf
    unfold fieldNamed at hfound ⊢
    rw [nameOf_segmentOf] at hfound
    rw [← hname, hfound]

theorem fieldNamed_eq_none {fields : List FieldRef} :
    fieldNamed segment fields = none ↔ ∀ f ∈ fields, f.key.toList ≠ nameOf segment := by
  simp [fieldNamed]

theorem position_eq (owner : Value) (at_ : ℕ) :
    ((positionsOf owner).bind fun list => list[at_]?) = (listUnder Vocab.prefixItems owner)[at_]? := by
  unfold positionsOf listUnder
  cases (owner.get Vocab.prefixItems).bind Value.asList <;> rfl

theorem new_eq_some {schema : Value} :
    FieldRef.new "" schema = some g ↔ isSchema schema = true ∧ g = ⟨"", schema, false⟩ := by
  unfold FieldRef.new
  split
  · next h => simp [h, eq_comm]
  · next h => simp [h]

/-- A step into a field is made exactly where the segment names a field below it. -/
theorem into_eq_some (hdistinct : f.schema.Distinct) :
    into f segment = some g ↔ Enters f segment g := by
  have hkind : f.kind.Everywhere _ := everywhere_kind hdistinct
  have harmFields : ∀ arm ∈ f.kind.arms, (arm.fields.map FieldRef.key).Nodup := by
    intro arm harm
    exact (nodup_fieldsOf (everywhere_arm hkind harm)).sublist (List.filter_sublist.map _)
  constructor
  · intro h
    unfold into at h
    cases hk : f.kind with
    | map owner =>
      rw [hk] at h hkind
      obtain ⟨hfield, hname⟩ := (fieldNamed_eq_some (nodup_fieldsOf hkind)).mp h
      exact .member hk hfield hname
    | variant tag arms =>
      simp only [hk] at h
      obtain ⟨before, arm, after, harms, hnamed, hbefore⟩ := List.findSome?_eq_some_iff.mp h
      have harm : arm ∈ f.kind.arms := by
        rw [hk, harms]
        simp
      obtain ⟨hfield, hname⟩ := (fieldNamed_eq_some (harmFields arm harm)).mp hnamed
      exact .armMember hk (hk ▸ harms) (fun a ha => fieldNamed_eq_none.mp (hbefore a ha)) hfield hname
    | list items =>
      simp only [hk] at h
      cases segment with
      | index at_ =>
        obtain ⟨hschema, rfl⟩ := new_eq_some.mp h
        exact .item hk hschema at_
      | _ => cases h
    | mapOf owner =>
      simp only [hk] at h
      obtain ⟨values, hvalues, hnew⟩ := Option.bind_eq_some_iff.mp h
      obtain ⟨hschema, rfl⟩ := new_eq_some.mp hnew
      exact .value hk hvalues hschema segment
    | tuple owner =>
      simp only [hk] at h
      cases segment with
      | index at_ =>
        simp only [position_eq] at h
        obtain ⟨position, hposition, hnew⟩ := Option.bind_eq_some_iff.mp h
        obtain ⟨hschema, rfl⟩ := new_eq_some.mp hnew
        exact .position hk hposition hschema
      | _ => cases h
    | _ =>
      simp only [hk] at h
      cases h
  · intro h
    cases h with
    | member hk hfield hname =>
      rw [hk] at hkind
      simp only [into, hk]
      exact (fieldNamed_eq_some (nodup_fieldsOf hkind)).mpr ⟨hfield, hname⟩
    | @armMember _ _ tag arms before after arm hk harms hbefore hfield hname =>
      have harm : arm ∈ f.kind.arms := by
        rw [harms]
        simp
      have hnamed := (fieldNamed_eq_some (harmFields arm harm)).mpr ⟨hfield, hname⟩
      have hfound : f.kind.arms.findSome? (fun arm => fieldNamed segment arm.fields) = some g := by
        apply List.findSome?_eq_some_iff.mpr
        exact ⟨before, arm, after, harms, hnamed, fun a ha => fieldNamed_eq_none.mpr (hbefore a ha)⟩
      simp only [into, hk] at hfound ⊢
      exact hfound
    | item hk hschema at_ => simp only [into, hk, FieldRef.new, if_pos hschema]
    | position hk hposition hschema =>
      simp only [into, hk, position_eq, hposition, Option.bind_some, FieldRef.new, if_pos hschema]
    | value hk hvalues hschema segment =>
      simp only [into, hk, valuesOf, hvalues, Option.bind_some, FieldRef.new, if_pos hschema]

theorem Enters.distinct (h : Enters f segment g) (hdistinct : f.schema.Distinct) : g.schema.Distinct := by
  have hkind : f.kind.Everywhere _ := everywhere_kind hdistinct
  cases h with
  | member hk hfield hname =>
    rw [hk] at hkind
    exact everywhere_fieldsOf hkind hfield
  | @armMember _ _ tag arms before after arm hk harms hbefore hfield hname =>
    have harm : arm ∈ f.kind.arms := by
      rw [harms]
      simp
    exact everywhere_armFields hkind harm hfield
  | item hk hschema at_ =>
    rw [hk] at hkind
    exact hkind
  | position hk hposition hschema =>
    rw [hk] at hkind
    exact everywhere_of_under hkind (List.mem_of_getElem? hposition)
  | value hk hvalues hschema segment => exact Value.Everywhere.get hdistinct hvalues

theorem walkFrom_eq_some {segments : List Segment} (hdistinct : f.schema.Distinct)
    (at_ : ℕ) : walkFrom f (placed at_ segments) = some g ↔ Names f segments g := by
  induction segments generalizing f at_ with
  | nil =>
    simp only [placed, walkFrom, Option.some.injEq]
    constructor
    · rintro rfl
      exact .here f
    · intro h
      cases h
      rfl
  | cons segment rest ih =>
    simp only [placed, walkFrom]
    constructor
    · intro h
      obtain ⟨next, hinto, hwalk⟩ := Option.bind_eq_some_iff.mp h
      have henters := (into_eq_some hdistinct).mp hinto
      exact .behind henters ((ih (henters.distinct hdistinct) _).mp hwalk)
    · intro h
      cases h with
      | behind henters hrest =>
        apply Option.bind_eq_some_iff.mpr
        exact ⟨_, (into_eq_some hdistinct).mpr henters,
          (ih (henters.distinct hdistinct) _).mpr hrest⟩

/-- The key of a place is a secret's where a field so named is, or else where its segments name one
that is. -/
theorem isSensitive_iff {schema : SchemaRef} (hschema : schema.value.Distinct)
    (hfield : field ∈ schema.fields) {segments : List Segment} (hall : ∀ s ∈ segments, s.Spellable) :
    isSensitive schema (rootPath field.key.toList ++ render segments) = true ↔
      match schema.find (.ofList (rootPath field.key.toList ++ render segments)) with
      | some direct => direct.isSensitive = true
      | none => ∃ g, Names field segments g ∧ g.isSensitive = true := by
  have hread := spelled_rootPath field.key.toList hall
  have hroot : root schema (segmentOf field.key.toList) = some field := by
    rw [root, nameOf_segmentOf, String.ofList_toList]
    exact find_of_mem hschema hfield
  have hdistinct : field.schema.Distinct := everywhere_fieldsOf hschema hfield
  unfold isSensitive resolve
  cases hfind : schema.find (.ofList (rootPath field.key.toList ++ render segments)) with
  | some direct => simp
  | none =>
    simp only [hread, Option.bind_some, List.head?_cons, hroot, List.tail_cons]
    constructor
    · intro h
      cases hwalk : walkFrom field (placed (rootPath field.key.toList).length segments) with
      | none => simp [hwalk] at h
      | some g =>
        refine ⟨g, (walkFrom_eq_some hdistinct _).mp hwalk, ?_⟩
        simpa [hwalk] using h
    · rintro ⟨g, hnames, hsecret⟩
      rw [(walkFrom_eq_some hdistinct _).mpr hnames]
      exact hsecret

theorem isSchema_of_sensitive (h : f.isSensitive = true) : isSchema f.schema = true := by
  unfold FieldRef.isSensitive FieldRef.flag Value.get at h
  cases hmap : f.schema.asMap with
  | none =>
    rw [hmap] at h
    cases h
  | some entries => simp [isSchema, isMap, hmap]

theorem into_of_leadsTo {text : Option Text} {ps : List Part} {p : Part}
    (hdistinct : field.schema.Distinct) (hparts : parts field.kind value = some (text, ps))
    (hp : p ∈ ps) (hschema : isSchema p.field.schema = true)
    (hleads : leadsTo field p.segment p.field = true) : into field p.segment = some p.field := by
  unfold leadsTo at hleads
  cases hk : field.kind with
  | variant tag arms =>
    simp only [hk] at hleads
    simp only [into, hk]
    exact eq_of_beq hleads
  | _ =>
    simp only [hk] at hleads
    refine into_part hdistinct hparts hp hschema hleads ?_
    rw [hk]
    intro tag arms heq
    cases heq

theorem length_above (h : leaf ∈ leaves left field value) :
    leaf.above.length = leaf.segments.length ∧ (leaf.above ++ [leaf.field]).head? = some field := by
  induction left generalizing field value leaf with
  | zero => exact absurd h List.not_mem_nil
  | succ left ih =>
    obtain ⟨text, ps, -, ⟨own, -, rfl⟩ | ⟨p, -, below, hbelow, rfl⟩⟩ := mem_leaves.mp h
    · exact ⟨rfl, rfl⟩
    · exact ⟨congrArg (· + 1) (ih hbelow).1, rfl⟩

theorem steps_behind (h : leaf ∈ leaves left g value) (f : FieldRef) (segment : Segment) :
    (leaf.behind f segment).steps = (segment, g) :: leaf.steps := by
  obtain ⟨hlength, hhead⟩ := length_above h
  unfold Leaf.steps Leaf.behind
  cases habove : leaf.above with
  | nil =>
    rw [habove] at hlength hhead
    cases hhead
    have hnil : leaf.segments = [] := List.length_eq_zero_iff.mp hlength.symm
    simp [hnil]
  | cons first rest =>
    rw [habove] at hhead
    cases hhead
    simp

theorem map_fst_steps (h : leaf ∈ leaves left field value) : leaf.steps.map Prod.fst = leaf.segments := by
  obtain ⟨hlength, -⟩ := length_above h
  refine List.map_fst_zip ?_
  rw [List.length_append, List.length_tail, List.length_singleton]
  omega

theorem names_iff_comes (hdistinct : field.schema.Distinct) (hleaf : leaf ∈ leaves left field value)
    (hsecret : leaf.field.isSensitive = true) :
    (∃ h, Names field leaf.segments h ∧ h.isSensitive = true) ↔ Comes field leaf.steps := by
  induction left generalizing field value leaf with
  | zero => exact absurd hleaf List.not_mem_nil
  | succ left ih =>
    obtain ⟨text, ps, hparts, ⟨own, rfl, rfl⟩ | ⟨p, hp, below, hbelow, rfl⟩⟩ := mem_leaves.mp hleaf
    · exact iff_of_true ⟨field, .here field, hsecret⟩ trivial
    · rw [steps_behind hbelow]
      unfold Comes
      split
      · next hleads =>
        have hinto := into_of_leadsTo hdistinct hparts hp
          (isSchema_of_leaf hbelow (isSchema_of_sensitive hsecret)) hleads
        have henters := (into_eq_some hdistinct).mp hinto
        rw [← ih (henters.distinct hdistinct) hbelow hsecret]
        constructor
        · rintro ⟨h, hnames, hmarked⟩
          cases hnames with
          | behind henters' hrest =>
            have heq := (into_eq_some hdistinct).mpr henters'
            rw [hinto, Option.some.injEq] at heq
            exact ⟨h, heq ▸ hrest, hmarked⟩
        · rintro ⟨h, hnames, hmarked⟩
          exact ⟨h, .behind henters hnames, hmarked⟩
      · rw [map_fst_steps hbelow]
        constructor
        · rintro ⟨h, hnames, hmarked⟩
          cases hnames with
          | behind henters hrest => exact ⟨_, h, henters, hrest, hmarked⟩
        · rintro ⟨turned, h, henters, hrest, hmarked⟩
          exact ⟨h, .behind henters hrest, hmarked⟩

theorem comes_of_along {steps : List (Segment × FieldRef)} (h : along f steps = true) :
    Comes f steps := by
  induction steps generalizing f with
  | nil => trivial
  | cons step rest ih =>
    obtain ⟨hleads, hrest⟩ := Bool.and_eq_true_iff.mp h
    rw [Comes, if_pos hleads]
    exact ih hrest

/-- What is marked is told by its key where no field has the whole key for its name, and the schema
alone goes along with the value. -/
theorem told_leaf {schema : SchemaRef} (hschema : schema.value.Distinct)
    (hfield : field ∈ schema.fields) (hcount : Countable value)
    (hleaf : leaf ∈ leaves maxDepth field value) (hsecret : leaf.field.isSensitive = true)
    (hnone : schema.find (.ofList (rootPath field.key.toList ++ render leaf.segments)) = none)
    (halong : along field leaf.steps = true) :
    isSensitive schema (rootPath field.key.toList ++ render leaf.segments) = true := by
  rw [isSensitive_iff hschema hfield (spellable_of_leaf hcount hleaf), hnone]
  exact (names_iff_comes (everywhere_fieldsOf hschema hfield) hleaf hsecret).mpr (comes_of_along halong)

/-- The leaves of a field's value are what flattening it writes, each under its key; and no key of a
secret is missed exactly where each secret is told by its key. -/
theorem isSensitive_written (schema : SchemaRef) (hschema : schema.value.Distinct) (field : FieldRef)
    (hfield : field ∈ schema.fields) (value : Value) (hvalue : value.Distinct)
    (hcount : Countable value) (store : Store) :
    (∀ key ∈ (flatten field value SortedMap.empty).1.keys, ∃ leaf ∈ leaves maxDepth field value,
      key = rootPath field.key.toList ++ render leaf.segments) ∧
    (∀ leaf ∈ leaves maxDepth field value, (flatten field value store).1.get
      (rootPath field.key.toList ++ render leaf.segments) = some leaf.text) ∧
    ((∀ leaf ∈ leaves maxDepth field value, leaf.field.isSensitive = true →
        isSensitive schema (rootPath field.key.toList ++ render leaf.segments) = true) ↔
      ∀ leaf ∈ leaves maxDepth field value, leaf.field.isSensitive = true →
        Kept schema field leaf) := by
  have hdistinct : field.schema.Distinct := everywhere_fieldsOf hschema hfield
  refine ⟨fun key hkey => leaf_of_written hkey,
    fun leaf hleaf => get_leaf hdistinct hvalue hcount hleaf store, ?_⟩
  refine forall₃_congr fun leaf hleaf hsecret => ?_
  rw [isSensitive_iff hschema hfield (spellable_of_leaf hcount hleaf), Kept]
  split
  · rfl
  · exact names_iff_comes hdistinct hleaf hsecret

/-- An optional open map of secrets. -/
def tokensField : FieldRef :=
  ⟨"tokens", .map [("anyOf", .list [.map [("type", .string "object"),
      ("additionalProperties", .map [("type", .string "string"), ("x-sensitive", .bool true)])],
    .map [("type", .string "null")]])], false⟩

/-- A schema with that one field. -/
def tokensSchema : SchemaRef := ⟨.map [("properties", .map [("tokens", tokensField.schema)])], rfl⟩

set_option maxRecDepth 4000 in
/-- A secret of the map is stored under a key that is told no secret: the schema alone looks for the
map's values outside the wrapper. -/
theorem isSensitive_misses :
    tokensField ∈ tokensSchema.fields ∧
      (flatten tokensField (.map [("ci", .string "x")]) SortedMap.empty).1.entries =
        [("tokens[ci]".toList, "x".toList)] ∧
      (∃ leaf ∈ leaves maxDepth tokensField (.map [("ci", .string "x")]),
        leaf.field.isSensitive = true ∧
          "tokens[ci]".toList = rootPath tokensField.key.toList ++ render leaf.segments) ∧
      isSensitive tokensSchema "tokens[ci]".toList = false := by
  decide

set_option maxRecDepth 4000 in
/-- An item's secret is told by its key. -/
theorem isSensitive_written_users : Kept usersSchema usersField secretLeaf :=
  (isSensitive_written usersSchema (by decide) usersField (by decide) usersValue (by decide)
    (by decide) SortedMap.empty).2.2.mp (by decide) secretLeaf (by decide) (by decide)

end Guatiao.Intake
