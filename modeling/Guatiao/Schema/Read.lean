import Guatiao.Schema.Vocab

/-!
# Reading a schema

A schema is a value, read in place: its fields, each with its own schema, and the kind of value
a field's schema accepts. Wrappers that only say "this, or null" or "this, with a description"
are taken off first. The bounds a kind carries are left out, as are titles and labels: nothing
here reads them.
-/

namespace Guatiao.Schema

/-- One field a provider declares: its name, its schema, and whether the object it belongs to
requires it. -/
structure FieldRef where
  key : String
  schema : Value
  required : Bool
  deriving DecidableEq

/-- One arm of a tagged kind. -/
structure ArmRef where
  tag : String
  schema : Value

/-- Whether a value is a map, which every part of a schema written here is. -/
def isMap (v : Value) : Bool := v.asMap.isSome

/-- Whether a value is the schema that accepts any value. -/
def isTrueSchema : Value → Bool
  | .bool b => b
  | _ => false

/-- Whether a value can be read as a field's schema. -/
def isSchema (v : Value) : Bool := isMap v || isTrueSchema v

/-- The items of the list under a key, none when there is no list. -/
def listUnder (key : String) (owner : Value) : List Value :=
  ((owner.get key).bind Value.asList).getD []

/-- The text under a key, none when there is no text. -/
def textUnder (key : String) (owner : Value) : Option String := (owner.get key).bind Value.asStr

/-- Whether an owner's `required` list names a key. -/
def isRequiredIn (owner : Value) (key : String) : Bool :=
  ((listUnder Vocab.required owner).filterMap Value.asStr).any (· == key)

/-- The entries of an owner's `properties`. -/
def propertiesOf (owner : Value) : List Entry :=
  ((owner.get Vocab.properties).bind Value.asMap).getD []

/-- Every field an object declares, in declaration order. -/
def fieldsOf (owner : Value) : List FieldRef :=
  (propertiesOf owner).filterMap fun e =>
    if isSchema e.2 then some ⟨e.1, e.2, isRequiredIn owner e.1⟩ else none

/-- A schema: what a value is, and what a valid one looks like. -/
structure SchemaRef where
  value : Value
  /-- Every schema with fields is a map. -/
  map : isMap value = true

/-- Views a value as a schema, when it is a map. -/
def SchemaRef.new (value : Value) : Option SchemaRef :=
  if h : isMap value = true then some ⟨value, h⟩ else none

/-- Every field, in declaration order. -/
def SchemaRef.fields (s : SchemaRef) : List FieldRef := fieldsOf s.value

/-- The field declared under a key. -/
def SchemaRef.find (s : SchemaRef) (key : String) : Option FieldRef :=
  ((propertiesOf s.value).find? fun e => e.1 == key).bind fun e =>
    if isSchema e.2 then some ⟨e.1, e.2, isRequiredIn s.value e.1⟩ else none

/-- A boolean annotation: true only when written so. -/
def FieldRef.flag (f : FieldRef) (key : String) : Bool := Value.boolOr false (f.schema.get key)

/-- A secret: never to be printed. -/
def FieldRef.isSensitive (f : FieldRef) : Bool := f.flag Vocab.xSensitive

/-- A schema as the field under a key, when it can be read as one. -/
def FieldRef.new (key : String) (schema : Value) : Option FieldRef :=
  if isSchema schema then some ⟨key, schema, false⟩ else none

/-- The discriminant stored when an arm is selected. -/
def ArmRef.value (a : ArmRef) : String :=
  ((((a.schema.get Vocab.properties).bind (Value.get a.tag)).bind (Value.get Vocab.const)).bind
    Value.asStr).getD ""

/-- The fields an arm adds when it is selected: without the discriminant. -/
def ArmRef.fields (a : ArmRef) : List FieldRef := (fieldsOf a.schema).filter fun f => f.key != a.tag

/-- What a schema's `type` says. -/
inductive Declared
  /-- One type, possibly beside null in a list. -/
  | named (name : String)
  /-- More than one type, or something that is not a type. -/
  | several
  /-- No `type` at all. -/
  | absent

/-- The one type a list of types names beside null, none for several. -/
def onlyType : Option String → List Value → Option (Option String)
  | only, [] => some only
  | only, entry :: rest =>
    match entry.asStr with
    | none => none
    | some name =>
      if name = Vocab.typeNull then onlyType only rest
      else if only.isSome then none
      else onlyType (some name) rest

/-- What a schema declares its type to be. -/
def declaredType (k : Value) : Declared :=
  match k.get Vocab.type with
  | none => .absent
  | some (.string name) => .named name
  | some (.list entries) =>
    match onlyType none entries with
    | none => .several
    | some (some name) => .named name
    | some none => if entries.isEmpty then .several else .named Vocab.typeNull
  | some _ => .several

/-- Whether a schema accepts null alone. -/
def isNullSchema (v : Value) : Bool :=
  textUnder Vocab.type v == some Vocab.typeNull || (v.get Vocab.const).map Value.tag == some .null

/-- The other arm of an `anyOf` that is exactly a schema and null. -/
def nullablePair (anyOf : Value) : Option Value :=
  match anyOf.asList with
  | some [a, b] =>
    if isNullSchema a && !isNullSchema b && isMap b then some b
    else if !isNullSchema a && isNullSchema b && isMap a then some a
    else none
  | _ => none

/-- The keywords beside which a lone `allOf` is no wrapper. -/
def ownKeywords : List String :=
  [Vocab.type, Vocab.enum, Vocab.const, Vocab.anyOf, Vocab.oneOf]

/-- The one member of an `allOf` that is a wrapper and nothing more. -/
def loneAllOf (m : Value) : Option Value :=
  if ownKeywords.any fun key => (m.get key).isSome then none
  else
    match listUnder Vocab.allOf m with
    | [only] => if isSchema only then some only else none
    | _ => none

/-- What one wrapper holds, none when a schema is not one. -/
def peelOnce (k : Value) : Option Value :=
  let inner := if (k.get Vocab.type).isNone then (k.get Vocab.anyOf).bind nullablePair else none
  inner.or (loneAllOf k)

/-- A schema with so many wrappers taken off at most. -/
def peelFrom : ℕ → Value → Value
  | 0, k => k
  | fuel + 1, k =>
    match peelOnce k with
    | some inner => peelFrom fuel inner
    | none => k

/-- A schema with every wrapper taken off, however deep: each holds one with fewer nodes. -/
def peel (k : Value) : Value := peelFrom k.nodes k

variable {owner v inner k : Value}

theorem nodes_lt_of_under {key : String} (h : v ∈ listUnder key owner) :
    v.nodes < owner.nodes := by
  unfold listUnder at h
  cases hget : owner.get key with
  | none =>
    rw [hget] at h
    exact absurd h List.not_mem_nil
  | some list =>
    have hlt := Value.nodes_lt_of_get hget
    rw [hget] at h
    cases list with
    | list items => exact Nat.lt_trans (Value.nodes_lt_of_mem h) hlt
    | _ => exact absurd h List.not_mem_nil

theorem eq_list_of_mem {w : Value} (h : v ∈ w.asList.getD []) : ∃ items, w = .list items ∧ v ∈ items := by
  cases w with
  | list items => exact ⟨items, rfl, h⟩
  | _ => exact absurd h List.not_mem_nil

theorem mem_of_nullablePair {anyOf : Value} (h : nullablePair anyOf = some inner) :
    inner ∈ anyOf.asList.getD [] := by
  unfold nullablePair at h
  split at h
  · next a b heq =>
    rw [heq]
    split at h
    · obtain rfl := Option.some.inj h
      simp
    · split at h
      · obtain rfl := Option.some.inj h
        simp
      · cases h
  · cases h

theorem mem_of_loneAllOf (h : loneAllOf k = some inner) :
    inner ∈ listUnder Vocab.allOf k := by
  unfold loneAllOf at h
  split at h
  · cases h
  · split at h
    · next only heq =>
      split at h
      · obtain rfl := Option.some.inj h
        rw [heq]
        exact List.mem_singleton_self _
      · cases h
    · cases h

theorem nodes_peelOnce (h : peelOnce k = some inner) : inner.nodes < k.nodes := by
  simp only [peelOnce, Option.or_eq_some_iff] at h
  rcases h with h | ⟨-, h⟩
  · split at h
    · obtain ⟨anyOf, hget, hpair⟩ := Option.bind_eq_some_iff.mp h
      obtain ⟨items, rfl, hmem⟩ := eq_list_of_mem (mem_of_nullablePair hpair)
      exact Nat.lt_trans (Value.nodes_lt_of_mem hmem) (Value.nodes_lt_of_get hget)
    · cases h
  · exact nodes_lt_of_under (mem_of_loneAllOf h)

/-- Whether a schema lists a fixed set of values. -/
def isEnumeration (k : Value) : Bool :=
  ((k.get Vocab.enum).bind Value.asList).isSome || (k.get Vocab.const).isSome ||
    ((k.get Vocab.xVariantTag).isNone && isMap k &&
      !(listUnder Vocab.oneOf k).isEmpty &&
      (listUnder Vocab.oneOf k).all fun arm => (arm.get Vocab.const).isSome)

/-- What a field accepts, with the parts of its schema the kind is read from. -/
inductive Kind
  | null
  | bool
  | int
  | float
  | str
  | enum (owner : Value)
  | bytes
  | list (items : Value)
  /-- A list whose positions each have their own schema. -/
  | tuple (owner : Value)
  | map (owner : Value)
  /-- An open map: any keys, one schema for the values. -/
  | mapOf (owner : Value)
  /-- An object whose fields a discriminant selects. -/
  | variant (tag : String) (arms : Value)
  | union (anyOf : Value)
  /-- A kind this build does not read, by the name it was written with. -/
  | unknown (name : String)
  | missing

/-- The kind of an object. -/
def Kind.readObject (k : Value) : Kind :=
  match textUnder Vocab.xVariantTag k with
  | some tag =>
    match k.get Vocab.oneOf with
    | some arms => .variant tag arms
    | none => .unknown Vocab.typeObject
  | none =>
    if (k.get Vocab.properties).isNone && ((k.get Vocab.additionalProperties).map isMap).getD false
    then .mapOf k
    else .map k

/-- The kind of an array. -/
def Kind.readArray (k : Value) : Kind :=
  if ((k.get Vocab.prefixItems).bind Value.asList).isSome then .tuple k
  else
    match k.get Vocab.items with
    | some items => .list items
    | none => .unknown Vocab.typeArray

/-- The kind a type's name declares. -/
def Kind.readNamed (k : Value) (ty : String) : Kind :=
  if ty = Vocab.typeNull then .null
  else if ty = Vocab.typeBoolean then .bool
  else if ty = Vocab.typeString then .str
  else if ty = Vocab.typeBytes then .bytes
  else if ty = Vocab.typeArray then .readArray k
  else if ty = Vocab.typeObject then .readObject k
  else if ty = Vocab.typeInteger then .int
  else if ty = Vocab.typeNumber then .float
  else .unknown ty

/-- The kind of a map that is no wrapper. -/
def Kind.readMap (k : Value) : Kind :=
  if (k.get Vocab.ref).isSome then .unknown Vocab.ref
  else if isEnumeration k then .enum k
  else
    match declaredType k with
    | .named ty => .readNamed k ty
    | .several => .unknown Vocab.type
    | .absent =>
      match k.get Vocab.anyOf with
      | some anyOf => .union anyOf
      | none =>
        if (k.get Vocab.oneOf).isSome then .unknown Vocab.oneOf
        else if (k.get Vocab.allOf).isSome then .unknown Vocab.allOf
        else .unknown Vocab.type

/-- The kind a schema declares: missing when it is neither a map nor `true`. -/
def Kind.read : Option Value → Kind
  | none => .missing
  | some schema =>
    let k := peel schema
    if isTrueSchema k then .unknown "true"
    else if isMap k then .readMap k
    else .missing

/-- What a field accepts. -/
def FieldRef.kind (f : FieldRef) : Kind := .read (some f.schema)

/-- The arms of a variant. -/
def Kind.arms : Kind → List ArmRef
  | .variant tag arms => ((arms.asList.getD []).filter isMap).map (⟨tag, ·⟩)
  | _ => []

/-- The kind every element of a list has. -/
def Kind.items : Kind → Kind
  | .list items => .read (some items)
  | _ => .missing

/-- The kinds of a tuple's positions, in order. -/
def Kind.positions : Kind → List Kind
  | .tuple owner => (listUnder Vocab.prefixItems owner).map fun v => .read (some v)
  | _ => []

/-- The kind every value of an open object has. -/
def Kind.values : Kind → Kind
  | .mapOf owner => .read (owner.get Vocab.additionalProperties)
  | _ => .missing

/-- The fields of a nested object. -/
def Kind.fields : Kind → List FieldRef
  | .map owner => fieldsOf owner
  | _ => []

/-- The members of an enumeration: the `enum`, else the `const`, else the constants of the
`oneOf`. -/
def members (k : Value) : List Value :=
  match (k.get Vocab.enum).bind Value.asList, k.get Vocab.const with
  | some listed, _ => listed
  | none, some single => [single]
  | none, none => (listUnder Vocab.oneOf k).filterMap (Value.get Vocab.const)

/-- A member's spelling: a string, or a number's own text. -/
def memberText : Value → Option String
  | .string text => some text
  | .number n => some n.text
  | _ => none

/-- What the alternatives of an enumeration store: its members that have a spelling. -/
def Kind.choices : Kind → List String
  | .enum owner => (members owner).filterMap memberText
  | _ => []

/-- Whether a schema accepts null, under so many wrappers at most. -/
def isNullableFrom : ℕ → Value → Bool
  | 0, _ => false
  | fuel + 1, k =>
    match k.get Vocab.type with
    | some ty =>
      ((ty.asList.getD []).filterMap Value.asStr).any (· == Vocab.typeNull) &&
        (!isEnumeration k || (members k).any fun member => member.tag == .null)
    | none =>
      if ((k.get Vocab.anyOf).bind nullablePair).isSome then true
      else
        match loneAllOf k with
        | some inner => isNullableFrom fuel inner
        | none => false

/-- Whether a null is a value a schema accepts, at any level of its wrappers. -/
def isNullable (schema : Value) : Bool := isNullableFrom schema.nodes schema

/-- A kind's parts stand in a schema under the keywords they are read from. -/
def Kind.From (k : Value) : Kind → Prop
  | .enum owner => owner = k
  | .list items => k.get Vocab.items = some items ∧ listUnder Vocab.prefixItems k = []
  | .tuple owner => owner = k
  | .map owner => owner = k
  | .mapOf owner => owner = k ∧ fieldsOf k = []
  | .variant tag arms => textUnder Vocab.xVariantTag k = some tag ∧ k.get Vocab.oneOf = some arms
  | .union anyOf => k.get Vocab.anyOf = some anyOf
  | _ => True

/-- A kind is read from its schema, once the wrappers are off. -/
theorem kind_from (schema : Value) : (Kind.read (some schema)).From (peel schema) := by
  simp only [Kind.read]
  generalize peel schema = k
  have hobject : (Kind.readObject k).From k := by
    unfold Kind.readObject
    split
    · next tag htag =>
      split
      · next arms harms => exact ⟨htag, harms⟩
      · trivial
    · split
      · next hopen =>
        simp only [Bool.and_eq_true, Option.isNone_iff_eq_none] at hopen
        refine ⟨rfl, ?_⟩
        simp [fieldsOf, propertiesOf, hopen.1]
      · rfl
  have harray : (Kind.readArray k).From k := by
    unfold Kind.readArray
    split
    · rfl
    · next hprefix =>
      split
      · next items hitems =>
        refine ⟨hitems, ?_⟩
        unfold listUnder
        rw [Option.not_isSome_iff_eq_none.mp hprefix]
        rfl
      · trivial
  have hnamed : ∀ ty, (Kind.readNamed k ty).From k := by
    intro ty
    unfold Kind.readNamed
    repeat' split
    all_goals trivial
  have hmap : (Kind.readMap k).From k := by
    unfold Kind.readMap
    split
    · trivial
    · split
      · rfl
      · split
        · apply hnamed
        · trivial
        · split
          · next anyOf hget => exact hget
          · repeat' split
            all_goals trivial
  split
  · trivial
  · split
    · exact hmap
    · trivial

theorem isSchema_of_peelOnce (h : peelOnce k = some inner) :
    isSchema inner = true := by
  simp only [peelOnce, Option.or_eq_some_iff] at h
  rcases h with h | ⟨-, h⟩
  · split at h
    · obtain ⟨anyOf, -, hpair⟩ := Option.bind_eq_some_iff.mp h
      unfold nullablePair at hpair
      split at hpair
      · split at hpair
        · next hmap =>
          obtain rfl := Option.some.inj hpair
          simp only [Bool.and_eq_true] at hmap
          simp [isSchema, hmap.2]
        · split at hpair
          · next hmap =>
            obtain rfl := Option.some.inj hpair
            simp only [Bool.and_eq_true] at hmap
            simp [isSchema, hmap.2]
          · cases hpair
      · cases hpair
    · cases h
  · unfold loneAllOf at h
    split at h
    · cases h
    · split at h
      · split at h
        · next hschema =>
          rw [← Option.some.inj h]
          exact hschema
        · cases h
      · cases h

theorem isSchema_peel (h : isSchema k = true) : isSchema (peel k) = true := by
  unfold peel
  generalize k.nodes = fuel
  induction fuel generalizing k with
  | zero => exact h
  | succ fuel ih =>
    simp only [peelFrom]
    cases hpeel : peelOnce k with
    | none => exact h
    | some inner => exact ih (isSchema_of_peelOnce hpeel)

theorem kind_ne_missing {schema : Value} (h : isSchema schema = true) :
    Kind.read (some schema) ≠ .missing := by
  have hpeel := isSchema_peel h
  simp only [Kind.read]
  generalize peel schema = k at *
  have hnamed : ∀ ty, Kind.readNamed k ty ≠ .missing := by
    intro ty
    unfold Kind.readNamed Kind.readArray Kind.readObject
    repeat' split
    all_goals simp
  split
  · simp
  · next htrue =>
    have hmap : isMap k = true := by simpa [isSchema, htrue] using hpeel
    rw [if_pos hmap]
    unfold Kind.readMap
    repeat' split
    all_goals first
      | apply hnamed
      | simp

theorem depth_lt_of_under {key : String} (h : v ∈ listUnder key owner) :
    v.depth < owner.depth := by
  unfold listUnder at h
  cases hget : owner.get key with
  | none =>
    rw [hget] at h
    exact absurd h List.not_mem_nil
  | some list =>
    have hlt := Value.depth_lt_of_get hget
    rw [hget] at h
    cases list with
    | list items => exact Nat.lt_trans (Value.depth_lt_of_mem h) hlt
    | _ => exact absurd h List.not_mem_nil

theorem depth_field {f : FieldRef} (h : f ∈ fieldsOf owner) :
    f.schema.depth + 1 < owner.depth := by
  obtain ⟨e, he, hfield⟩ := List.mem_filterMap.mp h
  split at hfield
  · obtain rfl := Option.some.inj hfield
    unfold propertiesOf at he
    cases hget : owner.get Vocab.properties with
    | none =>
      rw [hget] at he
      exact absurd he List.not_mem_nil
    | some properties =>
      have hlt := Value.depth_lt_of_get hget
      rw [hget] at he
      cases properties with
      | map entries => exact Nat.lt_of_le_of_lt (Value.depth_lt_of_entry he) hlt
      | _ => exact absurd he List.not_mem_nil
  · cases hfield

theorem depth_lt_of_field {f : FieldRef} (h : f ∈ fieldsOf owner) :
    f.schema.depth < owner.depth :=
  Nat.lt_of_succ_lt (depth_field h)

theorem depth_peelOnce (h : peelOnce k = some inner) : inner.depth < k.depth := by
  simp only [peelOnce, Option.or_eq_some_iff] at h
  rcases h with h | ⟨-, h⟩
  · split at h
    · obtain ⟨anyOf, hget, hpair⟩ := Option.bind_eq_some_iff.mp h
      obtain ⟨items, rfl, hmem⟩ := eq_list_of_mem (mem_of_nullablePair hpair)
      exact Nat.lt_trans (Value.depth_lt_of_mem hmem) (Value.depth_lt_of_get hget)
    · cases h
  · exact depth_lt_of_under (mem_of_loneAllOf h)

theorem depth_peel (k : Value) : (peel k).depth ≤ k.depth := by
  unfold peel
  generalize k.nodes = fuel
  induction fuel generalizing k with
  | zero => exact Nat.le_refl _
  | succ fuel ih =>
    simp only [peelFrom]
    cases hpeel : peelOnce k with
    | none => exact Nat.le_refl _
    | some inner => exact Nat.le_trans (ih inner) (Nat.le_of_lt (depth_peelOnce hpeel))

theorem depth_arm {kind : Kind} (h : kind.From k) {arm : ArmRef} (harm : arm ∈ kind.arms) :
    arm.schema.depth < k.depth := by
  cases kind with
  | variant tag arms =>
    obtain ⟨schema, hschema, rfl⟩ := List.mem_map.mp harm
    obtain ⟨items, rfl, hmem⟩ := eq_list_of_mem (List.mem_filter.mp hschema).1
    exact Nat.lt_trans (Value.depth_lt_of_mem hmem) (Value.depth_lt_of_get h.2)
  | _ => exact absurd harm List.not_mem_nil

section Everywhere

variable {P : Value → Prop}

/-- Every node of the schemas a kind was read from satisfies `P`. -/
def Kind.Everywhere (P : Value → Prop) : Kind → Prop
  | .enum owner => owner.Everywhere P
  | .list items => items.Everywhere P
  | .tuple owner => owner.Everywhere P
  | .map owner => owner.Everywhere P
  | .mapOf owner => owner.Everywhere P
  | .variant _ arms => arms.Everywhere P
  | .union anyOf => anyOf.Everywhere P
  | _ => True

theorem everywhere_of_under {key : String} {owner v : Value} (h : owner.Everywhere P)
    (hmem : v ∈ listUnder key owner) : v.Everywhere P := by
  unfold listUnder at hmem
  cases hget : owner.get key with
  | none =>
    rw [hget] at hmem
    exact absurd hmem List.not_mem_nil
  | some list =>
    have hlist := h.get hget
    rw [hget] at hmem
    cases list with
    | list items => exact (Value.everywhere_list.mp hlist).2 v hmem
    | _ => exact absurd hmem List.not_mem_nil

theorem everywhere_peelOnce {k inner : Value} (h : k.Everywhere P) (hpeel : peelOnce k = some inner) :
    inner.Everywhere P := by
  simp only [peelOnce, Option.or_eq_some_iff] at hpeel
  rcases hpeel with hpeel | ⟨-, hpeel⟩
  · split at hpeel
    · obtain ⟨anyOf, hget, hpair⟩ := Option.bind_eq_some_iff.mp hpeel
      obtain ⟨items, rfl, hmem⟩ := eq_list_of_mem (mem_of_nullablePair hpair)
      exact (Value.everywhere_list.mp (h.get hget)).2 inner hmem
    · cases hpeel
  · exact everywhere_of_under h (mem_of_loneAllOf hpeel)

theorem everywhere_peel {k : Value} (h : k.Everywhere P) : (peel k).Everywhere P := by
  unfold peel
  generalize k.nodes = fuel
  induction fuel generalizing k with
  | zero => exact h
  | succ fuel ih =>
    simp only [peelFrom]
    cases hpeel : peelOnce k with
    | none => exact h
    | some inner => exact ih (everywhere_peelOnce h hpeel)

/-- What holds everywhere in a schema holds everywhere in its kind. -/
theorem everywhere_kind {schema : Value} (h : schema.Everywhere P) :
    (Kind.read (some schema)).Everywhere P := by
  have hpeel := everywhere_peel h
  simp only [Kind.read]
  generalize peel schema = k at *
  have hobject : (Kind.readObject k).Everywhere P := by
    unfold Kind.readObject
    split
    · split
      · next arms harms => exact hpeel.get harms
      · trivial
    · split <;> exact hpeel
  have harray : (Kind.readArray k).Everywhere P := by
    unfold Kind.readArray
    split
    · exact hpeel
    · split
      · next items hitems => exact hpeel.get hitems
      · trivial
  have hnamed : ∀ ty, (Kind.readNamed k ty).Everywhere P := by
    intro ty
    unfold Kind.readNamed
    repeat' split
    all_goals trivial
  have hmap : (Kind.readMap k).Everywhere P := by
    unfold Kind.readMap
    split
    · trivial
    · split
      · exact hpeel
      · split
        · exact hnamed _
        · trivial
        · split
          · next anyOf hget => exact hpeel.get hget
          · repeat' split
            all_goals trivial
  split
  · trivial
  · split
    · exact hmap
    · trivial

theorem everywhere_fieldsOf {owner : Value} (h : owner.Everywhere P) {f : FieldRef}
    (hf : f ∈ fieldsOf owner) : f.schema.Everywhere P := by
  obtain ⟨e, he, hfield⟩ := List.mem_filterMap.mp hf
  split at hfield
  · obtain rfl := Option.some.inj hfield
    unfold propertiesOf at he
    cases hget : owner.get Vocab.properties with
    | none =>
      rw [hget] at he
      exact absurd he List.not_mem_nil
    | some properties =>
      have hproperties := h.get hget
      rw [hget] at he
      cases properties with
      | map entries => exact (Value.everywhere_map.mp hproperties).2 e.1 e.2 he
      | _ => exact absurd he List.not_mem_nil
  · cases hfield

theorem everywhere_arm {kind : Kind} (h : kind.Everywhere P) {arm : ArmRef} (harm : arm ∈ kind.arms) :
    arm.schema.Everywhere P := by
  cases kind with
  | variant tag arms =>
    obtain ⟨schema, hschema, rfl⟩ := List.mem_map.mp harm
    have hmem := (List.mem_filter.mp hschema).1
    cases arms with
    | list items => exact (Value.everywhere_list.mp h).2 schema hmem
    | _ => exact absurd hmem List.not_mem_nil
  | _ => exact absurd harm List.not_mem_nil

theorem everywhere_armFields {kind : Kind} (h : kind.Everywhere P) {arm : ArmRef}
    (harm : arm ∈ kind.arms) {f : FieldRef} (hf : f ∈ arm.fields) : f.schema.Everywhere P :=
  everywhere_fieldsOf (everywhere_arm h harm) (List.mem_filter.mp hf).1

end Everywhere

theorem keys_fieldsOf (owner : Value) :
    (fieldsOf owner).map FieldRef.key =
      ((propertiesOf owner).filter fun e => isSchema e.2).map Prod.fst := by
  unfold fieldsOf
  induction propertiesOf owner with
  | nil => rfl
  | cons e entries ih =>
    rw [List.filterMap_cons, List.filter_cons]
    cases hschema : isSchema e.2 with
    | false => simpa [hschema] using ih
    | true => simpa [hschema] using ih

theorem nodup_propertiesOf (h : owner.Distinct) :
    (Lib.AssocList.keys (propertiesOf owner)).Nodup := by
  unfold propertiesOf
  cases hget : owner.get Vocab.properties with
  | none => exact List.nodup_nil
  | some properties =>
    have hproperties := Value.Everywhere.get h hget
    cases properties with
    | map entries => exact (Value.distinct_map.mp hproperties).1
    | _ => exact List.nodup_nil

theorem nodup_fieldsOf (h : owner.Distinct) :
    ((fieldsOf owner).map FieldRef.key).Nodup := by
  rw [keys_fieldsOf]
  exact (nodup_propertiesOf h).sublist (List.filter_sublist.map _)

end Guatiao.Schema
