import Guatiao.Schema.Plans
import Guatiao.Schema.Without

/-!
# What the builders write is read back

What is written for a plan is told by the keys that are read. A note touches none of them, and a
kind made nullable either changes its `type` alone or is a wrapper that is taken off.
-/

namespace Guatiao.Schema

open Lib

/-- The keys that tell the kind of a schema. -/
def headKeys : List String :=
  [Vocab.type, Vocab.ref, Vocab.enum, Vocab.const, Vocab.anyOf, Vocab.oneOf, Vocab.allOf,
    Vocab.xVariantTag]

/-- The keys the parts and the bounds of a kind are read from. -/
def partKeys : List String :=
  [Vocab.minimum, Vocab.maximum, Vocab.minLength, Vocab.maxLength, Vocab.pattern, Vocab.format,
    Vocab.xEnumLabels, Vocab.prefixItems, Vocab.items, Vocab.minItems, Vocab.maxItems,
    Vocab.properties, Vocab.required, Vocab.additionalProperties]

/-- What tells the kind of a schema that is no wrapper. -/
structure Headed (k : Value) (declared : Declared) (enum anyOf oneOf tag : Option Value) : Prop where
  map : isMap k = true
  ref : k.get Vocab.ref = none
  const : k.get Vocab.const = none
  allOf : k.get Vocab.allOf = none
  declared : declaredType k = declared
  enum : k.get Vocab.enum = enum
  anyOf : k.get Vocab.anyOf = anyOf
  oneOf : k.get Vocab.oneOf = oneOf
  tag : k.get Vocab.xVariantTag = tag

/-- Of two schemas the kinds and their parts are read alike. -/
structure ReadAlike (v w : Value) : Prop where
  map : isMap w = isMap v
  declared : declaredType w = declaredType v
  get : ∀ key ∈ headKeys.tail ++ partKeys, w.get key = v.get key

section Head

variable {k v w : Value} {declared : Declared} {enum anyOf oneOf tag : Option Value} {ty : String}

theorem Headed.congr (h : Headed v declared enum anyOf oneOf tag) (halike : ReadAlike v w) :
    Headed w declared enum anyOf oneOf tag where
  map := halike.map.trans h.map
  ref := (halike.get _ (by decide)).trans h.ref
  const := (halike.get _ (by decide)).trans h.const
  allOf := (halike.get _ (by decide)).trans h.allOf
  declared := halike.declared.trans h.declared
  enum := (halike.get _ (by decide)).trans h.enum
  anyOf := (halike.get _ (by decide)).trans h.anyOf
  oneOf := (halike.get _ (by decide)).trans h.oneOf
  tag := (halike.get _ (by decide)).trans h.tag

theorem Headed.isTrueSchema (h : Headed k declared enum anyOf oneOf tag) : isTrueSchema k = false := by
  have hmap := h.map
  cases k <;> first | rfl | cases hmap

theorem Headed.read (h : Headed (peel v) declared enum anyOf oneOf tag) :
    Kind.read (some v) = .readMap (peel v) := by
  simp only [Kind.read, h.isTrueSchema, Bool.false_eq_true, if_false, h.map, if_true]

theorem listUnder_of_none {key : String} (h : k.get key = none) : listUnder key k = [] := by
  simp [listUnder, h]

theorem Headed.readMap_named (h : Headed k (.named ty) none none oneOf tag)
    (hoption : oneOf = none ∨ tag.isSome = true) : Kind.readMap k = .readNamed k ty := by
  have hnot : isEnumeration k = false := by
    rw [isEnumeration, h.enum, h.const, h.tag, h.map]
    rcases hoption with rfl | htag
    · rw [listUnder_of_none h.oneOf]
      simp
    · cases tag with
      | none => cases htag
      | some tag => simp
  rw [Kind.readMap, h.ref, hnot, h.declared]
  simp

theorem Headed.readMap_enum {listed : List Value}
    (h : Headed k declared (some (.list listed)) anyOf oneOf tag) : Kind.readMap k = .enum k := by
  have henum : isEnumeration k = true := by
    rw [isEnumeration, h.enum]
    rfl
  rw [Kind.readMap, h.ref, henum]
  simp

theorem Headed.readMap_union {arms : Value} (h : Headed k .absent none (some arms) none tag) :
    Kind.readMap k = .union arms := by
  have hnot : isEnumeration k = false := by
    rw [isEnumeration, h.enum, h.const, listUnder_of_none h.oneOf]
    simp
  rw [Kind.readMap, h.ref, hnot, h.declared, h.anyOf]
  simp

end Head

/-- The label a map of labels has for each value of some choices. -/
def Labels (choices : List (String × String)) (labels : Option Value) : Prop :=
  ∀ value, labels.bind (textUnder value) =
    (choices.reverse.find? fun c => c.1 == value && KindBuilder.labelled c).map Prod.snd

/-- What is written for a plan, where the wrappers are off. -/
def Body : Plan → Value → Prop
  | .bool, k => Headed k (.named Vocab.typeBoolean) none none none none
  | .float, k => Headed k (.named Vocab.typeNumber) none none none none
  | .bytes, k => Headed k (.named Vocab.typeBytes) none none none none
  | .int min max, k =>
    Headed k (.named Vocab.typeInteger) none none none none ∧
      k.get Vocab.minimum = min.map (fun n => .number (.ofInt n.toInt)) ∧
        k.get Vocab.maximum = max.map fun n => .number (.ofInt n.toInt)
  | .string minLength maxLength pattern format, k =>
    Headed k (.named Vocab.typeString) none none none none ∧
      k.get Vocab.minLength = minLength.map (fun n => .number (.ofInt n.toNat)) ∧
        k.get Vocab.maxLength = maxLength.map (fun n => .number (.ofInt n.toNat)) ∧
          k.get Vocab.pattern = pattern.map Value.string ∧ k.get Vocab.format = format.map Value.string
  | .enumeration choices, k =>
    Headed k (.named Vocab.typeString) (some (.list (choices.map fun c => .string c.1))) none none none ∧
      Labels choices (k.get Vocab.xEnumLabels)
  | .list items minItems maxItems, k =>
    Headed k (.named Vocab.typeArray) none none none none ∧ k.get Vocab.prefixItems = none ∧
      k.get Vocab.minItems = minItems.map (fun n => .number (.ofInt n.toNat)) ∧
        k.get Vocab.maxItems = maxItems.map (fun n => .number (.ofInt n.toNat)) ∧
          ∃ schema, k.get Vocab.items = some schema ∧ Reads items schema
  | .tuple positions, k =>
    Headed k (.named Vocab.typeArray) none none none none ∧
      ∃ schemas, k.get Vocab.prefixItems = some (.list schemas) ∧ ReadsAll positions schemas
  | .map fields, k =>
    Headed k (.named Vocab.typeObject) none none none none ∧ (k.get Vocab.properties).isSome = true ∧
      ReadsFields fields (fieldsOf k)
  | .mapOf values, k =>
    Headed k (.named Vocab.typeObject) none none none none ∧ k.get Vocab.properties = none ∧
      ∃ schema, k.get Vocab.additionalProperties = some schema ∧ isMap schema = true ∧
        Reads values schema
  | .union arms, k =>
    ∃ schemas, Headed k .absent none (some (.list schemas)) none none ∧ ReadsAll arms schemas ∧
      ∀ schema ∈ schemas, isNullSchema schema = false
  | .variant tag arms, k =>
    ∃ schemas, Headed k (.named Vocab.typeObject) none none (some (.list schemas))
      (some (.string tag)) ∧ ReadsArms arms (Kind.variant tag (.list schemas)).arms
  | .noted _ kind, k => Body kind k
  | .nullable kind, k => Body kind k

theorem fieldsOf_congr {v w : Value} (hproperties : w.get Vocab.properties = v.get Vocab.properties)
    (hrequired : w.get Vocab.required = v.get Vocab.required) : fieldsOf w = fieldsOf v := by
  simp only [fieldsOf, propertiesOf, isRequiredIn, listUnder, hproperties, hrequired]

theorem Body.congr {v w : Value} (halike : ReadAlike v w) :
    ∀ plan : Plan, Body plan v → Body plan w
  | .bool, h => Headed.congr h halike
  | .float, h => Headed.congr h halike
  | .bytes, h => Headed.congr h halike
  | .int _ _, ⟨hhead, hmin, hmax⟩ =>
    ⟨hhead.congr halike, (halike.get _ (by decide)).trans hmin, (halike.get _ (by decide)).trans hmax⟩
  | .string _ _ _ _, ⟨hhead, hmin, hmax, hpattern, hformat⟩ =>
    ⟨hhead.congr halike, (halike.get _ (by decide)).trans hmin,
      (halike.get _ (by decide)).trans hmax, (halike.get _ (by decide)).trans hpattern,
      (halike.get _ (by decide)).trans hformat⟩
  | .enumeration choices, ⟨hhead, hlabels⟩ =>
    ⟨hhead.congr halike, (halike.get Vocab.xEnumLabels (by decide)).symm ▸ hlabels⟩
  | .list _ _ _, ⟨hhead, hprefix, hmin, hmax, schema, hitems, hreads⟩ =>
    ⟨hhead.congr halike, (halike.get _ (by decide)).trans hprefix,
      (halike.get _ (by decide)).trans hmin, (halike.get _ (by decide)).trans hmax, schema,
      (halike.get _ (by decide)).trans hitems, hreads⟩
  | .tuple _, ⟨hhead, schemas, hprefix, hreads⟩ =>
    ⟨hhead.congr halike, schemas, (halike.get _ (by decide)).trans hprefix, hreads⟩
  | .map fields, ⟨hhead, hproperties, hfields⟩ =>
    ⟨hhead.congr halike, (halike.get Vocab.properties (by decide)).symm ▸ hproperties,
      (fieldsOf_congr (halike.get _ (by decide)) (halike.get _ (by decide))).symm ▸ hfields⟩
  | .mapOf _, ⟨hhead, hproperties, schema, hvalues, hmap, hreads⟩ =>
    ⟨hhead.congr halike, (halike.get _ (by decide)).trans hproperties, schema,
      (halike.get _ (by decide)).trans hvalues, hmap, hreads⟩
  | .union _, ⟨schemas, hhead, hreads, hnull⟩ => ⟨schemas, hhead.congr halike, hreads, hnull⟩
  | .variant _ _, ⟨schemas, hhead, harms⟩ => ⟨schemas, hhead.congr halike, harms⟩
  | .noted _ kind, h => Body.congr halike kind h
  | .nullable kind, h => Body.congr halike kind h

theorem optCount_of_get {key : String} {k : Value} {n : Option UInt64}
    (h : k.get key = n.map fun n => .number (.ofInt n.toNat)) : optCount key k = n.map UInt64.toNat := by
  cases n with
  | none => simp [optCount, numberUnder, h]
  | some n =>
    have hholds : IntType.u64.Holds n.toNat := ⟨by simp [IntType.least, IntType.signed],
      by have := n.toNat_lt; simp [IntType.most, IntType.signed, IntType.bits]; omega⟩
    have hparse := IntType.parse_toString hholds
    have htext : numberUnder key k = some (toString (n.toNat : ℤ)) := by
      rw [numberUnder, h]
      rfl
    rw [optCount, htext, Option.bind_some]
    obtain ⟨m, hm, hcast⟩ := Option.map_eq_some_iff.mp hparse
    rw [Int.natCast_inj.mp hcast] at hm
    exact hm

theorem optBound_of_get {key : String} {round : Inward} {k : Value} {n : Option Int64}
    (h : k.get key = n.map fun n => .number (.ofInt n.toInt)) :
    optBound key round k = n.map Int64.toInt := by
  cases n with
  | none => simp [optBound, numberUnder, h]
  | some n =>
    have hholds : IntType.i64.Holds n.toInt := by
      have hlo := n.le_toInt
      have hhi := n.toInt_lt
      simp only [IntType.Holds, IntType.least, IntType.most, IntType.signed, IntType.bits, if_true]
      omega
    have hparse : parseSigned 64 (toString n.toInt) = some n.toInt := IntType.parse_toString hholds
    have htext : numberUnder key k = some (toString n.toInt) := by
      rw [numberUnder, h]
      rfl
    rw [optBound, htext, Option.bind_some, hparse]
    rfl

/-- Whether null is accepted, by a kind that was made nullable. -/
def Plan.isOptional : Plan → Bool
  | .noted _ kind => kind.isOptional
  | .nullable _ => true
  | _ => false

section Read

variable {v : Value}

theorem choiceRefs_of_body {choices : List (String × String)} {k : Value}
    (hlisted : k.get Vocab.enum = some (.list (choices.map fun c => .string c.1)))
    (hlabels : Labels choices (k.get Vocab.xEnumLabels)) :
    (Kind.enum k).choiceRefs.map (fun c => (c.value, c.label)) =
      choices.map fun c => (c.1, shownLabel choices c.1) := by
  have hmembers : titledMembers k = choices.map fun c => (.string c.1, "") := by
    rw [titledMembers, hlisted]
    simp [Value.asList]
  have hlabel (value : String) :
      (⟨value, ((k.get Vocab.xEnumLabels).bind (textUnder value)).getD ""⟩ : ChoiceRef).label =
        shownLabel choices value := by
    rw [hlabels, shownLabel, ChoiceRef.label]
    cases hfind : choices.reverse.find? fun c => c.1 == value && KindBuilder.labelled c with
    | none => rfl
    | some found =>
      have hlabelled := List.find?_some hfind
      simp only [KindBuilder.labelled, Bool.and_eq_true, Bool.not_eq_true'] at hlabelled
      simp [hlabelled.2.1]
  have hrefs : (Kind.enum k).choiceRefs =
      choices.map fun c => ⟨c.1, ((k.get Vocab.xEnumLabels).bind (textUnder c.1)).getD ""⟩ := by
    rw [Kind.choiceRefs, hmembers, List.filterMap_map]
    simp [Function.comp_def, memberText]
  rw [hrefs, List.map_map]
  refine List.map_congr_left fun c _ => ?_
  exact Prod.ext rfl (hlabel c.1)

/-- What is written for a plan is read as the plan. -/
theorem reads_of_body : ∀ plan : Plan, Body plan (peel v) → (plan.isOptional = true → isNullable v = true) →
    Reads plan v
  | .bool, h, _ => by
    rw [Reads, Headed.read h, Headed.readMap_named h (.inl rfl)]
    rfl
  | .float, h, _ => by
    rw [Reads, Headed.read h, Headed.readMap_named h (.inl rfl)]
    rfl
  | .bytes, h, _ => by
    rw [Reads, Headed.read h, Headed.readMap_named h (.inl rfl)]
    rfl
  | .int min max, h, _ => by
    obtain ⟨hhead, hmin, hmax⟩ := h
    rw [Reads, hhead.read, hhead.readMap_named (.inl rfl)]
    refine ⟨rfl, ?_⟩
    rw [intBounds, optBound_of_get hmin, optBound_of_get hmax]
  | .string minLength maxLength pattern format, h, _ => by
    obtain ⟨hhead, hmin, hmax, hpattern, hformat⟩ := h
    rw [Reads, hhead.read, hhead.readMap_named (.inl rfl)]
    refine ⟨rfl, ?_⟩
    rw [strBounds, optCount_of_get hmin, optCount_of_get hmax, textUnder, textUnder, hpattern, hformat]
    cases pattern <;> cases format <;> rfl
  | .enumeration choices, h, _ => by
    obtain ⟨hhead, hlabels⟩ := h
    rw [Reads, hhead.read, hhead.readMap_enum]
    exact ⟨_, rfl, choiceRefs_of_body hhead.enum hlabels⟩
  | .list items minItems maxItems, h, _ => by
    obtain ⟨hhead, hprefix, hmin, hmax, schema, hitems, hreads⟩ := h
    rw [Reads, hhead.read, hhead.readMap_named (.inl rfl)]
    refine ⟨schema, ?_, ?_, hreads⟩
    · show Kind.readArray (peel v) = _
      rw [Kind.readArray, hprefix, hitems]
      rfl
    · rw [listBounds, optCount_of_get hmin, optCount_of_get hmax]
  | .tuple positions, h, _ => by
    obtain ⟨hhead, schemas, hprefix, hreads⟩ := h
    rw [Reads, hhead.read, hhead.readMap_named (.inl rfl)]
    refine ⟨peel v, ?_, ?_⟩
    · show Kind.readArray (peel v) = _
      rw [Kind.readArray, hprefix]
      rfl
    · rw [listUnder, hprefix]
      exact hreads
  | .map fields, h, _ => by
    obtain ⟨hhead, hproperties, hfields⟩ := h
    rw [Reads, hhead.read, hhead.readMap_named (.inl rfl)]
    refine ⟨peel v, ?_, hfields⟩
    show Kind.readObject (peel v) = _
    rw [Option.isSome_iff_exists] at hproperties
    obtain ⟨properties, hproperties⟩ := hproperties
    rw [Kind.readObject, textUnder, hhead.tag, hproperties]
    rfl
  | .mapOf values, h, _ => by
    obtain ⟨hhead, hproperties, schema, hvalues, hmap, hreads⟩ := h
    rw [Reads, hhead.read, hhead.readMap_named (.inl rfl)]
    refine ⟨peel v, schema, ?_, hvalues, hreads⟩
    show Kind.readObject (peel v) = _
    rw [Kind.readObject, textUnder, hhead.tag, hproperties, hvalues]
    simp [hmap]
  | .union arms, h, _ => by
    obtain ⟨schemas, hhead, hreads, -⟩ := h
    rw [Reads, hhead.read, hhead.readMap_union]
    exact ⟨_, rfl, hreads⟩
  | .variant tag arms, h, _ => by
    obtain ⟨schemas, hhead, harms⟩ := h
    rw [Reads, hhead.read, hhead.readMap_named (.inr rfl)]
    refine ⟨.list schemas, ?_, harms⟩
    show Kind.readObject (peel v) = _
    rw [Kind.readObject, textUnder, hhead.tag, hhead.oneOf]
    rfl
  | .noted note kind, h, hoptional => by
    rw [Reads]
    exact reads_of_body kind h hoptional
  | .nullable kind, h, hoptional => by
    rw [Reads]
    exact ⟨reads_of_body kind h fun _ => hoptional rfl, hoptional rfl⟩

end Read

/-- Null is one of the types that are listed, or one of two arms. -/
def NullListed (v : Value) : Prop :=
  (∃ names, v.get Vocab.type = some (.list names) ∧ .string Vocab.typeNull ∈ names ∧
      isEnumeration v = false) ∨
    v.get Vocab.type = none ∧ ∃ anyOf, v.get Vocab.anyOf = some anyOf ∧
      (nullablePair anyOf).isSome = true

/-- What is written for a plan, wrappers and all. -/
structure Good (plan : Plan) (v : Value) : Prop where
  map : isMap v = true
  notNull : isNullSchema v = false
  /-- What tells the kind stands in the schema itself. -/
  head : (v.get Vocab.type).isSome = true ∨ (v.get Vocab.anyOf).isSome = true
  body : Body plan (peel v)
  optional : plan.isOptional = true → NullListed v

section Notes

variable {plan : Plan} {v w : Value}

theorem isNullable_of_nullListed (h : NullListed v) : isNullable v = true := by
  obtain ⟨n, hn⟩ : ∃ n, v.nodes = n + 1 := ⟨v.nodes - 1, by have := v.nodes_pos; omega⟩
  rw [isNullable, hn, isNullableFrom]
  rcases h with ⟨names, htype, hnull, henum⟩ | ⟨htype, anyOf, hanyOf, hpair⟩
  · have hany : ((names.filterMap Value.asStr).any (· == Vocab.typeNull)) = true := by
      rw [List.any_eq_true]
      exact ⟨Vocab.typeNull, List.mem_filterMap.mpr ⟨_, hnull, rfl⟩, beq_self_eq_true _⟩
    rw [htype]
    simp only [Value.asList, Option.getD_some, hany, henum, Bool.not_false, Bool.true_or,
      Bool.and_self]
  · rw [htype, hanyOf]
    simp only [Option.bind_some, hpair, if_true]

theorem Good.reads (h : Good plan v) : Reads plan v :=
  reads_of_body plan h.body fun hoptional => isNullable_of_nullListed (h.optional hoptional)

/-- Two maps that are alike under every key a kind is read from. -/
structure SameKeys (v w : Value) : Prop where
  map : isMap v = true
  map' : isMap w = true
  get : ∀ key ∈ headKeys ++ partKeys, w.get key = v.get key

namespace SameKeys

variable (h : SameKeys v w)

include h

theorem alike : ReadAlike v w where
  map := h.map'.trans h.map.symm
  declared := by rw [declaredType, declaredType, h.get _ (by decide)]
  get key hkey := h.get key (List.mem_of_mem_tail hkey)

theorem isEnumeration_eq : isEnumeration w = isEnumeration v := by
  simp only [isEnumeration, listUnder, h.get Vocab.enum (by decide), h.get Vocab.const (by decide),
    h.get Vocab.xVariantTag (by decide), h.get Vocab.oneOf (by decide), h.map, h.map']

theorem peelOnce_eq : peelOnce w = peelOnce v := by
  have hown : (ownKeywords.any fun key => (w.get key).isSome) =
      ownKeywords.any fun key => (v.get key).isSome := by
    simp only [ownKeywords, List.any_cons, List.any_nil, h.get Vocab.type (by decide),
      h.get Vocab.enum (by decide), h.get Vocab.const (by decide), h.get Vocab.anyOf (by decide),
      h.get Vocab.oneOf (by decide)]
  simp only [peelOnce, loneAllOf, hown, listUnder, h.get Vocab.type (by decide),
    h.get Vocab.anyOf (by decide), h.get Vocab.allOf (by decide)]

theorem good (hgood : Good plan v) : Good plan w where
  map := h.map'
  notNull := by
    rw [← hgood.notNull]
    simp only [isNullSchema, textUnder, h.get Vocab.type (by decide), h.get Vocab.const (by decide)]
  head := by
    rw [h.get Vocab.type (by decide), h.get Vocab.anyOf (by decide)]
    exact hgood.head
  body := by
    cases hpeel : peelOnce v with
    | none =>
      have hbody := hgood.body
      rw [peel_of_peelOnce hpeel] at hbody
      rw [peel_of_peelOnce (h.peelOnce_eq.trans hpeel)]
      exact hbody.congr h.alike plan
    | some inner =>
      have hbody := hgood.body
      rw [peel_of_wrapper hpeel] at hbody
      rw [peel_of_wrapper (h.peelOnce_eq.trans hpeel)]
      exact hbody
  optional hoptional := by
    rw [NullListed, h.isEnumeration_eq, h.get Vocab.type (by decide), h.get Vocab.anyOf (by decide)]
    exact hgood.optional hoptional

end SameKeys

theorem get_map_set (key : String) (x : Value) (es : List Entry) (key' : String) :
    (Value.map (AssocList.set key x es)).get key' =
      if key' = key then some x else (Value.map es).get key' := by
  simp only [Value.get, Value.asMap, Option.bind_some]
  split
  · next heq =>
    rw [heq, AssocList.get_set_self]
  · next hne => exact AssocList.get_set_of_ne hne x es

theorem sameKeys_set {key : String} (hkey : key ∉ headKeys ++ partKeys) (x : Value)
    (es : List Entry) : SameKeys (.map es) (.map (AssocList.set key x es)) where
  map := rfl
  map' := rfl
  get key' hkey' := by
    rw [get_map_set, if_neg]
    rintro rfl
    exact hkey hkey'

theorem exists_entries (h : isMap v = true) : ∃ es, v = .map es := by
  cases v with
  | map es => exact ⟨es, rfl⟩
  | _ => cases h

theorem good_note (h : Good plan v) (note : Note) :
    ∃ w, note.write (.ok v) = .ok w ∧ Good (.noted note plan) w := by
  obtain ⟨es, rfl⟩ := exists_entries h.map
  have hone {key : String} {x : Value} (hkey : key ∉ headKeys ++ partKeys) :
      Good (.noted note plan) (.map (AssocList.set key x es)) := by
    have hgood := (sameKeys_set hkey x es).good h
    exact ⟨hgood.map, hgood.notNull, hgood.head, hgood.body, hgood.optional⟩
  cases note with
  | title text => exact ⟨_, rfl, hone (by decide)⟩
  | description text => exact ⟨_, rfl, hone (by decide)⟩
  | uniqueItems => exact ⟨_, rfl, hone (by decide)⟩
  | default value => exact ⟨_, rfl, hone (by decide)⟩
  | sensitive =>
    have hsensitive : Vocab.xSensitive ∉ headKeys ++ partKeys := by decide
    have hwriteOnly : Vocab.writeOnly ∉ headKeys ++ partKeys := by decide
    have hgood := (sameKeys_set hwriteOnly (.bool true) _).good
      ((sameKeys_set hsensitive (.bool true) es).good h)
    exact ⟨_, rfl, hgood.map, hgood.notNull, hgood.head, hgood.body, hgood.optional⟩
  | readOnly => exact ⟨_, rfl, hone (by decide)⟩
  | deprecated => exact ⟨_, rfl, hone (by decide)⟩
  | examples values => exact ⟨_, rfl, hone (by decide)⟩

end Notes

section Nullable

variable {plan : Plan} {v : Value} {es : List Entry}

theorem peelOnce_of_type (h : (v.get Vocab.type).isSome = true) : peelOnce v = none := by
  have hnone : (v.get Vocab.type).isNone = false := by
    cases htype : v.get Vocab.type with
    | none => simp [htype] at h
    | some ty => rfl
  have hown : (ownKeywords.any fun key => (v.get key).isSome) = true := by
    rw [ownKeywords, List.any_cons, h, Bool.true_or]
  rw [peelOnce, hnone, loneAllOf, if_pos hown]
  rfl

theorem declaredType_beside {name : String} (hname : name ≠ Vocab.typeNull)
    (htype : v.get Vocab.type = some (.list [.string name, .string Vocab.typeNull])) :
    declaredType v = .named name := by
  rw [declaredType, htype]
  simp [onlyType, Value.asStr, hname]

theorem good_beside {name : String} (h : Good plan (.map es))
    (hbare : ∀ key ∈ KindBuilder.constraining, (Value.map es).get key = none)
    (htype : (Value.map es).get Vocab.type = some (.string name)) (hname : name ≠ Vocab.typeNull) :
    Good (.nullable plan) (.map (AssocList.set Vocab.type
      (.list [.string name, .string Vocab.typeNull]) es)) := by
  set w := Value.map (AssocList.set Vocab.type (.list [.string name, .string Vocab.typeNull]) es)
    with hw
  have hget (key : String) : w.get key = if key = Vocab.type then
      some (.list [.string name, .string Vocab.typeNull]) else (Value.map es).get key :=
    get_map_set _ _ _ _
  have htype' : w.get Vocab.type = some (.list [.string name, .string Vocab.typeNull]) := by
    rw [hget, if_pos rfl]
  have hother {key : String} (hne : key ≠ Vocab.type) : w.get key = (Value.map es).get key := by
    rw [hget, if_neg hne]
  have hconst : w.get Vocab.const = none := (hother (by decide)).trans (hbare _ (by decide))
  have hpeel : peelOnce (.map es) = none := peelOnce_of_type (by rw [htype]; rfl)
  have hpeel' : peelOnce w = none := peelOnce_of_type (by rw [htype']; rfl)
  have halike : ReadAlike (.map es) w := by
    refine ⟨rfl, ?_, fun key hkey => hother ?_⟩
    · rw [declaredType_beside hname htype', declaredType, htype]
    · rintro rfl
      revert hkey
      decide
  refine ⟨rfl, ?_, .inl (by rw [htype']; rfl), ?_, fun _ => .inl ⟨_, htype', by simp, ?_⟩⟩
  · rw [isNullSchema, textUnder, htype', hconst]
    rfl
  · have hbody := h.body
    rw [peel_of_peelOnce hpeel] at hbody
    rw [peel_of_peelOnce hpeel']
    exact hbody.congr halike plan
  · have henum : w.get Vocab.enum = none := (hother (by decide)).trans (hbare _ (by decide))
    have honeOf : w.get Vocab.oneOf = none := (hother (by decide)).trans (hbare _ (by decide))
    rw [isEnumeration, henum, hconst, listUnder_of_none honeOf]
    simp

theorem good_arms (h : Good plan v) : Good (.nullable plan)
    (.map [(Vocab.anyOf, .list [v, .map [(Vocab.type, .string Vocab.typeNull)]])]) := by
  have hnull : isNullSchema (.map [(Vocab.type, .string Vocab.typeNull)]) = true := by decide
  have hpair : nullablePair (.list [v, .map [(Vocab.type, .string Vocab.typeNull)]]) = some v := by
    simp [nullablePair, Value.asList, h.notNull, hnull, h.map]
  have htype : (Value.map [(Vocab.anyOf, Value.list [v, .map [(Vocab.type, .string Vocab.typeNull)]])]).get
      Vocab.type = none := rfl
  have hanyOf : (Value.map [(Vocab.anyOf, Value.list [v, .map [(Vocab.type, .string Vocab.typeNull)]])]).get
      Vocab.anyOf = some (.list [v, .map [(Vocab.type, .string Vocab.typeNull)]]) := rfl
  refine ⟨rfl, rfl, .inr (by rw [hanyOf]; rfl), ?_, fun _ => .inr ⟨htype, _, hanyOf, ?_⟩⟩
  · rw [peel_of_wrapper (by rw [peelOnce, htype, hanyOf, Option.isNone_none, if_pos rfl,
      Option.bind_some, hpair]; rfl)]
    exact h.body
  · rw [hpair]
    rfl

/-- A kind made nullable is read as the kind, and accepts null. -/
theorem good_nullable (h : Good plan v) :
    ∃ w, (KindBuilder.nullable ⟨.ok v⟩).state = .ok w ∧ Good (.nullable plan) w := by
  obtain ⟨es, rfl⟩ := exists_entries h.map
  have hne : ((Value.map es).asMap == some []) = false := by
    cases es with
    | nil => rcases h.head with hhead | hhead <;> cases hhead
    | cons e es => rfl
  have harms := good_arms h
  cases hconstrained : KindBuilder.constraining.any fun key => ((Value.map es).get key).isSome with
  | true =>
    refine ⟨_, ?_, harms⟩
    simp only [KindBuilder.nullable, isMap, Value.asMap, Option.isSome_some, Bool.not_true,
      Bool.false_eq_true, if_false, hconstrained]
    simp only [Value.asMap] at hne
    rw [if_neg (by rw [hne]; exact Bool.false_ne_true)]
    rfl
  | false =>
    have hbare : ∀ key ∈ KindBuilder.constraining, (Value.map es).get key = none := by
      intro key hkey
      have := List.any_eq_false.mp hconstrained key hkey
      simpa using this
    cases htext : textUnder Vocab.type (.map es) with
    | none =>
      refine ⟨_, ?_, harms⟩
      simp only [KindBuilder.nullable, isMap, Value.asMap, Option.isSome_some, Bool.not_true,
        Bool.false_eq_true, if_false, hconstrained, htext]
      simp only [Value.asMap] at hne
      rw [if_neg (by rw [hne]; exact Bool.false_ne_true)]
      rfl
    | some name =>
      have htype : (Value.map es).get Vocab.type = some (.string name) := by
        obtain ⟨ty, hty, hname⟩ := Option.bind_eq_some_iff.mp htext
        cases ty with
        | string text => rw [hty, Option.some.inj hname]
        | _ => cases hname
      have hname : name ≠ Vocab.typeNull := by
        rintro rfl
        have hnot := h.notNull
        rw [isNullSchema, htext] at hnot
        simp at hnot
      refine ⟨_, ?_, good_beside h hbare htype hname⟩
      simp only [KindBuilder.nullable, isMap, Value.asMap, Option.isSome_some, Bool.not_true,
        Bool.false_eq_true, if_false, hconstrained, htext, if_neg hname]
      simp only [Value.asMap] at hne
      rw [if_neg (by rw [hne]; exact Bool.false_ne_true)]
      rfl

end Nullable

end Guatiao.Schema
