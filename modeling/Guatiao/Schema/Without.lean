import Guatiao.Schema.Accepts

/-!
# A schema without one of its keywords

A schema is read by its keys, so two schemas that differ in one keyword are alike to whatever does
not read it. Nothing that finds the kind of a schema, or checks a value against that kind, reads
`not`.
-/

namespace Guatiao.Schema

open Lib

/-- A map without what is under a key. -/
def without (key : String) : Value → Value
  | .map entries => .map (entries.filter fun e => e.1 ≠ key)
  | v => v

theorem get_without (v : Value) {key key' : String} :
    (without key v).get key' = if key' = key then none else v.get key' := by
  cases v with
  | map entries =>
    have h := AssocList.get_filter (fun k => k ≠ key) key' entries
    simp only [without, Value.get, Value.asMap, Option.bind_some]
    rw [h]
    split <;> simp_all
  | _ =>
    split <;> rfl

/-- Two maps that are alike but for what is under `not`. -/
structure ButNot (s s' : Value) : Prop where
  map : isMap s = true
  map' : isMap s' = true
  get : ∀ key, key ≠ Vocab.not → s'.get key = s.get key

theorem butNot_without {s : Value} (h : isMap s = true) : ButNot s (without Vocab.not s) where
  map := h
  map' := by
    cases s with
    | map entries => rfl
    | _ => cases h
  get key hkey := by rw [get_without, if_neg hkey]

namespace ButNot

variable {s s' : Value} (h : ButNot s s')

include h

theorem isTrueSchema : Schema.isTrueSchema s = false ∧ Schema.isTrueSchema s' = false := by
  have hmap := h.map
  have hmap' := h.map'
  constructor
  · cases s <;> first | rfl | cases hmap
  · cases s' <;> first | rfl | cases hmap'

theorem listUnder {key : String} (hkey : key ≠ Vocab.not) :
    Schema.listUnder key s' = Schema.listUnder key s := by
  rw [Schema.listUnder, h.get key hkey, Schema.listUnder]

theorem textUnder {key : String} (hkey : key ≠ Vocab.not) :
    Schema.textUnder key s' = Schema.textUnder key s := by
  rw [Schema.textUnder, h.get key hkey, Schema.textUnder]

theorem numberUnder {key : String} (hkey : key ≠ Vocab.not) :
    Schema.numberUnder key s' = Schema.numberUnder key s := by
  rw [Schema.numberUnder, h.get key hkey, Schema.numberUnder]

theorem optCount {key : String} (hkey : key ≠ Vocab.not) :
    Schema.optCount key s' = Schema.optCount key s := by
  rw [Schema.optCount, h.numberUnder hkey, Schema.optCount]

theorem fieldsOf : Schema.fieldsOf s' = Schema.fieldsOf s := by
  have hrequired (key : String) : isRequiredIn s' key = isRequiredIn s key := by
    rw [isRequiredIn, h.listUnder (by decide), isRequiredIn]
  simp only [Schema.fieldsOf, propertiesOf, h.get Vocab.properties (by decide), hrequired]

theorem loneAllOf : Schema.loneAllOf s' = Schema.loneAllOf s := by
  have hown : (ownKeywords.any fun key => (s'.get key).isSome) =
      ownKeywords.any fun key => (s.get key).isSome := by
    apply any_congr_mem
    intro key hkey
    rw [h.get key]
    rintro rfl
    revert hkey
    decide
  rw [Schema.loneAllOf, hown, h.listUnder (by decide), Schema.loneAllOf]

theorem peelOnce : Schema.peelOnce s' = Schema.peelOnce s := by
  rw [Schema.peelOnce, h.get Vocab.type (by decide), h.get Vocab.anyOf (by decide), h.loneAllOf,
    Schema.peelOnce]

theorem isEnumeration : Schema.isEnumeration s' = Schema.isEnumeration s := by
  rw [Schema.isEnumeration, h.get Vocab.enum (by decide), h.get Vocab.const (by decide),
    h.get Vocab.xVariantTag (by decide), h.listUnder (by decide), h.map', Schema.isEnumeration, h.map]

theorem members : Schema.members s' = Schema.members s := by
  rw [Schema.members, h.get Vocab.enum (by decide), h.get Vocab.const (by decide),
    h.listUnder (by decide), Schema.members]

theorem declaredType : Schema.declaredType s' = Schema.declaredType s := by
  rw [Schema.declaredType, h.get Vocab.type (by decide), Schema.declaredType]

theorem typeAdmits (value : Value) : Schema.typeAdmits s' value = Schema.typeAdmits s value := by
  rw [Schema.typeAdmits, h.get Vocab.type (by decide), Schema.typeAdmits]

theorem undeclaredRule : Schema.undeclaredRule s' = Schema.undeclaredRule s := by
  rw [Schema.undeclaredRule, h.get Vocab.additionalProperties (by decide), Schema.undeclaredRule]

theorem bounds : Bounds.read s' = Bounds.read s := by
  simp only [Bounds.read, h.numberUnder (by decide : Vocab.minimum ≠ Vocab.not),
    h.numberUnder (by decide : Vocab.maximum ≠ Vocab.not),
    h.numberUnder (by decide : Vocab.exclusiveMinimum ≠ Vocab.not),
    h.numberUnder (by decide : Vocab.exclusiveMaximum ≠ Vocab.not)]

theorem optStep (doubles : Doubles) : Schema.optStep doubles s' = Schema.optStep doubles s := by
  rw [Schema.optStep, optFloat, h.numberUnder (by decide), Schema.optStep, optFloat]

end ButNot

/-- Two kinds that are one, or that are read from the schemas themselves. -/
inductive Kind.Like (s s' : Value) : Kind → Kind → Prop
  | refl (k : Kind) : Like s s' k k
  | enum : Like s s' (.enum s) (.enum s')
  | tuple : Like s s' (.tuple s) (.tuple s')
  | map : Like s s' (.map s) (.map s')
  | mapOf : Like s s' (.mapOf s) (.mapOf s')

section Kind

variable {s s' : Value}

theorem like_readObject (h : ButNot s s') : Kind.Like s s' (.readObject s) (.readObject s') := by
  unfold Kind.readObject
  rw [h.textUnder (by decide), h.get Vocab.oneOf (by decide), h.get Vocab.properties (by decide),
    h.get Vocab.additionalProperties (by decide)]
  cases textUnder Vocab.xVariantTag s with
  | some tag =>
    cases s.get Vocab.oneOf with
    | some arms => exact .refl _
    | none => exact .refl _
  | none =>
    dsimp only
    split
    · exact .mapOf
    · exact .map

theorem like_readArray (h : ButNot s s') : Kind.Like s s' (.readArray s) (.readArray s') := by
  unfold Kind.readArray
  rw [h.get Vocab.prefixItems (by decide), h.get Vocab.items (by decide)]
  split
  · exact .tuple
  · cases s.get Vocab.items with
    | some items => exact .refl _
    | none => exact .refl _

theorem like_readNamed (h : ButNot s s') (ty : String) :
    Kind.Like s s' (.readNamed s ty) (.readNamed s' ty) := by
  unfold Kind.readNamed
  by_cases harray : ty = Vocab.typeArray
  · subst harray
    exact like_readArray h
  by_cases hobject : ty = Vocab.typeObject
  · subst hobject
    exact like_readObject h
  simp only [harray, hobject, if_false]
  exact .refl _

theorem like_readMap (h : ButNot s s') : Kind.Like s s' (.readMap s) (.readMap s') := by
  unfold Kind.readMap
  rw [h.get Vocab.ref (by decide), h.isEnumeration, h.declaredType, h.get Vocab.anyOf (by decide),
    h.get Vocab.oneOf (by decide), h.get Vocab.allOf (by decide)]
  by_cases href : (s.get Vocab.ref).isSome = true
  · rw [if_pos href, if_pos href]
    exact .refl _
  rw [if_neg href, if_neg href]
  by_cases henum : isEnumeration s = true
  · rw [if_pos henum, if_pos henum]
    exact .enum
  rw [if_neg henum, if_neg henum]
  cases declaredType s with
  | named ty => exact like_readNamed h ty
  | several => exact .refl _
  | absent => exact .refl _

theorem peel_of_peelOnce {k : Value} (h : peelOnce k = none) : peel k = k := by
  unfold peel
  cases k.nodes with
  | zero => rfl
  | succ n => rw [peelFrom, h]

theorem like_read (h : ButNot s s') (hpeel : peelOnce s = none) :
    Kind.Like s s' (.read (some s)) (.read (some s')) := by
  have hpeel' : peelOnce s' = none := h.peelOnce.trans hpeel
  simp only [Kind.read, peel_of_peelOnce hpeel, peel_of_peelOnce hpeel', h.isTrueSchema.1,
    h.isTrueSchema.2, h.map, h.map', if_true, Bool.false_eq_true, if_false]
  exact like_readMap h

theorem peelFrom_eq {k : Value} {fuel fuel' : ℕ} (h : k.nodes ≤ fuel) (h' : k.nodes ≤ fuel') :
    peelFrom fuel k = peelFrom fuel' k := by
  induction fuel generalizing k fuel' with
  | zero =>
    have := k.nodes_pos
    omega
  | succ fuel ih =>
    cases fuel' with
    | zero =>
      have := k.nodes_pos
      omega
    | succ fuel' =>
      rw [peelFrom, peelFrom]
      cases hpeel : peelOnce k with
      | none => rfl
      | some inner =>
        have := nodes_peelOnce hpeel
        exact ih (by omega) (by omega)

theorem isNullableFrom_eq {k : Value} {fuel fuel' : ℕ} (h : k.nodes ≤ fuel) (h' : k.nodes ≤ fuel') :
    isNullableFrom fuel k = isNullableFrom fuel' k := by
  induction fuel generalizing k fuel' with
  | zero =>
    have := k.nodes_pos
    omega
  | succ fuel ih =>
    cases fuel' with
    | zero =>
      have := k.nodes_pos
      omega
    | succ fuel' =>
      rw [isNullableFrom, isNullableFrom]
      cases k.get Vocab.type with
      | some ty => rfl
      | none =>
        dsimp only
        cases hlone : loneAllOf k with
        | none => rfl
        | some inner =>
          have := nodes_lt_of_under (mem_of_loneAllOf hlone)
          dsimp only
          rw [ih (by omega) (by omega : inner.nodes ≤ fuel')]

theorem peel_of_wrapper {k inner : Value} (h : peelOnce k = some inner) : peel k = peel inner := by
  have hlt := nodes_peelOnce h
  unfold peel
  obtain ⟨n, hn⟩ : ∃ n, k.nodes = n + 1 := ⟨k.nodes - 1, by omega⟩
  rw [hn, peelFrom, h]
  exact peelFrom_eq (by omega) (le_refl _)

theorem ButNot.isNullable (h : ButNot s s') : Schema.isNullable s' = Schema.isNullable s := by
  have hfrom (fuel : ℕ) : isNullableFrom fuel s' = isNullableFrom fuel s := by
    cases fuel with
    | zero => rfl
    | succ fuel =>
      rw [isNullableFrom, h.get Vocab.type (by decide), h.get Vocab.anyOf (by decide), h.isEnumeration,
        h.members, h.loneAllOf, isNullableFrom]
  rw [Schema.isNullable, ← isNullableFrom_eq (Nat.le_add_right _ s.nodes) (le_refl _), hfrom]
  exact isNullableFrom_eq (Nat.le_add_left _ _) (le_refl _)

end Kind

section Checks

variable {s s' : Value} {doubles : Doubles} {engine : Engine}

/-- A schema whose `not` is under its wrappers is peeled alike without it, and one that is no
wrapper is alike but for it. -/
theorem ButNot.peel_cases (h : ButNot s s') : peel s' = peel s ∨
    Schema.peelOnce s = none ∧ peel s = s ∧ peel s' = s' := by
  cases hpeel : Schema.peelOnce s with
  | none =>
    exact .inr ⟨rfl, peel_of_peelOnce hpeel, peel_of_peelOnce (h.peelOnce.trans hpeel)⟩
  | some inner =>
    exact .inl ((peel_of_wrapper (h.peelOnce.trans hpeel)).trans (peel_of_wrapper hpeel).symm)

theorem ButNot.textAgainst (h : ButNot s s') (walk : Walk String) (key value : String) :
    Schema.textAgainst doubles engine walk s' key value =
      Schema.textAgainst doubles engine walk s key value := by
  unfold Schema.textAgainst
  rcases h.peel_cases with hpeel | ⟨hnone, hpeel, hpeel'⟩
  · rw [show Kind.read (some s') = Kind.read (some s) by simp only [Kind.read, hpeel], hpeel]
  · have hlike := like_read h hnone
    rw [hpeel, hpeel']
    generalize Kind.read (some s) = k at hlike
    generalize Kind.read (some s') = k' at hlike
    cases hlike with
    | refl =>
      have hstr : strAgainst engine s' key value = strAgainst engine s key value := by
        simp only [strAgainst, h.optCount (by decide : Vocab.minLength ≠ Vocab.not),
          h.optCount (by decide : Vocab.maxLength ≠ Vocab.not),
          h.textUnder (by decide : Vocab.pattern ≠ Vocab.not)]
      have hint : intAgainst doubles s' key value = intAgainst doubles s key value := by
        simp only [intAgainst, h.bounds, h.optStep]
      have hfloat : floatAgainst doubles s' key value = floatAgainst doubles s key value := by
        simp only [floatAgainst, h.bounds, h.optStep]
      rw [hstr, hint, hfloat]
    | enum =>
      have hchoices : (Kind.enum s').choices = (Kind.enum s).choices := by
        simp only [Kind.choices, h.members]
      have hwanted : oneOfMembers (.enum s') = oneOfMembers (.enum s) := by
        rw [oneOfMembers, hchoices, oneOfMembers]
      simp only [hchoices, hwanted]
    | _ => rfl

/-- The text a value is checked as, by the kind of its schema: of a number or a text. -/
def Kind.scalarText : Kind → Value → Option String
  | .int, value => asNumber value
  | .float, value => asNumber value
  | .str, value => value.asStr
  | _, _ => none

/-- A kind whose values are checked as texts. -/
def Kind.isScalar : Kind → Bool
  | .int | .float | .str => true
  | _ => false

theorem isOk_kindAgainst_scalar {text names : Walk String} {walk : Walk Value} {key : String}
    {value : Value} (h : (Kind.read (some s)).isScalar = true) :
    (kindAgainst doubles text names walk s key value).isOk =
      ((Kind.read (some s)).scalarText value).any fun t => (text s key t).isOk := by
  unfold kindAgainst
  generalize Kind.read (some s) = k at h
  cases k with
  | int => cases hv : asNumber value <;> simp [Kind.scalarText, hv]
  | float => cases hv : asNumber value <;> simp [Kind.scalarText, hv]
  | str => cases hv : value.asStr <;> simp [Kind.scalarText, hv]
  | _ => cases h

/-- A value of any other kind is checked alike without `not`. -/
theorem ButNot.kindAgainst (h : ButNot s s') (text text' names : Walk String) (walk : Walk Value)
    (key : String) (value : Value) (hscalar : (Kind.read (some s)).isScalar = false) :
    Schema.kindAgainst doubles text names walk s' key value =
      Schema.kindAgainst doubles text' names walk s key value := by
  have hflag : flag s' Vocab.uniqueItems = flag s Vocab.uniqueItems := by
    rcases h.peel_cases with hpeel | ⟨-, hpeel, hpeel'⟩
    · rw [flag, hpeel, flag]
    · rw [flag, flag, hpeel, hpeel', h.get Vocab.uniqueItems (by decide)]
  have hunique (elements : List Value) :
      uniqueAgainst doubles s' key elements = uniqueAgainst doubles s key elements := by
    rw [uniqueAgainst, hflag, uniqueAgainst]
  have hlist (items : Value) (elements : List Value) :
      listAgainst doubles walk s' items key elements =
        listAgainst doubles walk s items key elements := by
    have hcount {k : String} (hk : k ≠ Vocab.not) :
        Schema.optCount k (peel s') = Schema.optCount k (peel s) := by
      rcases h.peel_cases with hpeel | ⟨-, hpeel, hpeel'⟩
      · rw [hpeel]
      · rw [hpeel, hpeel', h.optCount hk]
    simp only [listAgainst, hcount (by decide : Vocab.minItems ≠ Vocab.not),
      hcount (by decide : Vocab.maxItems ≠ Vocab.not), hunique]
  have htuple (owner : Value) (elements : List Value) :
      tupleAgainst doubles walk s' owner key elements =
        tupleAgainst doubles walk s owner key elements := by
    simp only [tupleAgainst, hunique]
  have hsame (k : Kind) (hk : k.isScalar = false)
      (hread : Kind.read (some s) = k) (hread' : Kind.read (some s') = k) :
      Schema.kindAgainst doubles text names walk s' key value =
        Schema.kindAgainst doubles text' names walk s key value := by
    unfold Schema.kindAgainst
    rw [hread, hread']
    cases k with
    | int => cases hk
    | float => cases hk
    | str => cases hk
    | list items => simp only [hlist]
    | tuple owner => simp only [htuple]
    | _ => rfl
  rcases h.peel_cases with hpeel | ⟨hnone, hpeel, hpeel'⟩
  · exact hsame _ hscalar rfl (by simp only [Kind.read, hpeel])
  · have hlike := like_read h hnone
    generalize hread : Kind.read (some s) = k at hlike hscalar
    generalize hread' : Kind.read (some s') = k' at hlike
    cases hlike with
    | refl => exact hsame _ hscalar hread hread'
    | enum =>
      have hchoices : (Kind.enum s').choices = (Kind.enum s).choices := by
        simp only [Kind.choices, h.members]
      have hwanted : oneOfMembers (.enum s') = oneOfMembers (.enum s) := by
        rw [oneOfMembers, hchoices, oneOfMembers]
      unfold Schema.kindAgainst
      rw [hread, hread']
      simp only [h.typeAdmits, h.members, hwanted]
    | tuple =>
      have howner (elements : List Value) : tupleAgainst doubles walk s s' key elements =
          tupleAgainst doubles walk s s key elements := by
        simp only [tupleAgainst, positionAgainst, h.optCount (by decide : Vocab.minItems ≠ Vocab.not),
          h.optCount (by decide : Vocab.maxItems ≠ Vocab.not),
          h.listUnder (by decide : Vocab.prefixItems ≠ Vocab.not), h.get Vocab.items (by decide)]
      unfold Schema.kindAgainst
      rw [hread, hread']
      simp only [htuple, howner]
    | map =>
      have hfields : (Kind.map s').fields = (Kind.map s).fields := h.fieldsOf
      have hentry (fields : List FieldRef) (refusal : String → String) :
          entryUnder walk fields s' key refusal = entryUnder walk fields s key refusal := by
        funext e
        rw [entryUnder, undeclared, h.undeclaredRule, entryUnder, undeclared]
      unfold Schema.kindAgainst
      rw [hread, hread']
      simp only [hfields, namesAgainst, h.get Vocab.propertyNames (by decide), eachDeclared, hentry]
    | mapOf =>
      unfold Schema.kindAgainst
      rw [hread, hread']
      simp only [namesAgainst, h.get Vocab.propertyNames (by decide), mapOfAgainst,
        h.get Vocab.additionalProperties (by decide)]

end Checks

end Guatiao.Schema
