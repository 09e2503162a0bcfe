import Guatiao.Schema.Validate

/-!
# What the checks accept

A check accepts or names what it would have accepted; here only the first is followed. It does not
depend on the key a refusal would name, nor on the levels left to follow once they are more than
the schema has: each level followed goes to a part of the schema.
-/

namespace Guatiao.Schema

open Lib

@[simp] theorem isOk_ok : (Except.ok () : Verdict).isOk = true := rfl

@[simp] theorem isOk_bad (key expected : String) : (bad key expected).isOk = false := rfl

@[simp] theorem isOk_tooDeep (key : String) : (tooDeep key).isOk = false := rfl

@[simp] theorem isOk_pure : (pure () : Verdict).isOk = true := rfl

@[simp] theorem isOk_bind (a : Verdict) (b : Unit → Verdict) :
    (a >>= b).isOk = (a.isOk && (b ()).isOk) := by
  cases a <;> rfl

@[simp] theorem isOk_ite {c : Prop} [Decidable c] (a b : Verdict) :
    (if c then a else b).isOk = if c then a.isOk else b.isOk := apply_ite ..

@[simp] theorem isOk_checkAll {α : Type*} (check : α → Verdict) (l : List α) :
    (checkAll check l).isOk = l.all fun x => (check x).isOk := by
  induction l with
  | nil => rfl
  | cons x rest ih => simp only [checkAll, isOk_bind, ih, List.all_cons]

theorem any_congr_mem {α : Type*} {p q : α → Bool} {l : List α} (h : ∀ x ∈ l, p x = q x) :
    l.any p = l.any q := by
  induction l with
  | nil => rfl
  | cons x rest ih =>
    rw [List.any_cons, List.any_cons, h x (List.mem_cons_self ..),
      ih fun y hy => h y (List.mem_cons_of_mem _ hy)]

theorem all_congr_mem {α : Type*} {p q : α → Bool} {l : List α} (h : ∀ x ∈ l, p x = q x) :
    l.all p = l.all q := by
  rw [List.all_eq_not_any_not, List.all_eq_not_any_not,
    any_congr_mem fun x hx => congrArg (! ·) (h x hx)]

theorem isOk_checkAll_congr {α : Type*} {check check' : α → Verdict} {l : List α}
    (h : ∀ x ∈ l, (check x).isOk = (check' x).isOk) :
    (checkAll check l).isOk = (checkAll check' l).isOk := by
  rw [isOk_checkAll, isOk_checkAll]
  exact all_congr_mem h

section Text

variable (doubles : Doubles) (engine : Engine)

theorem isOk_strAgainst (own : Value) (key key' value : String) :
    (strAgainst engine own key value).isOk = (strAgainst engine own key' value).isOk := by
  unfold strAgainst
  cases textUnder Vocab.pattern own <;> simp

theorem isOk_intAgainst (own : Value) (key key' value : String) :
    (intAgainst doubles own key value).isOk = (intAgainst doubles own key' value).isOk := by
  unfold intAgainst
  cases optStep doubles own <;> simp

theorem isOk_floatAgainst (own : Value) (key key' value : String) :
    (floatAgainst doubles own key value).isOk = (floatAgainst doubles own key' value).isOk := by
  unfold floatAgainst
  cases numberOf doubles value
  · simp
  · cases optStep doubles own <;> simp

/-- Two walks with so many levels left go alike over a schema: with as many, or with more than the
schema has. -/
def Alike (schema : Value) (left left' : ℕ) : Prop :=
  left = left' ∨ schema.depth < left ∧ schema.depth < left'

variable {doubles engine}

variable {schema : Value} {left left' : ℕ}

theorem Alike.part {part : Value} (h : Alike schema (left + 1) (left' + 1))
    (hpart : part.depth < schema.depth) : Alike part left left' := by
  rcases h with h | ⟨h, h'⟩
  · exact .inl (by omega)
  · exact .inr ⟨by omega, by omega⟩

theorem Alike.zero_left (h : Alike schema 0 left) : left = 0 := by
  rcases h with h | ⟨h, -⟩
  · exact h.symm
  · omega

theorem Alike.succ_left (h : Alike schema (left + 1) left') :
    ∃ n, left' = n + 1 := by
  rcases h with h | ⟨-, h⟩
  · exact ⟨left, h.symm⟩
  · exact ⟨left' - 1, by omega⟩

theorem depth_excluded {e : Value} (h : excluded schema = some e) :
    e.depth < schema.depth :=
  Nat.lt_of_lt_of_le (Value.depth_lt_of_get h) (depth_peel schema)

theorem depth_unionArm {anyOf arm : Value} (hkind : Kind.read (some schema) = .union anyOf)
    (harm : arm ∈ anyOf.asList.getD []) : arm.depth < schema.depth := by
  have hfrom := kind_from schema
  rw [hkind] at hfrom
  obtain ⟨items, rfl, hmem⟩ := eq_list_of_mem harm
  have hlt := Value.depth_lt_of_get hfrom
  have hitem := Value.depth_lt_of_mem hmem
  have hpeel := depth_peel schema
  omega

/-- Two walks accept the same of a schema, whatever key they name. -/
def AgreeOn {α : Type} (walk walk' : Walk α) (schema : Value) : Prop :=
  ∀ key key' value, (walk schema key value).isOk = (walk' schema key' value).isOk

theorem isOk_textAgainst {walk walk' : Walk String}
    (h : ∀ part, part.depth < schema.depth → AgreeOn walk walk' part) (key key' value : String) :
    (textAgainst doubles engine walk schema key value).isOk =
      (textAgainst doubles engine walk' schema key' value).isOk := by
  simp only [textAgainst]
  cases hkind : Kind.read (some schema) with
  | str => apply isOk_strAgainst
  | int => apply isOk_intAgainst
  | float => apply isOk_floatAgainst
  | union anyOf =>
    have harms := any_congr_mem fun arm harm => h arm (depth_unionArm hkind harm) key key' value
    simp only [isOk_ite, isOk_ok, isOk_bad, harms]
  | _ => simp

theorem isOk_excluding {α : Type} (walk : Walk α) (check : Verdict) (schema : Value) (key : String)
    (value : α) :
    (excluding walk check schema key value).isOk =
      (!((excluded schema).any fun e => (walk e key value).isOk) && check.isOk) := by
  unfold excluding
  cases excluded schema with
  | none => simp
  | some e => cases h : (walk e key value).isOk <;> simp [Option.filter, h]

theorem any_excluded_congr {p q : Value → Bool} (h : ∀ e, e.depth < schema.depth → p e = q e) :
    (excluded schema).any p = (excluded schema).any q := by
  cases hexcluded : excluded schema with
  | none => rfl
  | some e => rw [Option.any_some, Option.any_some, h e (depth_excluded hexcluded)]

theorem isOk_against (h : Alike schema left left') (key key' value : String) :
    (against doubles engine left schema key value).isOk =
      (against doubles engine left' schema key' value).isOk := by
  induction left generalizing schema left' key key' value with
  | zero =>
    obtain rfl := h.zero_left
    rfl
  | succ left ih =>
    obtain ⟨left', rfl⟩ : ∃ n, left' = n + 1 := h.succ_left
    have hpart : ∀ part, part.depth < schema.depth →
        AgreeOn (against doubles engine left) (against doubles engine left') part :=
      fun part hlt key key' value => ih (h.part hlt) key key' value
    simp only [against]
    rw [isOk_excluding, isOk_excluding, isOk_textAgainst hpart key key',
      any_excluded_congr fun e hlt => hpart e hlt key key' value]

end Text

section Typed

variable {doubles : Doubles} {engine : Engine} {walk walk' : Walk Value}

variable {owner schema : Value}

theorem get_of_checked (h : undeclaredRule owner = .checked schema) :
    owner.get Vocab.additionalProperties = some schema := by
  unfold undeclaredRule at h
  split at h
  · cases h
  · next v hget =>
    split at h
    · rw [hget, Undeclared.checked.inj h]
    · cases h
  · cases h

theorem isOk_undeclared (hextra : ∀ s, owner.get Vocab.additionalProperties = some s → AgreeOn walk walk' s)
    (path path' refusal refusal' : String) (value : Value) :
    (undeclared walk owner path value refusal).isOk =
      (undeclared walk' owner path' value refusal').isOk := by
  unfold undeclared
  cases hrule : undeclaredRule owner with
  | refused => rfl
  | accepted => rfl
  | checked schema => exact hextra schema (get_of_checked hrule) path path' value

theorem isOk_eachDeclared {fields : List FieldRef} (hfields : ∀ f ∈ fields, AgreeOn walk walk' f.schema)
    (hextra : ∀ s, owner.get Vocab.additionalProperties = some s → AgreeOn walk walk' s)
    (key key' : String) (refusal refusal' : String → String) (entries : List Entry) :
    (eachDeclared walk fields owner key refusal entries).isOk =
      (eachDeclared walk' fields owner key' refusal' entries).isOk := by
  apply isOk_checkAll_congr
  intro e _
  unfold entryUnder
  cases hfind : fields.find? fun f => f.key == e.1 with
  | none => exact isOk_undeclared hextra ..
  | some field => exact hfields field (List.mem_of_find?_eq_some hfind) ..

theorem isOk_eachRequired (fields : List FieldRef) (key key' wanted wanted' : String)
    (entries : List Entry) :
    (eachRequired fields key wanted entries).isOk =
      (eachRequired fields key' wanted' entries).isOk := by
  apply isOk_checkAll_congr
  intro f _
  simp

theorem isOk_uniqueAgainst (schema : Value) (key key' : String) (elements : List Value) :
    (uniqueAgainst doubles schema key elements).isOk =
      (uniqueAgainst doubles schema key' elements).isOk := by
  unfold uniqueAgainst
  cases firstRepeat doubles elements <;> simp

theorem isOk_listAgainst {items : Value} (hitems : AgreeOn walk walk' items) (schema : Value)
    (key key' : String) (elements : List Value) :
    (listAgainst doubles walk schema items key elements).isOk =
      (listAgainst doubles walk' schema items key' elements).isOk := by
  have heach : ∀ e ∈ elements.zipIdx, (walk items (atIndex key e.2) e.1).isOk =
      (walk' items (atIndex key' e.2) e.1).isOk := fun e _ => hitems ..
  simp only [listAgainst, isOk_bind, isOk_ite, isOk_bad, isOk_checkAll_congr heach,
    isOk_uniqueAgainst schema key key']

theorem isOk_positionAgainst (hpositions : ∀ s ∈ listUnder Vocab.prefixItems owner, AgreeOn walk walk' s)
    (hrest : ∀ s, owner.get Vocab.items = some s → AgreeOn walk walk' s) (key key' : String)
    (element : Value) (i : ℕ) :
    (positionAgainst walk owner key element i).isOk =
      (positionAgainst walk' owner key' element i).isOk := by
  simp only [positionAgainst]
  cases hposition : (listUnder Vocab.prefixItems owner)[i]? with
  | some position => exact hpositions position (List.mem_of_getElem? hposition) ..
  | none =>
    cases hget : owner.get Vocab.items with
    | none => rfl
    | some rest =>
      have hwalk := hrest rest hget (atIndex key i) (atIndex key' i) element
      cases rest with
      | bool b => cases b <;> rfl
      | _ => simp [hwalk]

theorem isOk_tupleAgainst (hpositions : ∀ s ∈ listUnder Vocab.prefixItems owner, AgreeOn walk walk' s)
    (hrest : ∀ s, owner.get Vocab.items = some s → AgreeOn walk walk' s) (schema : Value)
    (key key' : String) (elements : List Value) :
    (tupleAgainst doubles walk schema owner key elements).isOk =
      (tupleAgainst doubles walk' schema owner key' elements).isOk := by
  have heach : ∀ e ∈ elements.zipIdx, (positionAgainst walk owner key e.1 e.2).isOk =
      (positionAgainst walk' owner key' e.1 e.2).isOk :=
    fun e _ => isOk_positionAgainst hpositions hrest ..
  simp only [tupleAgainst, isOk_bind, isOk_ite, isOk_bad, isOk_checkAll_congr heach,
    isOk_uniqueAgainst schema key key']

theorem isOk_mapOfAgainst
    (hextra : ∀ s, owner.get Vocab.additionalProperties = some s → AgreeOn walk walk' s)
    (key key' : String) (entries : List Entry) :
    (mapOfAgainst walk owner key entries).isOk = (mapOfAgainst walk' owner key' entries).isOk := by
  unfold mapOfAgainst
  cases hget : owner.get Vocab.additionalProperties with
  | none => rfl
  | some element =>
    apply isOk_checkAll_congr
    exact fun e _ => hextra element hget ..

theorem isOk_namesAgainst {text text' : Walk String}
    (hnames : ∀ s, owner.get Vocab.propertyNames = some s → AgreeOn text text' s)
    (key key' : String) (entries : List Entry) :
    (namesAgainst text owner key entries).isOk = (namesAgainst text' owner key' entries).isOk := by
  unfold namesAgainst
  cases hget : owner.get Vocab.propertyNames with
  | none => rfl
  | some names =>
    apply isOk_checkAll_congr
    intro e _
    simp only [isOk_ite, isOk_ok, isOk_bad, hnames names hget (atKey key e.1) (atKey key' e.1)]

theorem isOk_variantAgainst {kind : Kind}
    (hfields : ∀ arm ∈ kind.arms, ∀ f ∈ arm.fields, AgreeOn walk walk' f.schema)
    (hextra : ∀ arm ∈ kind.arms, ∀ s,
      arm.schema.get Vocab.additionalProperties = some s → AgreeOn walk walk' s)
    (tag key key' : String) (entries : List Entry) :
    (variantAgainst walk kind tag key entries).isOk =
      (variantAgainst walk' kind tag key' entries).isOk := by
  unfold variantAgainst
  dsimp only
  cases hfind : kind.arms.find? _ with
  | none => rfl
  | some arm =>
    have harm := List.mem_of_find?_eq_some hfind
    simp only [isOk_bind]
    rw [isOk_eachDeclared (hfields arm harm) (hextra arm harm) key key',
      isOk_eachRequired arm.fields key key']

/-- What the kind of a schema accepts of a value depends on what the walks accept of its parts. -/
theorem isOk_kindAgainst {text text' names names' : Walk String} (htext : AgreeOn text text' schema)
    (hnames : ∀ part, part.depth < schema.depth → AgreeOn names names' part)
    (hpart : ∀ part, part.depth < schema.depth → AgreeOn walk walk' part) (key key' : String)
    (value : Value) :
    (kindAgainst doubles text names walk schema key value).isOk =
      (kindAgainst doubles text' names' walk' schema key' value).isOk := by
  have hpeel := depth_peel schema
  have hfrom := kind_from schema
  have hunder : ∀ key s, (peel schema).get key = some s → s.depth < schema.depth :=
    fun key s hget => Nat.lt_of_lt_of_le (Value.depth_lt_of_get hget) hpeel
  simp only [kindAgainst]
  cases hkind : Kind.read (some schema) with
  | int => cases asNumber value <;> simp [htext key key']
  | float => cases asNumber value <;> simp [htext key key']
  | str => cases value.asStr <;> simp [htext key key']
  | union anyOf =>
    have harms := any_congr_mem fun arm harm =>
      hpart arm (depth_unionArm hkind harm) key key' value
    simp only [isOk_ite, isOk_ok, isOk_bad, harms]
  | list items =>
    rw [hkind] at hfrom
    cases value.asList with
    | none => rfl
    | some elements => exact isOk_listAgainst (hpart items (hunder _ items hfrom.1)) ..
  | tuple owner =>
    rw [hkind] at hfrom
    obtain rfl : owner = peel schema := hfrom
    cases value.asList with
    | none => rfl
    | some elements =>
      apply isOk_tupleAgainst
      · exact fun s hs => hpart s (Nat.lt_of_lt_of_le (depth_lt_of_under hs) hpeel)
      · exact fun s hs => hpart s (hunder _ s hs)
  | mapOf owner =>
    rw [hkind] at hfrom
    obtain rfl : owner = peel schema := hfrom.1
    cases value.asMap with
    | none => rfl
    | some entries =>
      simp only [isOk_bind]
      rw [isOk_namesAgainst (fun s hs => hnames s (hunder _ s hs)) key key',
        isOk_mapOfAgainst (fun s hs => hpart s (hunder _ s hs)) key key']
  | map owner =>
    rw [hkind] at hfrom
    obtain rfl : owner = peel schema := hfrom
    have hfields : ∀ f ∈ (Kind.map (peel schema)).fields, AgreeOn walk walk' f.schema :=
      fun f hf => hpart f.schema (Nat.lt_of_lt_of_le (depth_lt_of_field hf) hpeel)
    cases value.asMap with
    | none => rfl
    | some entries =>
      simp only [isOk_bind]
      rw [isOk_namesAgainst (fun s hs => hnames s (hunder _ s hs)) key key',
        isOk_eachDeclared hfields (fun s hs => hpart s (hunder _ s hs)) key key',
        isOk_eachRequired _ key key']
  | variant tag arms =>
    rw [hkind] at hfrom
    cases value.asMap with
    | none => rfl
    | some entries =>
      apply isOk_variantAgainst
      · intro arm harm f hf
        have harm' := depth_arm hfrom harm
        have hf' := depth_lt_of_field (List.mem_filter.mp hf).1
        exact hpart f.schema (by omega)
      · intro arm harm s hget
        have harm' := depth_arm hfrom harm
        have hs := Value.depth_lt_of_get hget
        exact hpart s (by omega)
  | _ => simp

/-- What a check of a value accepts: null where the schema takes it, else what its `not` leaves
and its kind accepts. -/
theorem isOk_valueAgainst_succ (left : ℕ) (schema : Value) (key : String) (value : Value) :
    (valueAgainst doubles engine (left + 1) schema key value).isOk =
      if value.tag = .null ∧ isNullable schema then true
      else
        !((excluded schema).any fun e => (valueAgainst doubles engine left e key value).isOk) &&
          (kindAgainst doubles (against doubles engine (left + 1)) (against doubles engine left)
            (valueAgainst doubles engine left) schema key value).isOk := by
  simp only [valueAgainst]
  rw [isOk_ite, isOk_excluding, isOk_ok]

theorem isOk_valueAgainst {left left' : ℕ} (h : Alike schema left left')
    (key key' : String) (value : Value) :
    (valueAgainst doubles engine left schema key value).isOk =
      (valueAgainst doubles engine left' schema key' value).isOk := by
  induction left generalizing schema left' key key' value with
  | zero =>
    obtain rfl := h.zero_left
    rfl
  | succ left ih =>
    obtain ⟨left', rfl⟩ : ∃ n, left' = n + 1 := h.succ_left
    have htext : AgreeOn (against doubles engine (left + 1)) (against doubles engine (left' + 1))
        schema := fun key key' text => isOk_against h key key' text
    have hnames : ∀ part, part.depth < schema.depth →
        AgreeOn (against doubles engine left) (against doubles engine left') part :=
      fun part hlt key key' text => isOk_against (h.part hlt) key key' text
    have hpart : ∀ part, part.depth < schema.depth →
        AgreeOn (valueAgainst doubles engine left) (valueAgainst doubles engine left') part :=
      fun part hlt key key' value => ih (h.part hlt) key key' value
    rw [isOk_valueAgainst_succ, isOk_valueAgainst_succ,
      isOk_kindAgainst htext hnames hpart key key',
      any_excluded_congr fun e hlt => hpart e hlt key key' value]

end Typed

end Guatiao.Schema
