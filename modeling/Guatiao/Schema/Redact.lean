import Guatiao.Schema.Validate
import Mathlib.Logic.Relation

/-!
# Hiding a value's secrets by what its schema says

A copy of a value with each secret replaced. Where the schema stops describing the value, the
value is hidden, because a secret may be there and nothing says it is not.
-/

namespace Guatiao.Schema

open Lib

/-- One step into a value. -/
inductive Step
  /-- To the value under a key of a map. -/
  | key (name : String)
  /-- To an element of a list. -/
  | index (i : ℕ)
  deriving DecidableEq

/-- What is inside a container, each under the step that leads to it. -/
def inside : Value → List (Step × Value)
  | .list items => items.zipIdx.map fun e => (.index e.2, e.1)
  | .map entries => entries.map fun e => (.key e.1, e.2)
  | _ => []

/-- Whether a value is a list or a map. -/
def isContainer (value : Value) : Bool := value.tag == .map || value.tag == .list

/-- Whether a schema marks its value as a secret, by itself. -/
def isSecret (schema : Value) : Bool :=
  Value.boolOr false (schema.get Vocab.xSensitive) || Value.boolOr false (schema.get Vocab.writeOnly)

/-- Whether a schema or what its wrappers hold is a secret, or has a member that is. -/
def marksFrom (member : Value → Bool) : ℕ → Value → Bool
  | 0, _ => false
  | fuel + 1, k =>
    isSecret k || (listUnder Vocab.allOf k).any member ||
      match peelOnce k with
      | some inner => marksFrom member fuel inner
      | none => false

/-- Whether a schema marks its value as a secret: by itself, on any member of an `allOf`, or on
what a wrapper holds. With no levels left to follow, assumed so. -/
def marksSecret : ℕ → Value → Bool
  | 0, _ => true
  | left + 1, schema => marksFrom (marksSecret left) schema.nodes schema

/-- What becomes of one thing inside a container. -/
inductive Part
  /-- It is not data, or a scalar nothing describes: copied as it is. -/
  | keep
  /-- It is described by a schema. -/
  | described (schema : Value)
  /-- Nothing describes it. -/
  | hide

/-- What becomes of something no part of the schema tells about. -/
def Part.fallback (value : Value) : Part := if isContainer value then .hide else .keep

/-- The schema an object gives a key it does not declare. -/
def undeclaredSchema (owner : Value) : Option Value :=
  (owner.get Vocab.additionalProperties).filter isMap

/-- What a field, or the lack of one, makes of an entry. -/
def Part.ofField : Option FieldRef → Option Value → Part
  | some field, _ => .described field.schema
  | none, some extra => .described extra
  | none, none => .hide

/-- The arm of a variant the discriminant of a map names: only text names one. -/
def chosenArm (kind : Kind) (tag : String) (value : Value) : Option ArmRef :=
  ((value.get tag).bind Value.asStr).bind fun chosen => kind.arms.find? fun a => a.value == chosen

/-- What a kind makes of each thing inside a value, none where it does not describe its inside. -/
def Kind.parts (kind : Kind) (value : Value) : Option (Step → Value → Part) :=
  match kind, value with
  | .list items, .list _ => some fun _ _ => .described items
  | .tuple owner, .list _ => some fun step element =>
    match step with
    | .index i =>
      match (listUnder Vocab.prefixItems owner)[i]? with
      | some position => .described position
      | none => .fallback element
    | .key _ => .hide
  | .mapOf owner, .map _ => some fun _ _ => .ofField none (undeclaredSchema owner)
  | .map owner, .map _ => some fun step _ =>
    match step with
    | .key name => .ofField (kind.fields.find? fun f => f.key == name) (undeclaredSchema owner)
    | .index _ => .hide
  | .variant tag _, .map _ => some fun step entry =>
    match step with
    | .key name =>
      if name = tag then if entry.asStr.isSome then .keep else .hide
      else
        .ofField ((chosenArm kind tag value).bind fun a => a.fields.find? fun f => f.key == name) none
    | .index _ => .hide
  | _, _ => none

/-- A copy, or why there is none. -/
abbrev Copy := Except ValueError Value

section Walk

variable (doubles : Doubles) (engine : Engine) (placeholder : String)

/-- What stands for a secret. -/
def mask : Value := .string placeholder

/-- One part's copy. -/
def Part.copy (walk : Value → Value → Copy) : Part → Value → Copy
  | .keep, value => .ok value
  | .described schema, value => walk schema value
  | .hide, _ => .ok (mask placeholder)

/-- The copies of a list's elements, from a position on. -/
def copyItems (copy : Step → Value → Copy) : ℕ → List Value → Except ValueError (List Value)
  | _, [] => .ok []
  | i, element :: rest => do
    let out ← copy (.index i) element
    let outs ← copyItems copy (i + 1) rest
    return out :: outs

/-- The copies of a map's entries, behind those already there. -/
def copyEntries (copy : Step → Value → Copy) :
    List Entry → List Entry → Except ValueError (List Entry)
  | out, [] => .ok out
  | out, e :: rest => do
    let child ← copy (.key e.1) e.2
    copyEntries copy (AssocList.set e.1 child out) rest

/-- The copy of a container, each thing inside as its part says. -/
def copyInside (copy : Step → Value → Copy) : Value → Copy
  | .list items => (copyItems copy 0 items).map Value.list
  | .map entries => (copyEntries copy [] entries).map Value.map
  | value => .ok value

/-- Whether every arm redacts a value the same way. -/
def sameCopies (walk : Value → Copy) (redacted : Value) : List Value → Except ValueError Bool
  | [] => .ok true
  | arm :: rest => do
    let other ← walk arm
    if other == redacted then sameCopies walk redacted rest else return false

/-- What a value becomes when no part of the schema tells what is in it. -/
def fallback (value : Value) : Value := if isContainer value then mask placeholder else value

/-- What a union makes of a value, from the arms that accept it: hidden where one is marked, or
where two would redact it differently. -/
def unionCopy (marks : Value → Bool) (walk : Value → Copy) (accepting : List Value) (value : Value) :
    Copy :=
  match accepting with
  | [] => .ok (fallback placeholder value)
  | first :: rest =>
    if accepting.any marks then .ok (mask placeholder)
    else do
      let redacted ← walk first
      let same ← sameCopies walk redacted rest
      return if same then redacted else mask placeholder

/-- A value as a schema describes it, secrets replaced, so many levels followed at most. -/
def redactNode : ℕ → Value → Value → Copy
  | 0, _, _ => .error .tooDeep
  | left + 1, schema, value =>
    if marksSecret (left + 1) schema then .ok (mask placeholder)
    else
      let kind := Kind.read (some schema)
      match kind.parts value with
      | some part =>
        copyInside (fun step child =>
          (part step child).copy placeholder (redactNode left) child) value
      | none =>
        match kind with
        | .union anyOf =>
          unionCopy placeholder (marksSecret left) (redactNode left · value)
            ((anyOf.asList.getD []).filter fun arm => accepts doubles engine arm value) value
        | .unknown name =>
          -- A reference not inlined: its definition may carry the mark.
          if name = Vocab.ref then .ok (mask placeholder) else .ok (fallback placeholder value)
        | _ => .ok (fallback placeholder value)

/-- A copy of a value with every secret replaced by a placeholder. -/
def redact (schema : SchemaRef) (value : Value) : Copy :=
  redactNode doubles engine placeholder maxDepth schema.value value

end Walk

end Guatiao.Schema

/-!
## Where the marks of a schema are

A node of a value is described by every schema that can be reached for it: through the fields, the
elements and the arms of the schemas describing what it stands in, and through the wrappers and the
members of an `allOf` around each of them. It is marked when one of these is a secret, and two
values that differ only inside marked nodes are what a copy must not tell apart.
-/

namespace Guatiao.Schema

open Lib

/-- What is one step inside a value. -/
def childAt (value : Value) (step : Step) : Option Value := AssocList.get step (inside value)

/-- What is at a place of a value: so many steps inside it. -/
def nodeAt : Value → List Step → Option Value
  | value, [] => some value
  | value, step :: place => (childAt value step).bind fun child => nodeAt child place

@[simp] theorem nodeAt_nil (value : Value) : nodeAt value [] = some value := rfl

@[simp] theorem nodeAt_cons (value : Value) (step : Step) (place : List Step) :
    nodeAt value (step :: place) = (childAt value step).bind fun child => nodeAt child place := rfl

/-- A schema also describes a value it is on: what a wrapper holds, a member of an `allOf`, the
selected arm of a variant. -/
inductive View (value : Value) : Value → Value → Prop
  | wrapped {k inner : Value} (h : peelOnce k = some inner) : View value k inner
  | member {k m : Value} (h : m ∈ listUnder Vocab.allOf k) : View value k m
  | arm {k arms : Value} {tag : String} {a : ArmRef} (htag : textUnder Vocab.xVariantTag k = some tag)
      (harms : k.get Vocab.oneOf = some arms)
      (h : chosenArm (.variant tag arms) tag value = some a) : View value k a.schema

/-- The schemas that describe a value with one that does. -/
def Describes (value : Value) : Value → Value → Prop := Relation.ReflTransGen (View value)

/-- The schemas a schema gives what is one step inside. -/
inductive Gives (w : Value) : Step → Value → Prop
  | field {f : FieldRef} (h : f ∈ fieldsOf w) : Gives w (.key f.key) f.schema
  | extra {name : String} {s : Value} (hnone : ∀ f ∈ fieldsOf w, f.key ≠ name)
      (h : undeclaredSchema w = some s) : Gives w (.key name) s
  | item {i : ℕ} {s : Value} (hpast : (listUnder Vocab.prefixItems w).length ≤ i)
      (h : w.get Vocab.items = some s) : Gives w (.index i) s
  | position {i : ℕ} {s : Value} (h : (listUnder Vocab.prefixItems w)[i]? = some s) :
      Gives w (.index i) s

/-- The schemas that describe what is at a place of a value. -/
inductive Reaches : Value → Value → List Step → Value → Prop
  | here {k v w : Value} (h : Describes v k w) : Reaches k v [] w
  | down {k v w s c w' : Value} {step : Step} {place : List Step} (h : Describes v k w)
      (hgives : Gives w step s) (hchild : childAt v step = some c) (hrest : Reaches s c place w') :
      Reaches k v (step :: place) w'

/-- The node at a place is marked: a schema describing it is a secret. -/
def MarkedAt (schema value : Value) (place : List Step) : Prop :=
  ∃ w, Reaches schema value place w ∧ isSecret w = true

/-- A place is marked, or inside a node that is. -/
def Marked (schema value : Value) (place : List Step) : Prop :=
  ∃ outer, outer <+: place ∧ MarkedAt schema value outer

/-- Two nodes are the same but for what is inside them. -/
def SameNode (c c' : Value) : Prop :=
  c.tag = c'.tag ∧
    if isContainer c then AssocList.keys (inside c) = AssocList.keys (inside c') else c = c'

/-- Two values are equal except inside nodes the schema marks in both. -/
def EqualOutside (schema v v' : Value) : Prop :=
  ∀ place c c', nodeAt v place = some c → nodeAt v' place = some c' →
    ¬(Marked schema v place ∧ Marked schema v' place) → SameNode c c'

/-- The schemas below a schema: those it can reach for some value. -/
inductive Below (schema : Value) : Value → Prop
  | self : Below schema schema
  | view {v k w : Value} (hk : Below schema k) (h : View v k w) : Below schema w
  | step {k s : Value} {step : Step} (hk : Below schema k) (h : Gives k step s) : Below schema s

/-- Whether a schema read is an untagged union. -/
def Kind.isUnion : Kind → Bool
  | .union _ => true
  | _ => false

/-- No schema below is an untagged union. -/
def NoUnions (schema : Value) : Prop :=
  ∀ s, Below schema s → ∀ anyOf, Kind.read (some s) ≠ .union anyOf

theorem Below.trans {schema k s : Value} (hk : Below schema k) (hs : Below k s) : Below schema s := by
  induction hs with
  | self => exact hk
  | view _ h ih => exact .view ih h
  | step _ h ih => exact .step ih h

theorem Below.describes {v schema w : Value} (h : Describes v schema w) : Below schema w := by
  induction h with
  | refl => exact .self
  | tail _ h ih => exact .view ih h

theorem NoUnions.below {schema s : Value} (h : NoUnions schema) (hs : Below schema s) : NoUnions s :=
  fun t ht => h t (hs.trans ht)

theorem mem_arms_of_chosenArm {kind : Kind} {tag : String} {value : Value} {a : ArmRef}
    (h : chosenArm kind tag value = some a) : a ∈ kind.arms := by
  obtain ⟨chosen, -, hfind⟩ := Option.bind_eq_some_iff.mp h
  exact List.mem_of_find?_eq_some hfind

theorem get_of_undeclaredSchema {owner s : Value} (h : undeclaredSchema owner = some s) :
    owner.get Vocab.additionalProperties = some s :=
  (Option.filter_eq_some_iff.mp h).1

theorem noUnions_of_everywhere {schema : Value}
    (h : schema.Everywhere fun w => (Kind.read (some w)).isUnion = false) : NoUnions schema := by
  have hbelow : ∀ s, Below schema s →
      s.Everywhere fun w => (Kind.read (some w)).isUnion = false := by
    intro s hs
    induction hs with
    | self => exact h
    | view _ hview ih =>
      cases hview with
      | wrapped hpeel => exact everywhere_peelOnce ih hpeel
      | member hmem => exact everywhere_of_under ih hmem
      | arm _ harms harm =>
        exact @everywhere_arm _ (.variant _ _) (ih.get harms) _ (mem_arms_of_chosenArm harm)
    | step _ hgives ih =>
      cases hgives with
      | field hf => exact everywhere_fieldsOf ih hf
      | extra _ hextra => exact ih.get (get_of_undeclaredSchema hextra)
      | item _ hget => exact ih.get hget
      | position hget => exact everywhere_of_under ih (List.mem_of_getElem? hget)
  intro s hs anyOf hread
  have hunion := (hbelow s hs).root
  rw [hread] at hunion
  cases hunion

theorem describes_peel (value k : Value) : Describes value k (peel k) := by
  unfold peel
  generalize k.nodes = fuel
  induction fuel generalizing k with
  | zero => exact .refl
  | succ fuel ih =>
    simp only [peelFrom]
    cases hpeel : peelOnce k with
    | none => exact .refl
    | some inner => exact .head (.wrapped hpeel) (ih inner)

theorem eq_of_ofField {field : Option FieldRef} {extra : Option Value} {s : Value}
    (h : Part.ofField field extra = .described s) :
    (∃ f, field = some f ∧ f.schema = s) ∨ field = none ∧ extra = some s := by
  cases field with
  | some f => exact .inl ⟨f, rfl, Part.described.inj h⟩
  | none =>
    cases extra with
    | some t => exact .inr ⟨rfl, congrArg some (Part.described.inj h)⟩
    | none => cases h

theorem fallback_ne_described {value s : Value} : Part.fallback value ≠ .described s := by
  unfold Part.fallback
  split <;> simp

/-- The schema a kind gives a child is one the child has. -/
theorem gives_of_part {k v s c : Value} {part : Step → Value → Part} {step : Step}
    (hparts : (Kind.read (some k)).parts v = some part) (hpart : part step c = .described s)
    (hchild : childAt v step = some c) : ∃ w, Describes v k w ∧ Gives w step s := by
  have hfrom := kind_from k
  have hpeel := describes_peel v k
  have hinside := AssocList.mem_of_get hchild
  unfold Kind.parts at hparts
  split at hparts
  · next items elements hkind =>
    obtain rfl := Option.some.inj hparts
    obtain rfl := Part.described.inj hpart
    rw [hkind] at hfrom
    obtain ⟨e, -, heq⟩ := List.mem_map.mp hinside
    obtain ⟨rfl, -⟩ := Prod.mk.inj heq
    refine ⟨peel k, hpeel, .item ?_ hfrom.1⟩
    rw [hfrom.2]
    exact Nat.zero_le _
  · next owner elements hkind =>
    obtain rfl := Option.some.inj hparts
    rw [hkind] at hfrom
    obtain rfl : owner = peel k := hfrom
    cases step with
    | key name => cases hpart
    | index i =>
      dsimp only at hpart
      cases hposition : (listUnder Vocab.prefixItems (peel k))[i]? with
      | none =>
        rw [hposition] at hpart
        exact absurd hpart fallback_ne_described
      | some position =>
        rw [hposition] at hpart
        obtain rfl := Part.described.inj hpart
        exact ⟨peel k, hpeel, .position hposition⟩
  · next owner entries hkind =>
    obtain rfl := Option.some.inj hparts
    rw [hkind] at hfrom
    obtain ⟨rfl, hfields⟩ := hfrom
    obtain ⟨e, -, heq⟩ := List.mem_map.mp hinside
    obtain ⟨rfl, -⟩ := Prod.mk.inj heq
    rcases eq_of_ofField hpart with ⟨f, hf, -⟩ | ⟨-, hextra⟩
    · cases hf
    · refine ⟨peel k, hpeel, .extra ?_ hextra⟩
      rw [hfields]
      exact fun f hf => absurd hf List.not_mem_nil
  · next owner entries hkind =>
    obtain rfl := Option.some.inj hparts
    rw [hkind] at hfrom
    obtain rfl : owner = peel k := hfrom
    cases step with
    | index i => cases hpart
    | key name =>
      dsimp only at hpart
      rcases eq_of_ofField hpart with ⟨f, hf, rfl⟩ | ⟨hnone, hextra⟩
      · have hkey : f.key = name := by simpa using List.find?_some hf
        subst hkey
        rw [hkind] at hf
        exact ⟨peel k, hpeel, .field (List.mem_of_find?_eq_some hf)⟩
      · refine ⟨peel k, hpeel, .extra ?_ hextra⟩
        intro f hf heq
        rw [hkind] at hnone
        exact List.find?_eq_none.mp hnone f hf (by simp [heq])
  · next tag arms entries hkind =>
    obtain rfl := Option.some.inj hparts
    rw [hkind] at hfrom
    cases step with
    | index i => cases hpart
    | key name =>
      dsimp only at hpart
      split at hpart
      · split at hpart <;> cases hpart
      · rcases eq_of_ofField hpart with ⟨f, hf, rfl⟩ | ⟨-, hextra⟩
        · obtain ⟨a, harm, hfind⟩ := Option.bind_eq_some_iff.mp hf
          have hkey : f.key = name := by simpa using List.find?_some hfind
          subst hkey
          rw [hkind] at harm
          have hfield := (List.mem_filter.mp (List.mem_of_find?_eq_some hfind)).1
          exact ⟨a.schema, hpeel.tail (.arm hfrom.1 hfrom.2 harm), .field hfield⟩
        · cases hextra
  · cases hparts

end Guatiao.Schema
