import Guatiao.Lib.AssocList
import Mathlib.Data.List.Basic

/-!
# The value tree

Eight kinds of node, a map being an association list in insertion order. The model
holds the trees a Rust program can build: each node passes its own door, so a number
is in the grammar and a text is UTF-8. What the allocator records is left out: a copy
of a tree is that tree.
-/

/-!
## Text as bytes, and the number grammar

A text is valid UTF-8; `asBytes` and `fromUtf8` are the two ways between a text and
its bytes. A number is the exact text that declared it, checked against the grammar
of RFC 8259, section 6, when it is made and never when it is read.
-/

namespace Guatiao

/-- A text's UTF-8 bytes. -/
def asBytes (text : String) : List UInt8 := text.toByteArray.data.toList

/-- The text some bytes spell, when they are UTF-8. -/
def fromUtf8 (bytes : List UInt8) : Option String := String.fromUTF8? ⟨bytes.toArray⟩

@[simp] theorem fromUtf8_asBytes (text : String) : fromUtf8 (asBytes text) = some text := by
  obtain ⟨bytes, hvalid⟩ := text
  have hvalid' : ByteArray.IsValidUTF8 ⟨bytes.data⟩ := hvalid
  simp [fromUtf8, asBytes, String.fromUTF8?, hvalid', String.fromUTF8]

theorem asBytes_of_fromUtf8 {bytes : List UInt8} {text : String}
    (h : fromUtf8 bytes = some text) : asBytes text = bytes := by
  unfold fromUtf8 String.fromUTF8? at h
  split at h
  · simp only [Option.some.injEq] at h
    subst h
    simp [asBytes, String.fromUTF8]
  · cases h

theorem asBytes_inj {s t : String} (h : asBytes s = asBytes t) : s = t := by
  have hs := fromUtf8_asBytes s
  rw [h, fromUtf8_asBytes] at hs
  exact (Option.some.inj hs).symm

/-- A byte that is an ASCII digit. -/
def isDigit (b : UInt8) : Bool := 0x30 ≤ b && b ≤ 0x39

/-- The position after the digits that stand at `i`. -/
def skipDigits (bytes : List UInt8) (i : ℕ) : ℕ :=
  i + ((bytes.drop i).takeWhile isDigit).length

/-- Whether a digit stands at `i`. -/
def digitAt (bytes : List UInt8) (i : ℕ) : Bool := (bytes[i]?).any isDigit

/-- `int = "0" / ( digit1-9 *DIGIT )`: a leading zero is followed by no digit. -/
def readInt (bytes : List UInt8) (i : ℕ) : Except ℕ ℕ :=
  match bytes[i]? with
  | none => .error i
  | some b =>
    if b = 0x30 then .ok (i + 1)
    else if isDigit b then .ok (skipDigits bytes (i + 1))
    else .error i

/-- At least one digit, where the grammar requires one. -/
def readDigits (bytes : List UInt8) (i : ℕ) : Except ℕ ℕ :=
  if digitAt bytes i then .ok (skipDigits bytes i) else .error i

/-- `frac = "." 1*DIGIT`, when one is there. -/
def readFrac (bytes : List UInt8) (i : ℕ) : Except ℕ ℕ :=
  if bytes[i]? = some 0x2e then readDigits bytes (i + 1) else .ok i

/-- `exp = ("e" / "E") [ "-" / "+" ] 1*DIGIT`, when one is there. -/
def readExp (bytes : List UInt8) (i : ℕ) : Except ℕ ℕ :=
  if bytes[i]? = some 0x65 ∨ bytes[i]? = some 0x45 then
    if bytes[i + 1]? = some 0x2b ∨ bytes[i + 1]? = some 0x2d then readDigits bytes (i + 2)
    else readDigits bytes (i + 1)
  else .ok i

/-- Whether `bytes` are a JSON number: an optional minus, an integer, an optional
fraction and exponent, and nothing after. A refusal names the offset. -/
def validateJsonNumber (bytes : List UInt8) : Except ℕ Unit := do
  let i ← readInt bytes (if bytes[0]? = some 0x2d then 1 else 0)
  let i ← readFrac bytes i
  let i ← readExp bytes i
  if i = bytes.length then .ok () else .error i

/-- Whether a text is in the JSON number grammar. -/
def isNumber (text : String) : Bool := (validateJsonNumber (asBytes text)).isOk

example : isNumber "-2.50E-3" = true := by decide

example : isNumber "01" = false := by decide

/-- A number: the exact text that declared it, which is in the grammar. -/
structure Number where
  /-- The text. -/
  text : String
  /-- It is in the JSON number grammar. -/
  valid : isNumber text = true
  deriving DecidableEq

/-- A number from its text, when the grammar takes it. -/
def Number.new (text : String) : Option Number :=
  if h : isNumber text = true then some ⟨text, h⟩ else none

@[simp] theorem Number.new_text (n : Number) : Number.new n.text = some n := by
  simp [Number.new, n.valid]

theorem Number.text_of_new {text : String} {n : Number} (h : Number.new text = some n) :
    n.text = text := by
  unfold Number.new at h
  split at h
  · rw [← Option.some.inj h]
  · cases h

theorem Number.new_isSome {text : String} : (Number.new text).isSome = isNumber text := by
  unfold Number.new
  split <;> simp_all

end Guatiao

namespace Guatiao

/-- How deep the recursive walks follow. -/
def maxDepth : ℕ := 128

/-- Why a mutation was refused. -/
inductive ValueError where
  | notANumber
  | notUtf8
  | wrongKind
  | tooDeep
  | duplicateKey
  /-- Text or bytes were refused, at an offset, by the grammar they were read with. -/
  | unparsed (offset : ℕ) (expected : String)
  deriving DecidableEq, Repr

/-- What a refusal reads as. -/
def ValueError.words : ValueError → String
  | .notANumber => "not a JSON number (RFC 8259 section 6)"
  | .notUtf8 => "not valid UTF-8"
  | .wrongKind => "the value is not of the kind this needs"
  | .tooDeep => s!"nested deeper than {maxDepth}"
  | .duplicateKey => "a key was declared twice"
  | .unparsed offset expected => s!"refused at byte {offset}: expected {expected}"

/-- The kind of a node, numbered as the wire numbers it. -/
inductive Tag where
  | absent | null | bool | number | string | bytes | list | map
  deriving DecidableEq, Repr

/-- The byte of a tag. -/
def Tag.toByte : Tag → UInt8
  | .absent => 0
  | .null => 1
  | .bool => 2
  | .number => 3
  | .string => 4
  | .bytes => 5
  | .list => 6
  | .map => 7

/-- The tag of a byte, or none for one this build does not know. -/
def Tag.ofByte? (b : UInt8) : Option Tag :=
  match b.toNat with
  | 0 => some .absent
  | 1 => some .null
  | 2 => some .bool
  | 3 => some .number
  | 4 => some .string
  | 5 => some .bytes
  | 6 => some .list
  | 7 => some .map
  | _ => none

@[simp] theorem Tag.ofByte?_toByte (t : Tag) : Tag.ofByte? t.toByte = some t := by
  cases t <;> rfl

theorem Tag.toByte_of_ofByte? {b : UInt8} {t : Tag} (h : Tag.ofByte? b = some t) :
    t.toByte = b := by
  apply UInt8.toNat_inj.mp
  unfold Tag.ofByte? at h
  split at h <;> simp_all [Tag.toByte] <;> subst h <;> simp_all

/-- A value: a scalar, a list, or a map whose entries keep their order. -/
inductive Value where
  | absent
  | null
  | bool (b : Bool)
  | number (n : Number)
  | string (text : String)
  | bytes (data : List UInt8)
  | list (items : List Value)
  | map (entries : List (String × Value))

/-- One entry of a map. -/
abbrev Entry := String × Value

namespace Value

open Lib

/-- The kind of a value. -/
def tag : Value → Tag
  | .absent => .absent
  | .null => .null
  | .bool _ => .bool
  | .number _ => .number
  | .string _ => .string
  | .bytes _ => .bytes
  | .list _ => .list
  | .map _ => .map

/-- The entries of a map, none for any other kind. -/
def asMap : Value → Option (List Entry)
  | .map entries => some entries
  | _ => none

/-- The items of a list, none for any other kind. -/
def asList : Value → Option (List Value)
  | .list items => some items
  | _ => none

/-- The text of a string, none for any other kind. -/
def asStr : Value → Option String
  | .string text => some text
  | _ => none

/-- The value under a key of a map: `Map::get` behind the map's door. -/
def get (key : String) (v : Value) : Option Value := v.asMap.bind (AssocList.get key)

/-- The boolean, or `fallback` when absent or another kind. -/
def boolOr (fallback : Bool) : Option Value → Bool
  | some (.bool b) => b
  | _ => fallback

section Induction

variable {motive : Value → Prop}

@[induction_eliminator]
theorem induction (absent : motive .absent) (null : motive .null)
    (bool : ∀ b, motive (.bool b)) (number : ∀ n, motive (.number n))
    (string : ∀ text, motive (.string text)) (bytes : ∀ data, motive (.bytes data))
    (list : ∀ items, (∀ v ∈ items, motive v) → motive (.list items))
    (map : ∀ entries, (∀ k v, (k, v) ∈ entries → motive v) → motive (.map entries))
    (v : Value) : motive v :=
  @Value.rec motive (fun items => ∀ v ∈ items, motive v)
    (fun entries => ∀ k v, (k, v) ∈ entries → motive v) (fun entry => motive entry.2)
    absent null bool number string bytes list map
    (by simp)
    (fun _ _ hv hrest => by simpa using ⟨hv, hrest⟩)
    (by simp)
    (fun entry rest hentry hrest => by
      rintro k v hmem
      rcases List.mem_cons.mp hmem with heq | hmem
      · rw [← heq] at hentry
        exact hentry
      · exact hrest k v hmem)
    (fun _ _ hv => hv) v

end Induction

mutual

/-- The same kinds, the same keys in the same order, the same bytes. A number is its
text, so `1.10` and `1.1` differ. -/
def equal : Value → Value → Bool
  | .absent, .absent => true
  | .null, .null => true
  | .bool a, .bool b => a == b
  | .number m, .number n => m.text == n.text
  | .string s, .string t => s == t
  | .bytes a, .bytes b => a == b
  | .list xs, .list ys => equalItems xs ys
  | .map m, .map n => equalEntries m n
  | _, _ => false

/-- Pairwise, in order. -/
def equalItems : List Value → List Value → Bool
  | [], [] => true
  | x :: xs, y :: ys => equal x y && equalItems xs ys
  | _, _ => false

/-- Pairwise, in order, under the same keys. -/
def equalEntries : List (String × Value) → List (String × Value) → Bool
  | [], [] => true
  | (k, x) :: m, (l, y) :: n => k == l && equal x y && equalEntries m n
  | _, _ => false

end

theorem equalItems_iff {xs ys : List Value}
    (ih : ∀ x ∈ xs, ∀ y, equal x y = true ↔ x = y) : equalItems xs ys = true ↔ xs = ys := by
  induction xs generalizing ys with
  | nil => cases ys <;> simp [equalItems]
  | cons x xs ihxs =>
    cases ys with
    | nil => simp [equalItems]
    | cons y ys =>
      have htail : equalItems xs ys = true ↔ xs = ys :=
        ihxs fun z hz => ih z (List.mem_cons_of_mem _ hz)
      simp [equalItems, ih x (List.mem_cons_self ..), htail]

theorem equalEntries_iff {m n : List (String × Value)}
    (ih : ∀ k x, (k, x) ∈ m → ∀ y, equal x y = true ↔ x = y) :
    equalEntries m n = true ↔ m = n := by
  induction m generalizing n with
  | nil => cases n <;> simp [equalEntries]
  | cons p m ihm =>
    obtain ⟨k, x⟩ := p
    cases n with
    | nil => simp [equalEntries]
    | cons q n =>
      obtain ⟨l, y⟩ := q
      have htail := ihm (fun k z hz => ih k z (List.mem_cons_of_mem _ hz)) (n := n)
      simp [equalEntries, ih k x (List.mem_cons_self ..), htail]

theorem equal_iff (v w : Value) : equal v w = true ↔ v = w := by
  induction v generalizing w with
  | number m =>
    obtain ⟨s, hs⟩ := m
    cases w <;> simp [equal]
    next n =>
      obtain ⟨t, ht⟩ := n
      simp
  | list items ih => cases w <;> simp [equal, equalItems_iff ih]
  | map entries ih => cases w <;> simp [equal, equalEntries_iff ih]
  | _ => cases w <;> simp [equal]

instance : DecidableEq Value := fun v w => decidable_of_iff _ (equal_iff v w)

mutual

/-- How many nodes a tree has. -/
def nodes : Value → ℕ
  | .list items => 1 + nodesItems items
  | .map entries => 1 + nodesEntries entries
  | _ => 1

/-- The nodes of a list's items. -/
def nodesItems : List Value → ℕ
  | [] => 0
  | v :: rest => nodes v + nodesItems rest

/-- The nodes of a map's values. -/
def nodesEntries : List (String × Value) → ℕ
  | [] => 0
  | (_, v) :: rest => nodes v + nodesEntries rest

end

theorem nodes_pos (v : Value) : 0 < v.nodes := by
  cases v <;> simp only [nodes] <;> omega

variable {items : List Value} {v w : Value} {key : String}

theorem nodes_lt_of_mem (h : v ∈ items) :
    v.nodes < (Value.list items).nodes := by
  have hle : v.nodes ≤ nodesItems items := by
    induction items with
    | nil => exact absurd h List.not_mem_nil
    | cons w rest ih =>
      simp only [nodesItems]
      rcases List.mem_cons.mp h with rfl | hrest
      · omega
      · have hle := ih hrest
        omega
  simp only [nodes]
  omega

theorem nodes_lt_of_get (h : v.get key = some w) :
    w.nodes < v.nodes := by
  obtain ⟨entries, hentries, hget⟩ := Option.bind_eq_some_iff.mp h
  cases v with
  | map entries' =>
    obtain rfl : entries' = entries := Option.some.inj hentries
    have hle : w.nodes ≤ nodesEntries entries' := by
      have hmem := AssocList.mem_of_get hget
      clear hget hentries h
      induction entries' with
      | nil => exact absurd hmem List.not_mem_nil
      | cons p rest ih =>
        simp only [nodesEntries]
        rcases List.mem_cons.mp hmem with rfl | hrest
        · exact Nat.le_add_right _ _
        · have hle := ih hrest
          omega
    simp only [nodes]
    omega
  | _ => cases hentries

mutual

/-- How many containers are nested one inside the next. -/
def depth : Value → ℕ
  | .list items => 1 + depthItems items
  | .map entries => 1 + depthEntries entries
  | _ => 0

/-- The deepest of a list's items. -/
def depthItems : List Value → ℕ
  | [] => 0
  | v :: rest => max (depth v) (depthItems rest)

/-- The deepest of a map's values. -/
def depthEntries : List (String × Value) → ℕ
  | [] => 0
  | (_, v) :: rest => max (depth v) (depthEntries rest)

end

theorem depthItems_le {n : ℕ} :
    depthItems items ≤ n ↔ ∀ v ∈ items, v.depth ≤ n := by
  induction items with
  | nil => simp [depthItems]
  | cons v rest ih => rw [depthItems, Nat.max_le, ih, List.forall_mem_cons]

theorem depthEntries_le {entries : List Entry} {n : ℕ} :
    depthEntries entries ≤ n ↔ ∀ k v, (k, v) ∈ entries → v.depth ≤ n := by
  induction entries with
  | nil => simp [depthEntries]
  | cons p rest ih =>
    obtain ⟨k, v⟩ := p
    simp only [depthEntries, Nat.max_le, ih, List.mem_cons, Prod.mk.injEq]
    constructor
    · rintro ⟨hv, hrest⟩ l w (⟨rfl, rfl⟩ | hmem)
      · exact hv
      · exact hrest l w hmem
    · exact fun h => ⟨h k v (.inl ⟨rfl, rfl⟩), fun l w hmem => h l w (.inr hmem)⟩

theorem depth_lt_of_mem (h : v ∈ items) :
    v.depth < (Value.list items).depth := by
  have hle := depthItems_le.mp (Nat.le_refl _) v h
  simp only [depth]
  omega

theorem depth_lt_of_entry {entries : List Entry} {k : String} (h : (k, v) ∈ entries) :
    v.depth < (Value.map entries).depth := by
  have hle := depthEntries_le.mp (Nat.le_refl _) k v h
  simp only [depth]
  omega

theorem depth_lt_of_get (h : v.get key = some w) : w.depth < v.depth := by
  obtain ⟨entries, hentries, hget⟩ := Option.bind_eq_some_iff.mp h
  cases v with
  | map entries' =>
    obtain rfl : entries' = entries := Option.some.inj hentries
    exact depth_lt_of_entry (AssocList.mem_of_get hget)
  | _ => cases hentries

mutual

/-- Every node of the tree satisfies `P`. -/
def Everywhere (P : Value → Prop) : Value → Prop
  | .list items => P (.list items) ∧ EverywhereItems P items
  | .map entries => P (.map entries) ∧ EverywhereEntries P entries
  | v => P v

/-- Every node under a list satisfies `P`. -/
def EverywhereItems (P : Value → Prop) : List Value → Prop
  | [] => True
  | v :: rest => Everywhere P v ∧ EverywhereItems P rest

/-- Every node under a map satisfies `P`. -/
def EverywhereEntries (P : Value → Prop) : List (String × Value) → Prop
  | [] => True
  | (_, v) :: rest => Everywhere P v ∧ EverywhereEntries P rest

end

variable {P : Value → Prop}

theorem everywhereItems_iff :
    EverywhereItems P items ↔ ∀ v ∈ items, Everywhere P v := by
  induction items with
  | nil => simp [EverywhereItems]
  | cons v rest ih => simp [EverywhereItems, ih]

theorem everywhereEntries_iff {entries : List (String × Value)} :
    EverywhereEntries P entries ↔ ∀ k v, (k, v) ∈ entries → Everywhere P v := by
  induction entries with
  | nil => simp [EverywhereEntries]
  | cons p rest ih =>
    obtain ⟨k, v⟩ := p
    simp only [EverywhereEntries, ih, List.mem_cons, Prod.mk.injEq]
    constructor
    · rintro ⟨hv, hrest⟩ l w (⟨rfl, rfl⟩ | hmem)
      · exact hv
      · exact hrest l w hmem
    · exact fun h => ⟨h k v (.inl ⟨rfl, rfl⟩), fun l w hmem => h l w (.inr hmem)⟩

@[simp] theorem everywhere_list :
    Everywhere P (.list items) ↔ P (.list items) ∧ ∀ v ∈ items, Everywhere P v := by
  rw [Everywhere, everywhereItems_iff]

@[simp] theorem everywhere_map {entries : List (String × Value)} :
    Everywhere P (.map entries) ↔
      P (.map entries) ∧ ∀ k v, (k, v) ∈ entries → Everywhere P v := by
  rw [Everywhere, everywhereEntries_iff]

theorem Everywhere.root (h : Everywhere P v) : P v := by
  cases v
  case list => exact (everywhere_list.mp h).1
  case map => exact (everywhere_map.mp h).1
  all_goals simpa only [Everywhere] using h

theorem Everywhere.mono {Q : Value → Prop} (h : Everywhere P v) (hpq : ∀ w, P w → Q w) :
    Everywhere Q v := by
  induction v with
  | list items ih =>
    rw [everywhere_list] at h ⊢
    exact ⟨hpq _ h.1, fun v hv => ih v hv (h.2 v hv)⟩
  | map entries ih =>
    rw [everywhere_map] at h ⊢
    exact ⟨hpq _ h.1, fun k v hv => ih k v hv (h.2 k v hv)⟩
  | _ => exact hpq _ h

theorem Everywhere.get (h : Everywhere P v) (hget : v.get key = some w) :
    Everywhere P w := by
  obtain ⟨entries, hentries, hget⟩ := Option.bind_eq_some_iff.mp hget
  cases v with
  | map entries' =>
    obtain rfl : entries' = entries := Option.some.inj hentries
    exact (everywhere_map.mp h).2 key w (AssocList.mem_of_get hget)
  | _ => cases hentries

section Decidable

variable [DecidablePred P]

mutual

/-- Whether every node of a tree satisfies a test. -/
def decideEverywhere : ∀ v : Value, Decidable (Everywhere P v)
  | .list items => @instDecidableAnd _ _ inferInstance (decideEverywhereItems items)
  | .map entries => @instDecidableAnd _ _ inferInstance (decideEverywhereEntries entries)
  | .absent => inferInstanceAs (Decidable (P .absent))
  | .null => inferInstanceAs (Decidable (P .null))
  | .bool b => inferInstanceAs (Decidable (P (.bool b)))
  | .number n => inferInstanceAs (Decidable (P (.number n)))
  | .string text => inferInstanceAs (Decidable (P (.string text)))
  | .bytes data => inferInstanceAs (Decidable (P (.bytes data)))

/-- Whether every node under a list satisfies a test. -/
def decideEverywhereItems : ∀ items : List Value, Decidable (EverywhereItems P items)
  | [] => .isTrue trivial
  | v :: rest => @instDecidableAnd _ _ (decideEverywhere v) (decideEverywhereItems rest)

/-- Whether every node under a map satisfies a test. -/
def decideEverywhereEntries :
    ∀ entries : List (String × Value), Decidable (EverywhereEntries P entries)
  | [] => .isTrue trivial
  | (_, v) :: rest => @instDecidableAnd _ _ (decideEverywhere v) (decideEverywhereEntries rest)

end

instance (v : Value) : Decidable (Everywhere P v) := decideEverywhere v

end Decidable

instance {Q : List Entry → Prop} [DecidablePred Q] (v : Value) :
    Decidable (∀ entries, v = .map entries → Q entries) :=
  match v with
  | .map entries => decidable_of_iff (Q entries) ⟨fun h _ heq => map.inj heq ▸ h, fun h => h _ rfl⟩
  | .absent | .null | .bool _ | .number _ | .string _ | .bytes _ | .list _ =>
    .isTrue fun _ heq => by cases heq

instance {Q : List Value → Prop} [DecidablePred Q] (v : Value) :
    Decidable (∀ items, v = .list items → Q items) :=
  match v with
  | .list items => decidable_of_iff (Q items) ⟨fun h _ heq => list.inj heq ▸ h, fun h => h _ rfl⟩
  | .absent | .null | .bool _ | .number _ | .string _ | .bytes _ | .map _ =>
    .isTrue fun _ heq => by cases heq

/-- No map of the tree has two entries under one key. -/
def Distinct (v : Value) : Prop :=
  v.Everywhere fun w => ∀ entries, w = .map entries → (AssocList.keys entries).Nodup

instance (v : Value) : Decidable v.Distinct :=
  inferInstanceAs (Decidable (Everywhere _ v))

theorem distinct_map {entries : List Entry} :
    Distinct (.map entries) ↔
      (AssocList.keys entries).Nodup ∧ ∀ k v, (k, v) ∈ entries → v.Distinct := by
  simp [Distinct]

theorem distinct_list :
    Distinct (.list items) ↔ ∀ v ∈ items, v.Distinct := by
  simp [Distinct]

end Value

end Guatiao
