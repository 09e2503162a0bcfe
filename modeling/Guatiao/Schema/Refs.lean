import Guatiao.Lib.Loop
import Guatiao.Schema.Vocab

/-!
# Replacing references by what they name

`inlineRefs` copies a schema document with every local reference replaced by a copy of
the definition it names. A reference back into a definition being expanded, or one that
no longer fits the budget, is left as written. What the walk keeps as it goes (the
definitions open, what has been spent) is its state, threaded in the source's order.
-/

namespace Guatiao.Schema

open Lib

/-- Keywords whose value is an instance rather than a schema. -/
def dataKeywords : List String := [Vocab.default, Vocab.const, Vocab.examples, Vocab.enum]

/-- Keywords whose value maps names to schemas. -/
def nameMaps : List String :=
  [Vocab.properties, Vocab.defs, Vocab.definitions, Vocab.patternProperties,
    Vocab.dependentSchemas]

/-- The spellings a document's definitions go under, as the start of a reference to
one. -/
def pointerPrefixes : List (String × String) :=
  [("#/$defs/", Vocab.defs), ("#/definitions/", Vocab.definitions)]

/-- The budget is this many times the document's own size, and the floor. -/
def budgetFactor : ℕ := 32

/-- What any document may grow by, however small it is. -/
def budgetFloor : ℕ := 256 * 1024

/-- Whether a key of the root holds definitions. -/
def isDefinitions (key : String) : Bool := key == Vocab.defs || key == Vocab.definitions

mutual

/-- What copying a value costs: one a node and one a byte of text, a key's included. -/
def size : Value → ℕ
  | .map entries => 1 + sizeEntries entries
  | .list items => 1 + sizeItems items
  | .string text => 1 + (asBytes text).length
  | .number n => 1 + (asBytes n.text).length
  | .bytes data => 1 + data.length
  | _ => 1

/-- What copying a list's items costs. -/
def sizeItems : List Value → ℕ
  | [] => 0
  | v :: rest => size v + sizeItems rest

/-- What copying a map's entries costs. -/
def sizeEntries : List (String × Value) → ℕ
  | [] => 0
  | (key, v) :: rest => (asBytes key).length + size v + sizeEntries rest

end

/-- The rest of a text behind what it starts with. -/
def stripPrefix (start text : String) : Option (List Char) := start.toList.isPrefixOf? text.toList

/-- A text with each `~` and digit after it replaced. -/
def replaceTilde (digit by_ : Char) : List Char → List Char
  | '~' :: c :: rest =>
    if c = digit then by_ :: replaceTilde digit by_ rest
    else '~' :: replaceTilde digit by_ (c :: rest)
  | c :: rest => c :: replaceTilde digit by_ rest
  | [] => []

/-- A pointer segment without its two escapes, `~1` before `~0`. -/
def unescape (escaped : List Char) : String :=
  String.ofList (replaceTilde '0' '~' (replaceTilde '1' '/' escaped))

/-- Where the definition a reference names would be, and its name. -/
def pointer (reference : String) : Option (String × String) :=
  pointerPrefixes.findSome? fun (start, key) =>
    (stripPrefix start reference).map fun escaped => (key, unescape escaped)

/-- The definition a reference names, as where it is and its name, and its schema. -/
def lookup (root : List Entry) (reference : String) : Option ((String × String) × Value) :=
  (pointer reference).bind fun place =>
    (AssocList.get place.1 root).bind fun under =>
      (under.get place.2).map fun found => (place, found)

/-- What the walk keeps as it goes: the definitions being expanded right now, the size
of each definition measured so far, the budget and what is spent of it. No budget at
all refuses nothing. -/
structure Inliner where
  root : List Entry
  active : List String
  sizes : List (String × ℕ)
  budget : Option ℕ
  spent : ℕ

/-- A step of the walk. -/
abbrev Inline := StateT Inliner (Except ValueError)

namespace Inliner

/-- The definition a schema's reference names, with its name, when it can be expanded. -/
def target (s : Inliner) (schema : List Entry) : Option (String × Value) :=
  ((AssocList.get Vocab.ref schema).bind Value.asStr).bind fun reference =>
    (lookup s.root reference).bind fun ((_, name), found) =>
      if name ∈ s.active then none else some (name, found)

/-- Whether the definition `name` still fits what is left of the budget. -/
def affords (s : Inliner) (name : String) (target : Value) : Bool × Inliner :=
  let cost := (AssocList.get name s.sizes).getD (size target)
  ((s.budget.map fun budget => decide (s.spent + cost ≤ budget)).getD true,
    { s with sizes := AssocList.set name cost s.sizes })

end Inliner

/-- Following a chain of references: where it has come, and what it came through,
outermost first. -/
structure Chase where
  inliner : Inliner
  current : Value
  referrers : List (List Entry)
  followed : List String

namespace Chase

/-- One hop, if there is one that can be followed. -/
def turn (c : Chase) : Chase ⊕ Chase :=
  match c.current with
  | .map map =>
    match c.inliner.target map with
    | none => .inl c
    | some (name, target) =>
      match c.inliner.affords name target with
      | (false, inliner) => .inl { c with inliner := inliner }
      | (true, inliner) =>
        .inr ⟨{ inliner with active := name :: inliner.active }, target, c.referrers ++ [map],
          c.followed ++ [name]⟩
  | _ => .inl c

end Chase

/-- The names of the definitions under one spelling. -/
def namesUnder (root : List Entry) (key : String) : List String :=
  (((AssocList.get key root).bind Value.asMap).map AssocList.keys).getD []

/-- The names of all definitions. -/
def definitionNames (root : List Entry) : List String :=
  namesUnder root Vocab.defs ++ namesUnder root Vocab.definitions

theorem lookup_eq_some {root : List Entry} {reference key name : String} {found : Value}
    (h : lookup root reference = some ((key, name), found)) :
    (key = Vocab.defs ∨ key = Vocab.definitions) ∧
      ∃ under, AssocList.get key root = some (.map under) ∧
        AssocList.get name under = some found := by
  unfold lookup at h
  rw [Option.bind_eq_some_iff] at h
  obtain ⟨place, hplace, h⟩ := h
  rw [Option.bind_eq_some_iff] at h
  obtain ⟨under, hunder, h⟩ := h
  rw [Option.map_eq_some_iff] at h
  obtain ⟨found', hfound, heq⟩ := h
  cases heq
  refine ⟨?_, ?_⟩
  · obtain ⟨⟨start, key'⟩, hmem, hstrip⟩ := List.exists_of_findSome?_eq_some hplace
    rw [Option.map_eq_some_iff] at hstrip
    obtain ⟨_, _, heq⟩ := hstrip
    cases heq
    simp only [pointerPrefixes, List.mem_cons, Prod.mk.injEq, List.not_mem_nil, or_false] at hmem
    exact hmem.imp And.right And.right
  · cases under with
    | map entries => exact ⟨entries, hunder, hfound⟩
    | _ => cases hfound

theorem Inliner.target_eq_some {s : Inliner} {map : List Entry} {name : String} {found : Value}
    (h : s.target map = some (name, found)) :
    name ∉ s.active ∧ ∃ key under, (key = Vocab.defs ∨ key = Vocab.definitions) ∧
      AssocList.get key s.root = some (.map under) ∧ AssocList.get name under = some found := by
  unfold Inliner.target at h
  rw [Option.bind_eq_some_iff] at h
  obtain ⟨reference, -, h⟩ := h
  rw [Option.bind_eq_some_iff] at h
  obtain ⟨⟨⟨key, name'⟩, found'⟩, hlookup, h⟩ := h
  dsimp only at h
  split at h
  · cases h
  · next hactive =>
    cases h
    obtain ⟨hkey, under, hunder, hfound⟩ := lookup_eq_some hlookup
    exact ⟨hactive, key, under, hkey, hunder, hfound⟩

/-- How many definitions are not being expanded. -/
def Inliner.closed (s : Inliner) : ℕ :=
  ((definitionNames s.root).filter fun name => decide (name ∉ s.active)).length

theorem closed_lt {s s' : Inliner} {map : List Entry} {name : String} {found : Value}
    (h : s.target map = some (name, found)) (hroot : s'.root = s.root)
    (hactive : s'.active = name :: s.active) : s'.closed < s.closed := by
  obtain ⟨hnew, key, under, hkey, hunder, hfound⟩ := Inliner.target_eq_some h
  have hmem : name ∈ definitionNames s.root := by
    have hname : name ∈ namesUnder s.root key := by
      simp only [namesUnder, hunder, Option.bind_some, Value.asMap, Option.map_some,
        Option.getD_some]
      exact AssocList.key_mem (AssocList.mem_of_get hfound)
    rcases hkey with rfl | rfl
    · exact List.mem_append_left _ hname
    · exact List.mem_append_right _ hname
  have hfilter : ((definitionNames s.root).filter fun n => decide (n ∉ name :: s.active)) =
      ((definitionNames s.root).filter fun n => decide (n ∉ s.active)).filter
        fun n => decide (n ≠ name) := by
    rw [List.filter_filter]
    congr 1
    funext n
    simp only [List.mem_cons, not_or, Bool.decide_and]
  unfold Inliner.closed
  rw [hroot, hactive, hfilter]
  refine List.length_filter_lt_length_iff_exists.mpr ⟨name, ?_, by simp⟩
  simp [hmem, hnew]

/-- The loop over a chain of references: each hop opens one more definition. -/
def chaseLoop : Loop Chase Chase where
  body := Chase.turn
  measure c := c.inliner.closed
  decreases := by
    intro c c' h
    unfold Chase.turn at h
    split at h
    · next map =>
      split at h
      · cases h
      · next name target htarget =>
        split at h
        · cases h
        · next inliner hafford =>
          cases h
          have hinliner : inliner = (c.inliner.affords name target).2 := by rw [hafford]
          subst hinliner
          exact closed_lt htarget rfl rfl
    · cases h

namespace Inline

/-- Charges for what is copied. -/
def charge (units : ℕ) : Inline Unit := modify fun s => { s with spent := s.spent + units }

/-- A value copied exactly as written. -/
def data (v : Value) : Inline Value := do
  charge (size v)
  return v

/-- Every schema of a list. -/
def items (walk : Value → Inline Value) : List Value → Inline (List Value)
  | [] => return []
  | v :: rest => do
    let child ← walk v
    let children ← items walk rest
    return child :: children

/-- Every schema of a map of names, stored in turn after those already there. -/
def named (walk : Value → Inline Value) : List Entry → List Entry → Inline (List Entry)
  | [], out => return out
  | (key, v) :: rest, out => do
    charge (asBytes key).length
    let child ← walk v
    named walk rest (AssocList.set key child out)

/-- The value under `key` in a schema map, read as that keyword says. `deeper` walks a
schema one level down, and two; there is none at the last level. -/
def entry (deeper : Option ((Value → Inline Value) × (Value → Inline Value))) (key : String)
    (value : Value) : Inline Value :=
  if key ∈ dataKeywords then data value
  else
    match deeper with
    | none => throw .tooDeep
    | some (one, two) =>
      match value with
      | .map names =>
        if key ∈ nameMaps then do
          charge 1
          let out ← named two names []
          return .map out
        else one value
      | .list list => do
        charge 1
        let out ← items two list
        return .list out
      | _ => one value

variable (entry : String → Value → Inline Value)

/-- The entries of a schema map, but for a root's definitions. -/
def objectEntries (isRoot : Bool) : List Entry → List Entry → Inline (List Entry)
  | [], out => return out
  | (key, value) :: rest, out =>
    if isRoot && isDefinitions key then objectEntries isRoot rest out
    else do
      charge (asBytes key).length
      let child ← entry key value
      objectEntries isRoot rest (AssocList.set key child out)

/-- A schema map, entry by entry. -/
def object (isRoot : Bool) (map : List Entry) : Inline (List Entry) := do
  charge 1
  objectEntries entry isRoot map []

/-- What sits beside a reference, laid over what it named. -/
def beside (isRoot : Bool) : List Entry → List Entry → Inline (List Entry)
  | [], out => return out
  | (key, value) :: rest, out =>
    if key == Vocab.ref || isRoot && isDefinitions key then beside isRoot rest out
    else do
      let child ← entry key value
      beside isRoot rest (AssocList.set key child out)

/-- What sits beside each reference of a chain, the outermost's last so that it wins. -/
def lay (isRoot : Bool) : List (List Entry) → List Entry → Inline (List Entry)
  | [], out => return out
  | referrer :: inner, out => do
    let out ← lay false inner out
    beside entry isRoot referrer out

/-- The schema a chain of references ended at, with what sits beside each reference laid
over it. A chain that ended at something other than a map has nowhere to put that. -/
def expand (current : Value) (referrers : List (List Entry)) (isRoot : Bool) : Inline Value :=
  match current with
  | .map map => do
    let out ← object entry (isRoot && referrers.isEmpty) map
    let out ← lay entry isRoot referrers out
    return .map out
  | _ => data current

/-- A value as a schema: a reference is followed, through any chain of references, in
place. -/
def visit (isRoot : Bool) (v : Value) : Inline Value := do
  let c := chaseLoop.run ⟨← get, v, [], []⟩
  set c.inliner
  let out ← expand entry c.current c.referrers isRoot
  modify fun s => { s with active := s.active.filter fun name => name ∉ c.followed }
  return out

theorem filter_followed {followed active : List String} (hnew : ∀ name ∈ followed, name ∉ active) :
    (followed.reverse ++ active).filter (fun name => name ∉ followed) = active := by
  rw [List.filter_append]
  have hopened : followed.reverse.filter (fun name => decide (name ∉ followed)) = [] := by
    rw [List.filter_eq_nil_iff]
    intro name hname
    simpa using List.mem_reverse.mp hname
  have hkept : active.filter (fun name => decide (name ∉ followed)) = active := by
    rw [List.filter_eq_self]
    intro name hname
    rw [decide_eq_true_eq]
    exact fun h => hnew name h hname
  rw [hopened, hkept, List.nil_append]

end Inline

/-- A value as a schema, when so many levels are left. -/
def schemaAt : ℕ → Bool → Value → Inline Value
  | 0, _, _ => throw .tooDeep
  | 1, isRoot, v => Inline.visit (Inline.entry none) isRoot v
  | levels + 2, isRoot, v =>
    Inline.visit (Inline.entry (some (schemaAt (levels + 1) false, schemaAt levels false))) isRoot v

/-- A copy of a document with its references replaced, within a budget. -/
def inlineWith (budget : Option ℕ) (schema : Value) : Except ValueError Value :=
  (schemaAt maxDepth true schema ⟨schema.asMap.getD [], [], [], budget, 0⟩).map Prod.fst

/-- What copying a document may spend. -/
def budgetOf (schema : Value) : ℕ := size schema * budgetFactor + budgetFloor

/-- A copy of a document with every local reference replaced by the schema it names. -/
def inlineRefs (schema : Value) : Except ValueError Value :=
  inlineWith (some (budgetOf schema)) schema

end Guatiao.Schema
