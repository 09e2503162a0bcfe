import Guatiao.Lib.Visit
import Guatiao.Value.Tree

/-!
# A tree as it is stored

Every text, number, buffer, list and map records the allocator that made its block, and how much room
the block has. What stands under a tag is whatever its producer wrote there: a text that is not UTF-8,
a number outside the grammar, a tag this build does not know.
-/

namespace Guatiao

open Lib

/-- What an owned container records: the address of an allocator, unless that is null, and the room of
its block. Without room the block is not its own. -/
structure Held where
  alloc : Option ℕ
  cap : ℕ
  deriving DecidableEq, Repr

/-- The bytes of a text, a number, a buffer or a key, and what holds them. -/
structure Block where
  data : List UInt8
  held : Held
  deriving DecidableEq, Repr

/-- A node, with everything under it. -/
inductive Stored
  | absent
  | null
  | bool (b : Bool)
  | number (digits : Block)
  | string (text : Block)
  | bytes (buffer : Block)
  | list (items : List Stored) (held : Held)
  | map (entries : List (Block × Stored)) (held : Held)
  | unknown (tag : UInt32) (strange : 8 ≤ tag.toNat)

/-- Why a walk over stored nodes refused one. -/
inductive NodeError
  | unknownTag (tag : UInt32)
  | notANumber
  | notUtf8
  | wrongKind
  /-- An allocator refused a block. -/
  | alloc
  deriving DecidableEq, Repr

namespace Stored

/-- The number of a node's tag. -/
def tagNumber : Stored → UInt32
  | .absent => 0
  | .null => 1
  | .bool _ => 2
  | .number _ => 3
  | .string _ => 4
  | .bytes _ => 5
  | .list _ _ => 6
  | .map _ _ => 7
  | .unknown tag _ => tag

/-- What a container holds, in order. -/
def children : Stored → List Stored
  | .list items _ => items
  | .map entries _ => entries.map Prod.snd
  | _ => []

@[induction_eliminator]
theorem induction {motive : Stored → Prop} (absent : motive .absent) (null : motive .null)
    (bool : ∀ b, motive (.bool b)) (number : ∀ digits, motive (.number digits))
    (string : ∀ text, motive (.string text)) (bytes : ∀ buffer, motive (.bytes buffer))
    (list : ∀ items held, (∀ v ∈ items, motive v) → motive (.list items held))
    (map : ∀ entries held, (∀ k v, (k, v) ∈ entries → motive v) → motive (.map entries held))
    (unknown : ∀ tag strange, motive (.unknown tag strange)) (v : Stored) : motive v :=
  @Stored.rec motive (fun items => ∀ v ∈ items, motive v)
    (fun entries => ∀ k v, (k, v) ∈ entries → motive v) (fun entry => motive entry.2)
    absent null bool number string bytes list map unknown
    (by simp)
    (fun _ _ hv hrest => by simpa using ⟨hv, hrest⟩)
    (by simp)
    (fun entry rest hentry hrest => by
      rintro k v hmem
      rcases List.mem_cons.mp hmem with heq | hmem
      · rw [← heq] at hentry
        exact hentry
      · exact hrest k v hmem)
    (fun _ _ hv => hv) v

mutual

/-- How many nodes there are. -/
def size : Stored → ℕ
  | .list items _ => 1 + sizeItems items
  | .map entries _ => 1 + sizeEntries entries
  | _ => 1

def sizeItems : List Stored → ℕ
  | [] => 0
  | v :: rest => size v + sizeItems rest

def sizeEntries : List (Block × Stored) → ℕ
  | [] => 0
  | (_, v) :: rest => size v + sizeEntries rest

end

theorem sizeItems_eq (items : List Stored) : sizeItems items = (items.map size).sum := by
  induction items with
  | nil => rfl
  | cons v rest ih => simp [sizeItems, ih]

theorem sizeEntries_eq (entries : List (Block × Stored)) :
    sizeEntries entries = ((entries.map Prod.snd).map size).sum := by
  induction entries with
  | nil => rfl
  | cons e rest ih => simp [sizeEntries, ih]

theorem size_children (v : Stored) : (v.children.map size).sum < v.size := by
  cases v with
  | list items held =>
    rw [children, size, sizeItems_eq]
    omega
  | map entries held =>
    rw [children, size, sizeEntries_eq]
    omega
  | _ => simp [children, size]

/-- The walk that takes the children in order. -/
def inOrder : Descent Stored := ⟨children, size, size_children⟩

/-- The walk whose stack is extended with the children in order, so that it takes the last one first. -/
def lastFirst : Descent Stored :=
  ⟨fun v => v.children.reverse, size, fun v => by
    rw [List.map_reverse, List.sum_reverse]
    exact size_children v⟩

/-- Every node of a tree, each before what it holds. -/
def nodes (v : Stored) : List Stored := inOrder.visits [v]

theorem nodes_eq (v : Stored) : v.nodes = v :: v.children.flatMap nodes := inOrder.visits_singleton v

theorem lastFirst_perm (v : Stored) : (lastFirst.visits [v]).Perm v.nodes :=
  lastFirst.visits_perm inOrder (fun v => List.reverse_perm v.children) v

mutual

/-- A tree with each block's holding rewritten: the bytes' own, and the arrays' of so many elements. -/
def rehold (block : Block → Held) (array : ℕ → Held → Held) : Stored → Stored
  | .number digits => .number ⟨digits.data, block digits⟩
  | .string text => .string ⟨text.data, block text⟩
  | .bytes buffer => .bytes ⟨buffer.data, block buffer⟩
  | .list items held => .list (reholdItems block array items) (array items.length held)
  | .map entries held => .map (reholdEntries block array entries) (array entries.length held)
  | v => v

def reholdItems (block : Block → Held) (array : ℕ → Held → Held) : List Stored → List Stored
  | [] => []
  | v :: rest => rehold block array v :: reholdItems block array rest

def reholdEntries (block : Block → Held) (array : ℕ → Held → Held) :
    List (Block × Stored) → List (Block × Stored)
  | [] => []
  | (key, v) :: rest => (⟨key.data, block key⟩, rehold block array v) :: reholdEntries block array rest

end

variable {block : Block → Held} {array : ℕ → Held → Held}

theorem reholdItems_eq (items : List Stored) :
    reholdItems block array items = items.map (rehold block array) := by
  induction items with
  | nil => rfl
  | cons v rest ih => rw [reholdItems, ih, List.map_cons]

theorem reholdEntries_eq (entries : List (Block × Stored)) : reholdEntries block array entries =
    entries.map fun e => (⟨e.1.data, block e.1⟩, rehold block array e.2) := by
  induction entries with
  | nil => rfl
  | cons e rest ih => rw [reholdEntries, ih, List.map_cons]

theorem children_rehold (v : Stored) :
    (v.rehold block array).children = v.children.map (rehold block array) := by
  cases v with
  | list items held => rw [rehold, children, children, reholdItems_eq]
  | map entries held =>
    rw [rehold, children, children, reholdEntries_eq, List.map_map, List.map_map]
    rfl
  | _ => rfl

theorem nodes_rehold (v : Stored) : (v.rehold block array).nodes = v.nodes.map (rehold block array) :=
  inOrder.visits_map (rehold block array) children_rehold [v]

/-- A tree's content: what it is, whatever holds it. -/
def content : Stored → Stored := rehold (fun _ => ⟨none, 0⟩) fun _ _ => ⟨none, 0⟩

/-- Whether some bytes are UTF-8. -/
def isText (data : List UInt8) : Bool := (fromUtf8 data).isSome

/-- Whether some bytes are a JSON number. -/
def isDigits (data : List UInt8) : Bool := (validateJsonNumber data).isOk

/-- Whether a node passes its own door: a tag this build knows, a number in the grammar, text and keys
that are UTF-8. -/
def passes : Stored → Bool
  | .number digits => isDigits digits.data
  | .string text => isText text.data
  | .map entries _ => entries.all fun e => isText e.1.data
  | .unknown _ _ => false
  | _ => true

/-- Whether every node of a tree passes its door. -/
def WellFormed (v : Stored) : Prop := ∀ n ∈ v.nodes, n.passes = true

end Stored

end Guatiao
