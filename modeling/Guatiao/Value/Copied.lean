import Guatiao.Lib.Loop
import Guatiao.Lib.Yields
import Guatiao.Value.Settled

/-!
# Copying

A copy is made over a stack of containers being filled. A node that lives in this build's wiping
allocator is copied there, whatever allocator was asked for, unless the copy is exact.
-/

namespace Guatiao

open Lib Stored

/-- How a copy is made: the process's allocators, the address of the one asked for, whether a node that
lives in the wiping allocator is copied there instead, and which requests each allocator grants. -/
structure Copy where
  allocators : Allocators
  alloc : ℕ
  keepsSecrets : Bool
  grants : ℕ → ℕ → Bool

/-- A step of a copy: the number of requests made so far goes along. -/
abbrev Copier := StateT ℕ (Except NodeError)

/-- What a container's copy has so far, and what is left of the source to copy. -/
inductive Filling
  | list (built left : List Stored)
  | map (built left : List (Block × Stored))

/-- A container being copied: what holds its array, the key it goes under in its parent when the parent
is a map, and where its array and its keys are built. -/
structure Copying where
  filling : Filling
  held : Held
  key : Option (List UInt8)
  alloc : ℕ

/-- A child is either copied on the spot or opened as a container to fill. -/
inductive CopyStep
  | leaf (v : Stored)
  | opened (container : Copying)

namespace Copying

def intoValue (c : Copying) : Stored :=
  match c.filling with
  | .list built _ => .list built c.held
  | .map built _ => .map built c.held

/-- The next child, with the key it goes under when this is a map. -/
def next (c : Copying) : Option ((Option (List UInt8) × Stored) × Copying) :=
  match c.filling with
  | .list _ [] | .map _ [] => none
  | .list built (v :: left) => some ((none, v), { c with filling := .list built left })
  | .map built ((key, v) :: left) => some ((some key.data, v), { c with filling := .map built left })

end Copying

namespace Copy

variable (how : Copy)

/-- Where a copy of what an allocator made goes. -/
def home (recorded : Option ℕ) : ℕ :=
  if how.keepsSecrets && how.allocators.livesInWiping recorded then how.allocators.wiping else how.alloc

/-- A block from an allocator. -/
def request (alloc : ℕ) : Copier Unit := do
  let n ← get
  if how.grants alloc n then set (n + 1) else throw .alloc

/-- Makes room for so many elements more; what records no allocator adopts one. -/
def reserve (least : ℕ) (held : Held) (len extra adopt : ℕ) : Copier Held :=
  if len + extra ≤ held.cap ∧ 0 < held.cap then pure held
  else if extra = 0 ∧ held.cap = 0 ∧ len = 0 then pure held
  else do
    how.request (held.alloc.getD adopt)
    pure ⟨some (held.alloc.getD adopt), max (max (len + extra) (2 * held.cap)) least⟩

/-- The bytes of a text, a number or a buffer, in a block of its own unless there are none. -/
def newIn (alloc : ℕ) (data : List UInt8) : Copier Block :=
  if data = [] then pure ⟨[], ⟨some alloc, 0⟩⟩
  else do
    let held ← how.reserve 8 ⟨some alloc, 0⟩ 0 data.length alloc
    pure ⟨data, held⟩

/-- An empty array with room for so many elements. -/
def withCapacityIn (alloc capacity : ℕ) : Copier Held :=
  if 0 < capacity then how.reserve 4 ⟨some alloc, 0⟩ 0 capacity alloc else pure ⟨some alloc, 0⟩

def openList (items : List Stored) (held : Held) (key : Option (List UInt8)) : Copier Copying := do
  let alloc := how.home held.alloc
  let array ← how.withCapacityIn alloc items.length
  pure ⟨.list [] items, array, key, alloc⟩

/-- Where a map is copied: a map with a key in the wiping allocator goes there whole. -/
def mapHome (entries : List (Block × Stored)) (held : Held) : ℕ :=
  if how.keepsSecrets && entries.any fun e => how.allocators.livesInWiping e.1.held.alloc then
    how.allocators.wiping
  else how.home held.alloc

def openMap (entries : List (Block × Stored)) (held : Held) (key : Option (List UInt8)) : Copier Copying := do
  let alloc := how.mapHome entries held
  let array ← how.withCapacityIn alloc entries.length
  pure ⟨.map [] entries, array, key, alloc⟩

/-- Adds a finished copy; a map's child is reached with its key. -/
def attach (c : Copying) (key : Option (List UInt8)) (v : Stored) : Copier Copying :=
  match c.filling with
  | .list built left => do
    let held ← how.reserve 4 c.held built.length 1 c.alloc
    pure { c with filling := .list (built ++ [v]) left, held := held }
  | .map built left => do
    let key ← how.newIn c.alloc (key.getD [])
    let held ← how.reserve 4 c.held built.length 1 c.alloc
    pure { c with filling := .map (built ++ [(key, v)]) left, held := held }

/-- One node copied, or opened. -/
def step (node : Stored) (key : Option (List UInt8)) : Copier CopyStep :=
  match node with
  | .list items held => CopyStep.opened <$> how.openList items held key
  | .map entries held =>
    if entries.all fun e => isText e.1.data then CopyStep.opened <$> how.openMap entries held key
    else throw .notUtf8
  | .absent => pure (.leaf .absent)
  | .null => pure (.leaf .null)
  | .bool b => pure (.leaf (.bool b))
  | .string text =>
    if isText text.data then (fun b => .leaf (.string b)) <$> how.newIn (how.home text.held.alloc) text.data
    else throw .notUtf8
  | .number digits =>
    if isDigits digits.data then
      (fun b => .leaf (.number b)) <$> how.newIn (how.home digits.held.alloc) digits.data
    else throw .wrongKind
  | .bytes buffer => (fun b => .leaf (.bytes b)) <$> how.newIn (how.home buffer.held.alloc) buffer.data
  | .unknown tag _ => throw (.unknownTag tag)

/-- One turn of the loop: the container on top of the stack, those below it, and the requests so far. -/
def turn (s : Copying × List Copying × ℕ) :
    Except NodeError (Copying × ℕ) ⊕ (Copying × List Copying × ℕ) :=
  match s with
  | (top, rest, n) =>
    match top.next with
    | some ((key, node), top) =>
      match how.step node key n with
      | .error e => .inl (.error e)
      | .ok (.opened container, n) => .inr (container, top :: rest, n)
      | .ok (.leaf v, n) =>
        match how.attach top key v n with
        | .error e => .inl (.error e)
        | .ok (top, n) => .inr (top, rest, n)
    | none =>
      match rest with
      | [] => .inl (.ok (top, n))
      | parent :: rest =>
        match how.attach parent top.key top.intoValue n with
        | .error e => .inl (.error e)
        | .ok (parent, n) => .inr (parent, rest, n)

end Copy

namespace Copying

/-- What of the source is left to copy into a container. -/
def left (c : Copying) : List Stored :=
  match c.filling with
  | .list _ left => left
  | .map _ left => left.map Prod.snd

/-- How many turns a container takes at most. -/
def weight (c : Copying) : ℕ := 1 + 2 * (c.left.map size).sum

theorem left_of_next {c c' : Copying} {key : Option (List UInt8)} {v : Stored}
    (h : c.next = some ((key, v), c')) : c.left = v :: c'.left := by
  obtain ⟨filling, held, key', alloc⟩ := c
  cases filling with
  | list built left =>
    cases left with
    | nil => cases h
    | cons w left =>
      cases h
      rfl
  | map built left =>
    cases left with
    | nil => cases h
    | cons e left =>
      cases h
      rfl

theorem weight_of_next {c c' : Copying} {key : Option (List UInt8)} {v : Stored}
    (h : c.next = some ((key, v), c')) : c.weight = 2 * v.size + c'.weight := by
  rw [weight, weight, left_of_next h, List.map_cons, List.sum_cons]
  omega

end Copying

theorem Stored.size_pos (v : Stored) : 0 < v.size := (Nat.zero_le _).trans_lt (size_children v)

/-- A tree with the room of its blocks forgotten. -/
def Stored.anchored : Stored → Stored := rehold (fun b => ⟨b.held.alloc, 0⟩) fun _ held => ⟨held.alloc, 0⟩

/-- A block with its room forgotten. -/
def Block.anchored (b : Block) : Block := ⟨b.data, ⟨b.held.alloc, 0⟩⟩

namespace Copy

variable (how : Copy)

mutual

/-- What a copy comes to, the room of its blocks forgotten. -/
def copied : Stored → Stored
  | .list items held => .list (copiedItems items) ⟨some (how.home held.alloc), 0⟩
  | .map entries held =>
    .map (copiedEntries (how.mapHome entries held) entries) ⟨some (how.mapHome entries held), 0⟩
  | .number digits => .number ⟨digits.data, ⟨some (how.home digits.held.alloc), 0⟩⟩
  | .string text => .string ⟨text.data, ⟨some (how.home text.held.alloc), 0⟩⟩
  | .bytes buffer => .bytes ⟨buffer.data, ⟨some (how.home buffer.held.alloc), 0⟩⟩
  | v => v

def copiedItems : List Stored → List Stored
  | [] => []
  | v :: rest => copied v :: copiedItems rest

def copiedEntries (alloc : ℕ) : List (Block × Stored) → List (Block × Stored)
  | [] => []
  | (key, v) :: rest => (⟨key.data, ⟨some alloc, 0⟩⟩, copied v) :: copiedEntries alloc rest

end

theorem copiedItems_eq (items : List Stored) : how.copiedItems items = items.map how.copied := by
  induction items with
  | nil => rfl
  | cons v rest ih => rw [copiedItems, ih, List.map_cons]

theorem copiedEntries_eq (alloc : ℕ) (entries : List (Block × Stored)) : how.copiedEntries alloc entries =
    entries.map fun e => (⟨e.1.data, ⟨some alloc, 0⟩⟩, how.copied e.2) := by
  induction entries with
  | nil => rfl
  | cons e rest ih => rw [copiedEntries, ih, List.map_cons]

/-- A container finished: what it has, and what is left of the source copied. -/
def complete (c : Copying) : Stored :=
  match c.filling with
  | .list built left => .list (built.map anchored ++ left.map how.copied) ⟨some c.alloc, 0⟩
  | .map built left =>
    .map (built.map (Prod.map Block.anchored anchored) ++ how.copiedEntries c.alloc left) ⟨some c.alloc, 0⟩

theorem complete_list (built left : List Stored) (held : Held) (key : Option (List UInt8)) (alloc : ℕ) :
    how.complete ⟨.list built left, held, key, alloc⟩ =
      .list (built.map anchored ++ left.map how.copied) ⟨some alloc, 0⟩ := rfl

theorem complete_map (built left : List (Block × Stored)) (held : Held) (key : Option (List UInt8)) (alloc : ℕ) :
    how.complete ⟨.map built left, held, key, alloc⟩ = .map (built.map (Prod.map Block.anchored anchored) ++
      how.copiedEntries alloc left) ⟨some alloc, 0⟩ := rfl

/-- A container finished with one child more before what is left. -/
def plug (c : Copying) (key : Option (List UInt8)) (v : Stored) : Stored :=
  match c.filling with
  | .list built left => .list (built.map anchored ++ v :: left.map how.copied) ⟨some c.alloc, 0⟩
  | .map built left =>
    .map (built.map (Prod.map Block.anchored anchored) ++
      (⟨key.getD [], ⟨some c.alloc, 0⟩⟩, v) :: how.copiedEntries c.alloc left) ⟨some c.alloc, 0⟩

/-- A stack finished: each container goes into the one below it. -/
def finish (v : Stored) (key : Option (List UInt8)) : List Copying → Stored
  | [] => v
  | parent :: rest => finish (how.plug parent key v) parent.key rest

/-- A container's array is where it is built. -/
def Placed (c : Copying) : Prop := c.held.alloc = some c.alloc

variable {c : Copying} {key : Option (List UInt8)} {v : Stored} {n m : ℕ}
   {s s' : Copying × List Copying × ℕ}

theorem complete_of_next {c' : Copying} (h : c.next = some ((key, v), c')) :
    how.complete c = how.plug c' key (how.copied v) ∧ c'.key = c.key ∧ c'.held = c.held ∧ c'.alloc = c.alloc := by
  obtain ⟨filling, held, key', alloc⟩ := c
  cases filling with
  | list built left =>
    cases left with
    | nil => cases h
    | cons w left =>
      cases h
      exact ⟨rfl, rfl, rfl, rfl⟩
  | map built left =>
    cases left with
    | nil => cases h
    | cons e left =>
      cases h
      exact ⟨rfl, rfl, rfl, rfl⟩

theorem complete_of_done (h : c.next = none) (hplaced : Placed c) :
    how.complete c = c.intoValue.anchored := by
  obtain ⟨filling, held, key', alloc⟩ := c
  have halloc : held.alloc = some alloc := hplaced
  cases filling with
  | list built left =>
    cases left with
    | nil =>
      rw [complete_list, List.map_nil, List.append_nil, Copying.intoValue, anchored, rehold, reholdItems_eq, halloc]
    | cons w left => cases h
  | map built left =>
    cases left with
    | nil =>
      rw [complete_map, copiedEntries, List.append_nil, Copying.intoValue, anchored, rehold, reholdEntries_eq, halloc]
      rfl
    | cons e left => cases h

theorem reserve_yields {least len extra adopt : ℕ} {held : Held} (h : held.alloc = some adopt) :
    Yields (how.reserve least held len extra adopt) n fun held' _ => held'.alloc = some adopt := by
  rw [reserve]
  split
  · simpa using h
  · split
    · simpa using h
    · rw [yields_bind]
      intro _ m _
      rw [yields_pure, h]
      rfl

theorem newIn_yields {alloc : ℕ} {data : List UInt8} :
    Yields (how.newIn alloc data) n fun b _ => b.anchored = ⟨data, ⟨some alloc, 0⟩⟩ := by
  rw [newIn]
  split
  case isTrue h =>
    rw [yields_pure, h]
    rfl
  case isFalse h =>
    rw [yields_bind]
    refine (how.reserve_yields rfl).mono fun held m hheld => ?_
    rw [yields_pure, Block.anchored, hheld]

theorem withCapacityIn_yields {alloc capacity : ℕ} :
    Yields (how.withCapacityIn alloc capacity) n fun held _ => held.alloc = some alloc := by
  rw [withCapacityIn]
  split
  · exact how.reserve_yields rfl
  · rw [yields_pure]

theorem attach_left :
    Yields (how.attach c key v) n fun c' _ => c'.left = c.left := by
  have hany {α : Type} (x : Copier α) (m : ℕ) : Yields x m fun _ _ => True := fun _ _ _ => trivial
  obtain ⟨filling, held, key', alloc⟩ := c
  cases filling with
  | list built left =>
    rw [attach, yields_bind]
    exact (hany _ n).mono fun _ _ _ => yields_pure.mpr rfl
  | map built left =>
    rw [attach, yields_bind]
    refine (hany _ n).mono fun _ m _ => ?_
    rw [yields_bind]
    exact (hany _ m).mono fun _ _ _ => yields_pure.mpr rfl

theorem attach_yields (hplaced : Placed c) :
    Yields (how.attach c key v) n fun c' _ =>
      Placed c' ∧ how.complete c' = how.plug c key v.anchored ∧ c'.key = c.key := by
  obtain ⟨filling, held, key', alloc⟩ := c
  cases filling with
  | list built left =>
    rw [attach, yields_bind]
    refine (how.reserve_yields hplaced).mono fun held' m hheld => ?_
    rw [yields_pure]
    refine ⟨hheld, ?_, rfl⟩
    rw [complete_list, List.map_append, List.append_assoc]
    rfl
  | map built left =>
    rw [attach, yields_bind]
    refine how.newIn_yields.mono fun b m hb => ?_
    rw [yields_bind]
    refine (how.reserve_yields hplaced).mono fun held' m hheld => ?_
    rw [yields_pure]
    refine ⟨hheld, ?_, rfl⟩
    rw [complete_map, List.map_append, List.append_assoc, List.map_singleton, Prod.map_apply, hb]
    rfl

/-- What a step answers for a node. -/
def Steps (node : Stored) (key : Option (List UInt8)) : CopyStep → Prop
  | .leaf v => v.anchored = how.copied node
  | .opened c => Placed c ∧ how.complete c = how.copied node ∧ c.key = key ∧ c.left = node.children

theorem step_yields {node : Stored} :
    Yields (how.step node key) n fun s _ => how.Steps node key s := by
  cases node with
  | absent => exact yields_pure.mpr rfl
  | null => exact yields_pure.mpr rfl
  | bool b => exact yields_pure.mpr rfl
  | unknown tag strange => exact yields_throw
  | number digits =>
    rw [step]
    split
    · rw [map_eq_pure_bind, yields_bind]
      exact how.newIn_yields.mono fun b m hb => yields_pure.mpr (congrArg Stored.number hb)
    · exact yields_throw
  | string text =>
    rw [step]
    split
    · rw [map_eq_pure_bind, yields_bind]
      exact how.newIn_yields.mono fun b m hb => yields_pure.mpr (congrArg Stored.string hb)
    · exact yields_throw
  | bytes buffer =>
    rw [step, map_eq_pure_bind, yields_bind]
    exact how.newIn_yields.mono fun b m hb => yields_pure.mpr (congrArg Stored.bytes hb)
  | list items held =>
    rw [step, map_eq_pure_bind, yields_bind, openList, yields_bind]
    refine how.withCapacityIn_yields.mono fun array m harray => ?_
    rw [yields_pure, yields_pure]
    refine ⟨harray, ?_, rfl, rfl⟩
    rw [complete_list, copied, copiedItems_eq]
    rfl
  | map entries held =>
    rw [step]
    split
    · rw [map_eq_pure_bind, yields_bind, openMap, yields_bind]
      refine how.withCapacityIn_yields.mono fun array m harray => ?_
      rw [yields_pure, yields_pure]
      refine ⟨harray, ?_, rfl, rfl⟩
      rw [complete_map, copied]
      rfl
    · exact yields_throw

theorem weight_of_opened {node : Stored}
    (h : how.Steps node key (.opened c)) : c.weight < 2 * node.size := by
  have hsize := size_children node
  rw [Copying.weight, h.2.2.2]
  omega

/-- What a turn that goes on does: it opens a child, it attaches one copied on the spot, or it attaches
the top's own copy to the container below. -/
inductive Goes : Copying × List Copying × ℕ → Copying × List Copying × ℕ → Prop
  | opened {top top' c : Copying} {rest : List Copying} {key : Option (List UInt8)} {node : Stored} {n m : ℕ}
    (hnext : top.next = some ((key, node), top')) (hstep : how.Steps node key (.opened c)) :
    Goes (top, rest, n) (c, top' :: rest, m)
  | leaf {top top' c : Copying} {rest : List Copying} {key : Option (List UInt8)} {node v : Stored} {n k m : ℕ}
    (hnext : top.next = some ((key, node), top')) (hstep : how.Steps node key (.leaf v))
    (hattach : how.attach top' key v k = .ok (c, m)) : Goes (top, rest, n) (c, rest, m)
  | popped {top parent c : Copying} {rest : List Copying} {n m : ℕ} (hnext : top.next = none)
    (hattach : how.attach parent top.key top.intoValue n = .ok (c, m)) :
    Goes (top, parent :: rest, n) (c, rest, m)

theorem turn_cases (s : Copying × List Copying × ℕ) :
    match how.turn s with
    | .inr s' => how.Goes s s'
    | .inl (.ok (c, _)) => c = s.1 ∧ s.1.next = none ∧ s.2.1 = []
    | .inl (.error _) => True := by
  obtain ⟨top, rest, n⟩ := s
  unfold turn
  cases hnext : top.next with
  | some reached =>
    obtain ⟨⟨key, node⟩, top'⟩ := reached
    cases hstep : how.step node key n with
    | error e => simp only [hnext, hstep]
    | ok answer =>
      obtain ⟨answer, m⟩ := answer
      have hanswer := how.step_yields answer m hstep
      cases answer with
      | opened c =>
        simp only [hnext, hstep]
        exact .opened hnext hanswer
      | leaf v =>
        cases hattach : how.attach top' key v m with
        | error e => simp only [hnext, hstep, hattach]
        | ok attached =>
          simp only [hnext, hstep, hattach]
          exact .leaf hnext hanswer hattach
  | none =>
    cases rest with
    | nil => simp only [hnext, and_self]
    | cons parent rest =>
      cases hattach : how.attach parent top.key top.intoValue n with
      | error e => simp only [hnext, hattach]
      | ok attached =>
        simp only [hnext, hattach]
        exact .popped hnext hattach

theorem goes_of_turn (h : how.turn s = .inr s') : how.Goes s s' := by
  have hcases := how.turn_cases s
  rwa [h] at hcases

theorem goes_weight (h : how.Goes s s') :
    ((s'.1 :: s'.2.1).map Copying.weight).sum < ((s.1 :: s.2.1).map Copying.weight).sum := by
  cases h with
  | opened hnext hstep =>
    have hlt := how.weight_of_opened hstep
    simp only [List.map_cons, List.sum_cons, Copying.weight_of_next hnext]
    omega
  | @leaf top top' c rest key node v n k m hnext hstep hattach =>
    have hleft := how.attach_left c m hattach
    have hpos := node.size_pos
    have hweight : c.weight = top'.weight := by
      rw [Copying.weight, hleft, Copying.weight]
    simp only [List.map_cons, List.sum_cons, Copying.weight_of_next hnext, hweight]
    omega
  | @popped top parent c rest n m hnext hattach =>
    have hleft := how.attach_left c m hattach
    have hweight : c.weight = parent.weight := by
      rw [Copying.weight, hleft, Copying.weight]
    have hpos : 0 < top.weight := by
      rw [Copying.weight]
      omega
    simp only [List.map_cons, List.sum_cons, hweight]
    omega

/-- The loop that fills a container and every container under it. -/
def filling : Loop (Copying × List Copying × ℕ) (Except NodeError (Copying × ℕ)) where
  body := how.turn
  measure s := ((s.1 :: s.2.1).map Copying.weight).sum
  decreases h := how.goes_weight (how.goes_of_turn h)

/-- What the stack comes to, finished. -/
def outcome (s : Copying × List Copying × ℕ) : Stored := how.finish (how.complete s.1) s.1.key s.2.1

/-- Every container on the stack is placed. -/
def AllPlaced (s : Copying × List Copying × ℕ) : Prop := ∀ c ∈ s.1 :: s.2.1, Placed c

theorem goes_outcome (h : how.Goes s s') (hplaced : AllPlaced s) :
    AllPlaced s' ∧ how.outcome s' = how.outcome s := by
  cases h with
  | @opened top top' c rest key node n m hnext hstep =>
    obtain ⟨hcomplete, hkey, hheld, halloc⟩ := how.complete_of_next hnext
    obtain ⟨hplaced', hnode, hckey, -⟩ := hstep
    obtain ⟨htop, hrest⟩ := List.forall_mem_cons.mp hplaced
    have htop' : Placed top' := by
      rw [Placed, hheld, halloc]
      exact htop
    refine ⟨List.forall_mem_cons.mpr ⟨hplaced', List.forall_mem_cons.mpr ⟨htop', hrest⟩⟩, ?_⟩
    simp only [outcome, finish]
    rw [hcomplete, hnode, hckey, hkey]
  | @leaf top top' c rest key node v n k m hnext hstep hattach =>
    obtain ⟨hcomplete, hkey, hheld, halloc⟩ := how.complete_of_next hnext
    obtain ⟨htop, hrest⟩ := List.forall_mem_cons.mp hplaced
    have htop' : Placed top' := by
      rw [Placed, hheld, halloc]
      exact htop
    obtain ⟨hc, hcc, hck⟩ := how.attach_yields htop' c m hattach
    refine ⟨List.forall_mem_cons.mpr ⟨hc, hrest⟩, ?_⟩
    simp only [outcome]
    rw [hcc, hck, hkey, hcomplete, show v.anchored = how.copied node from hstep]
  | @popped top parent c rest n m hnext hattach =>
    obtain ⟨htop, hbelow⟩ := List.forall_mem_cons.mp hplaced
    obtain ⟨hparent, hrest⟩ := List.forall_mem_cons.mp hbelow
    obtain ⟨hc, hcc, hck⟩ := how.attach_yields hparent c m hattach
    refine ⟨List.forall_mem_cons.mpr ⟨hc, hrest⟩, ?_⟩
    simp only [outcome, finish]
    rw [hcc, hck, how.complete_of_done hnext htop]

theorem filling_run (hplaced : AllPlaced s)
    (h : how.filling.run s = .ok (c, m)) : c.intoValue.anchored = how.outcome s := by
  refine how.filling.run_invariant (I := fun s' => AllPlaced s' ∧ how.outcome s' = how.outcome s)
    (Q := fun r => ∀ c m, r = .ok (c, m) → c.intoValue.anchored = how.outcome s)
    (fun s₁ s₂ hs₁ hturn => ?_) (fun s₁ r hs₁ hstop c m hr => ?_) ⟨hplaced, rfl⟩ c m h
  · obtain ⟨hplaced₁, heq⟩ := how.goes_outcome (how.goes_of_turn hturn) hs₁.1
    exact ⟨hplaced₁, heq.trans hs₁.2⟩
  · subst hr
    have hdone := how.turn_cases s₁
    rw [show how.turn s₁ = _ from hstop] at hdone
    obtain ⟨htop, hnext, hrest⟩ := hdone
    rw [htop, ← hs₁.2, outcome, hrest, finish,
      how.complete_of_done hnext (hs₁.1 _ List.mem_cons_self)]

/-- A deep copy. -/
def copyValueHow (v : Stored) (n : ℕ) : Except NodeError (Stored × ℕ) :=
  match how.step v none n with
  | .error e => .error e
  | .ok (.leaf w, n) => .ok (w, n)
  | .ok (.opened root, n) => (how.filling.run (root, [], n)).map fun p => (p.1.intoValue, p.2)

theorem copyValueHow_eq {w : Stored} (h : how.copyValueHow v n = .ok (w, m)) :
    w.anchored = how.copied v := by
  rw [copyValueHow] at h
  cases hstep : how.step v none n with
  | error e =>
    rw [hstep] at h
    cases h
  | ok answer =>
    obtain ⟨answer, k⟩ := answer
    have hanswer := how.step_yields answer k hstep
    rw [hstep] at h
    cases answer with
    | leaf x =>
      cases h
      exact hanswer
    | opened root =>
      obtain ⟨hplaced, hcomplete, -, -⟩ := hanswer
      simp only at h
      cases hrun : how.filling.run (root, [], k) with
      | error e =>
        rw [hrun] at h
        cases h
      | ok built =>
        rw [hrun] at h
        cases h
        have hone : AllPlaced (root, [], k) := List.forall_mem_singleton.mpr hplaced
        exact (how.filling_run hone hrun).trans hcomplete

end Copy

/-- A deep copy through an allocator, in which a secret stays one. -/
def copyValue (a : Allocators) (grants : ℕ → ℕ → Bool) (alloc : ℕ) : Stored → ℕ → Except NodeError (Stored × ℕ) :=
  (Copy.mk a alloc true grants).copyValueHow

end Guatiao
