import Guatiao.Lib.InPlace
import Guatiao.Value.Recorded

/-!
# Moving a tree's storage, in place

Every block that the target did not make is moved into one it did, except that a block in this build's
wiping allocator stays there. The walk is one loop over a stack, and a refused request stops it with the
tree whole.
-/

namespace Guatiao

open Lib Change

/-- What the settle does with a block: leaves it, points its container at the wiping allocator's own
struct, or moves it. -/
inductive Settle
  | keep
  | repoint
  | move
  deriving DecidableEq, Repr

def Home.settle (a : Allocators) (home : Home) (recorded : Option ℕ) : Settle :=
  if home.holds recorded then .keep
  else if home.wiping.isSome && a.livesInWiping recorded then .repoint
  else .move

/-- A settle: the process's allocators, the target's address, and which requests the target grants. -/
structure Settling where
  allocators : Allocators
  alloc : ℕ
  grants : ℕ → Bool

namespace Settling

open Stored

variable (how : Settling)

def home : Home := .keeping how.allocators (some how.alloc)

/-- Moves so many elements into a block of the target's own; none need a block. -/
def moveBuffer (len : ℕ) : Change ℕ Held := fun held n =>
  if len = 0 then (⟨some how.alloc, 0⟩, some n)
  else if how.grants n then (⟨some how.alloc, len⟩, some (n + 1))
  else (held, none)

/-- Does what was settled on with what holds so many elements. -/
def carryOut (settle : Settle) (len : ℕ) : Change ℕ Held := fun held n =>
  match settle with
  | .keep => (held, some n)
  | .repoint => ({ held with alloc := how.home.wiping }, some n)
  | .move => how.moveBuffer len held n

def settleText : Change ℕ Block := fun text n =>
  match how.carryOut (how.home.settle how.allocators text.held.alloc) text.data.length text.held n with
  | (held, n) => (⟨text.data, held⟩, n)

def settleBuffer : Change ℕ Block := fun buffer n =>
  match how.carryOut (how.home.settle how.allocators buffer.held.alloc) buffer.data.length buffer.held n with
  | (held, n) => (⟨buffer.data, held⟩, n)

/-- What is done with a container's array: one that is not its own moves, whatever it recorded. -/
def arraySettle (held : Held) (len : ℕ) : Settle :=
  if held.cap = 0 ∧ 0 < len then .move else how.home.settle how.allocators held.alloc

def settleArray (len : ℕ) : Change ℕ Held := fun held n => how.carryOut (how.arraySettle held len) len held n

/-- A leaf settled on the spot; a container is left for later. -/
def settleChild : Change ℕ Stored
  | .string text, n =>
    match how.settleText text n with
    | (text, n) => (.string text, n)
  | .number digits, n =>
    match how.settleText digits n with
    | (digits, n) => (.number digits, n)
  | .bytes buffer, n =>
    match how.settleBuffer buffer n with
    | (buffer, n) => (.bytes buffer, n)
  | v, n => (v, some n)

/-- A container's array settled, and what it holds; the containers among that are left for later. -/
def settleInto : Change ℕ Stored
  | .map entries held, n =>
    match how.settleArray entries.length held n with
    | (held, none) => (.map entries held, none)
    | (held, some n) =>
      match (how.settleText.first.andThen how.settleChild.second).each entries n with
      | (entries, n) => (.map entries held, n)
  | .list items held, n =>
    match how.settleArray items.length held n with
    | (held, none) => (.list items held, none)
    | (held, some n) =>
      match how.settleChild.each items n with
      | (items, n) => (.list items held, n)
  | v, n => (v, some n)

end Settling

namespace Stored

/-- A container with what its own containers hold now. -/
def putBack : Stored → List Stored → Stored
  | .list items held, settled => .list (refill isContainer items settled) held
  | .map entries held, settled =>
    .map ((entries.map Prod.fst).zip (refill isContainer (entries.map Prod.snd) settled)) held
  | v, _ => v

end Stored

namespace Settling

open Stored

variable (how : Settling)

/-- The loop over the stack, which refers into the tree: what each reference stands for when it ends. -/
def settleDrain : Change ℕ (List Stored)
  | [], n => ([], some n)
  | v :: rest, n =>
    match how.settleInto v n with
    | (v, none) => (v :: rest, none)
    | (settled, some n) =>
      match settleDrain (containers.next v ++ rest) n with
      | (stack, n) =>
        let below := (containers.next v).length
        (settled.putBack (stack.take below).reverse :: stack.drop below, n)
termination_by stack => (stack.map size).sum
decreasing_by exact containers.shrinks v rest

/-- Moves a tree's storage into the target's blocks. -/
def settleValue : Change ℕ Stored := fun v n =>
  if v.isContainer then
    match how.settleDrain [v] n with
    | (stack, n) => (stack.headD v, n)
  else how.settleChild v n

/-- What holds so many elements once it was done with them what was settled on. -/
def settledHeld (settle : Settle) (len : ℕ) (held : Held) : Held :=
  match settle with
  | .keep => held
  | .repoint => { held with alloc := how.home.wiping }
  | .move => ⟨some how.alloc, len⟩

def blockHeld (b : Block) : Held :=
  how.settledHeld (how.home.settle how.allocators b.held.alloc) b.data.length b.held

def arrayHeld (len : ℕ) (held : Held) : Held := how.settledHeld (how.arraySettle held len) len held

/-- A tree settled. -/
def settled : Stored → Stored := rehold how.blockHeld how.arrayHeld

/-- A child, settled if it is a leaf. -/
def settledLeaf (v : Stored) : Stored := if v.isContainer then v else how.settled v

theorem moveBuffer_does (len : ℕ) : (how.moveBuffer len).Does fun _ => ⟨some how.alloc, len⟩ := by
  intro held n after m h
  rw [moveBuffer] at h
  by_cases hlen : len = 0
  · rw [if_pos hlen] at h
    cases h
    rw [hlen]
  · rw [if_neg hlen] at h
    cases hgrant : how.grants n with
    | true =>
      rw [hgrant] at h
      cases h
      rfl
    | false =>
      rw [hgrant] at h
      cases h

theorem carryOut_does (settle : Settle) (len : ℕ) : (how.carryOut settle len).Does (how.settledHeld settle len) := by
  intro held n after m h
  cases settle with
  | keep =>
    cases h
    rfl
  | repoint =>
    cases h
    rfl
  | move => exact how.moveBuffer_does len h

theorem settleText_does : how.settleText.Does fun b => ⟨b.data, how.blockHeld b⟩ := by
  intro b n after m h
  rw [settleText] at h
  cases hheld : how.carryOut (how.home.settle how.allocators b.held.alloc) b.data.length b.held n with
  | mk held k =>
    rw [hheld] at h
    cases h
    rw [how.carryOut_does _ _ hheld]
    rfl

theorem settleBuffer_eq : how.settleBuffer = how.settleText := rfl

theorem settleChild_does : how.settleChild.Does how.settledLeaf := by
  intro v n after m h
  cases v with
  | string text =>
    rw [settleChild] at h
    cases htext : how.settleText text n with
    | mk text' k =>
      rw [htext] at h
      cases h
      rw [how.settleText_does htext]
      rfl
  | number digits =>
    rw [settleChild] at h
    cases htext : how.settleText digits n with
    | mk text' k =>
      rw [htext] at h
      cases h
      rw [how.settleText_does htext]
      rfl
  | bytes buffer =>
    rw [settleChild, settleBuffer_eq] at h
    cases htext : how.settleText buffer n with
    | mk text' k =>
      rw [htext] at h
      cases h
      rw [how.settleText_does htext]
      rfl
  | _ =>
    cases h
    rfl

theorem settleArray_does (len : ℕ) : (how.settleArray len).Does (how.arrayHeld len) :=
  fun _ _ _ _ h => how.carryOut_does _ _ h

/-- A container with its array settled, and the leaves it holds. -/
def settledHere : Stored → Stored
  | .list items held => .list (items.map how.settledLeaf) (how.arrayHeld items.length held)
  | .map entries held =>
    .map (entries.map fun e => (⟨e.1.data, how.blockHeld e.1⟩, how.settledLeaf e.2))
      (how.arrayHeld entries.length held)
  | v => v

theorem settleInto_does : how.settleInto.Does how.settledHere := by
  intro v n after m h
  cases v with
  | list items held =>
    rw [settleInto] at h
    cases harray : how.settleArray items.length held n with
    | mk held' k =>
      rw [harray] at h
      cases k with
      | none => cases h
      | some k =>
        cases hitems : how.settleChild.each items k with
        | mk items' k' =>
          simp only [hitems] at h
          cases h
          rw [how.settleArray_does _ harray, how.settleChild_does.each hitems]
          rfl
  | map entries held =>
    rw [settleInto] at h
    cases harray : how.settleArray entries.length held n with
    | mk held' k =>
      rw [harray] at h
      cases k with
      | none => cases h
      | some k =>
        cases hentries : (how.settleText.first.andThen how.settleChild.second).each entries k with
        | mk entries' k' =>
          simp only [hentries] at h
          cases h
          have hdoes := (how.settleText_does.first (β := Stored)).andThen (how.settleChild_does.second (β := Block))
          rw [how.settleArray_does _ harray, hdoes.each hentries]
          rfl
  | _ =>
    cases h
    rfl

theorem isContainer_settledLeaf (v : Stored) : (how.settledLeaf v).isContainer = v.isContainer := by
  cases v <;> rfl

theorem putBack_settledHere {v : Stored} (hv : v.isContainer = true) :
    (how.settledHere v).putBack ((v.children.filter isContainer).map how.settled) = how.settled v := by
  have hleaf (v : Stored) : (if v.isContainer = true then how.settled v else how.settledLeaf v) = how.settled v := by
    unfold settledLeaf
    split <;> rfl
  have hrefill (items : List Stored) : refill isContainer (items.map how.settledLeaf)
      ((items.filter isContainer).map how.settled) = items.map how.settled := by
    rw [refill_map how.isContainer_settledLeaf]
    exact List.map_congr_left fun v _ => hleaf v
  cases v with
  | list items held =>
    rw [settledHere, putBack, children, hrefill, settled, rehold, reholdItems_eq]
  | map entries held =>
    have hvalues : (entries.map fun e => ((⟨e.1.data, how.blockHeld e.1⟩ : Block), how.settledLeaf e.2)).map
        Prod.snd = (entries.map Prod.snd).map how.settledLeaf := by
      rw [List.map_map, List.map_map]
      rfl
    rw [settledHere, putBack, children, hvalues, hrefill, settled, rehold, reholdEntries_eq, List.map_map,
      List.map_map, List.zip_map']
    rfl
  | _ => cases hv

theorem settleDrain_does {stack stack' : List Stored} {n m : ℕ} (hstack : ∀ v ∈ stack, v.isContainer = true)
    (h : how.settleDrain stack n = (stack', some m)) : stack' = stack.map how.settled := by
  induction stack using containers.stack_induction generalizing n m stack' with
  | nil =>
    rw [settleDrain] at h
    cases h
    rfl
  | cons v rest ih =>
    rw [settleDrain] at h
    cases hinto : how.settleInto v n with
    | mk v' k =>
      rw [hinto] at h
      cases k with
      | none => cases h
      | some k =>
        cases hrest : how.settleDrain (containers.next v ++ rest) k with
        | mk after j =>
          simp only [hrest] at h
          cases h
          have hbelow : ∀ w ∈ containers.next v ++ rest, w.isContainer = true := by
            intro w hw
            rcases List.mem_append.mp hw with hw | hw
            · exact (List.mem_filter.mp (List.mem_reverse.mp hw)).2
            · exact hstack w (List.mem_cons_of_mem v hw)
          have hafter := ih hbelow hrest
          rw [List.map_append] at hafter
          have hlength : (containers.next v).length = ((containers.next v).map how.settled).length := by
            rw [List.length_map]
          rw [hafter, hlength, List.take_left, List.drop_left, how.settleInto_does hinto, ← List.map_reverse,
            List.map_cons]
          refine congrArg (· :: _) ?_
          have hback := how.putBack_settledHere (hstack v List.mem_cons_self)
          rwa [← List.reverse_reverse (v.children.filter isContainer)] at hback

theorem settleValue_does : how.settleValue.Does how.settled := by
  intro v n after m h
  rw [settleValue] at h
  cases hv : v.isContainer with
  | true =>
    rw [if_pos hv] at h
    cases hdrain : how.settleDrain [v] n with
    | mk stack k =>
      rw [hdrain] at h
      cases h
      rw [how.settleDrain_does (by simpa using hv) hdrain]
      rfl
  | false =>
    rw [hv, if_neg Bool.false_ne_true] at h
    rw [how.settleChild_does h, settledLeaf, hv]
    rfl

end Settling

end Guatiao
