import Guatiao.Value.Walk

/-!
# Where a tree lives

A tree is homed when every container in it, every key included, records one allocator, or this build's
wiping allocator. It is judged by recursion for some containers deep, and over a stack below that.
-/

namespace Guatiao

open Lib

/-- The allocators of a process: the address of this build's wiping allocator, and at which addresses a
struct has its mark. -/
structure Allocators where
  wiping : ℕ
  marked : ℕ → Bool
  marked_wiping : marked wiping = true

/-- Whether what a container recorded is this build's wiping allocator. -/
def Allocators.livesInWiping (a : Allocators) (recorded : Option ℕ) : Bool := recorded.any a.marked

/-- Whether a container recorded an allocator itself: the addresses compared. -/
def isRecorded (recorded alloc : Option ℕ) : Bool := recorded.isSome && recorded == alloc

/-- What a walk counts as a tree's home: the allocator named, and, unless exact, the wiping allocator. -/
structure Home where
  alloc : Option ℕ
  wiping : Option ℕ
  deriving DecidableEq, Repr

namespace Home

def keeping (a : Allocators) (alloc : Option ℕ) : Home := ⟨alloc, some a.wiping⟩

def exactly (alloc : Option ℕ) : Home := ⟨alloc, none⟩

/-- Whether a container that recorded an allocator is home. -/
def holds (home : Home) (recorded : Option ℕ) : Bool :=
  isRecorded recorded home.alloc || isRecorded recorded home.wiping

end Home

namespace Stored

/-- Whether a node is left on a stack. -/
def isContainer : Stored → Bool
  | .list _ _ | .map _ _ => true
  | _ => false

/-- What holds the node itself is judged, when it is a leaf. -/
def leafHomed (home : Home) : Stored → Bool
  | .string text => isText text.data && home.holds text.held.alloc
  | .number digits => isDigits digits.data && home.holds digits.held.alloc
  | .bytes buffer => home.holds buffer.held.alloc
  | .unknown _ _ => false
  | _ => true

/-- A child judged on the spot when it is a leaf, and left for later when it is a container. -/
def childHomed (home : Home) (v : Stored) : Bool := v.isContainer || v.leafHomed home

/-- One node judged, its containers left for later. -/
def homed (home : Home) : Stored → Bool
  | .map entries held => (entries.all fun e => isText e.1.data) && home.holds held.alloc &&
      entries.all fun e => home.holds e.1.held.alloc && e.2.childHomed home
  | .list items held => home.holds held.alloc && items.all (childHomed home)
  | v => v.leafHomed home

mutual

/-- A tree judged by recursion no more than so many containers deep; nothing for one deeper. -/
def shallow (home : Home) : ℕ → Stored → Option Bool
  | depth, .map entries held =>
    if !entries.all fun e => isText e.1.data then some false
    else if !home.holds held.alloc then some false
    else
      match depth with
      | 0 => none
      | below + 1 => shallowEntries home below entries
  | depth, .list items held =>
    if !home.holds held.alloc then some false
    else
      match depth with
      | 0 => none
      | below + 1 => shallowItems home below items
  | _, v => some (v.homed home)

def shallowEntries (home : Home) : ℕ → List (Block × Stored) → Option Bool
  | _, [] => some true
  | below, (key, v) :: rest =>
    if !home.holds key.held.alloc then some false
    else
      match shallow home below v with
      | none => none
      | some false => some false
      | some true => shallowEntries home below rest

def shallowItems (home : Home) : ℕ → List Stored → Option Bool
  | _, [] => some true
  | below, v :: rest =>
    match shallow home below v with
    | none => none
    | some false => some false
    | some true => shallowItems home below rest

end

theorem sum_size_containers (v : Stored) : ((v.children.filter isContainer).map size).sum < v.size :=
  (List.Sublist.sum_le_sum ((List.filter_sublist (p := isContainer)).map size) fun _ _ => Nat.zero_le _).trans_lt
    (size_children v)

/-- The walk that takes the containers alone, the last one first. -/
def containers : Descent Stored :=
  ⟨fun v => (v.children.filter isContainer).reverse, size, fun v => by
    rw [List.map_reverse, List.sum_reverse]
    exact sum_size_containers v⟩

/-- A tree judged over a stack. -/
def drained (home : Home) (v : Stored) : Bool := containers.all (homed home) [v]

/-- How many containers deep a tree is judged by recursion. -/
def shallowDepth : ℕ := 16

/-- Whether a tree is home. -/
def valueHome (home : Home) (v : Stored) : Bool := (v.shallow home shallowDepth).getD (v.drained home)

/-- Whether every container in a tree, every key included, records an allocator, or lives in the wiping
allocator. -/
def recordedBy (a : Allocators) (v : Stored) (alloc : Option ℕ) : Bool := v.valueHome (.keeping a alloc)

/-- What a node itself has to be: home, and through its door. -/
def atHome (home : Home) : Stored → Bool
  | .map entries held => (entries.all fun e => isText e.1.data) && home.holds held.alloc &&
      entries.all fun e => home.holds e.1.held.alloc
  | .list _ held => home.holds held.alloc
  | v => v.leafHomed home

/-- A tree is home when each node is. -/
def everyHome (home : Home) (v : Stored) : Bool := v.nodes.all (atHome home)

variable (home : Home)

theorem everyHome_eq (v : Stored) : v.everyHome home = (v.atHome home && v.children.all (everyHome home)) := by
  rw [everyHome, nodes_eq, List.all_cons, List.all_flatMap]
  rfl

theorem drained_eq_homed (v : Stored) :
    v.drained home = (v.homed home && (v.children.filter isContainer).all (drained home)) := by
  have h := containers.all_singleton (homed home) v
  rw [drained, h, show containers.next v = (v.children.filter isContainer).reverse from rfl, List.all_reverse]
  rfl

theorem drained_leaf {v : Stored} (h : v.isContainer = false) : v.drained home = v.leafHomed home := by
  rw [drained_eq_homed]
  cases v with
  | list items held => cases h
  | map entries held => cases h
  | _ => exact Bool.and_true _

theorem childHomed_and (v : Stored) : (v.childHomed home && (!v.isContainer || v.drained home)) = v.drained home := by
  unfold childHomed
  cases h : v.isContainer with
  | true => rfl
  | false => rw [drained_leaf home h, Bool.false_or, Bool.not_false, Bool.true_or, Bool.and_true]

theorem all_and {α : Type*} (xs : List α) (p q : α → Bool) :
    (xs.all p && xs.all q) = xs.all fun x => p x && q x := by
  rw [Bool.eq_iff_iff]
  simp only [Bool.and_eq_true, List.all_eq_true, forall_and]

theorem all_childHomed (items : List Stored) :
    (items.all (childHomed home) && (items.filter isContainer).all (drained home)) = items.all (drained home) := by
  rw [List.all_filter, all_and]
  exact congrArg items.all (funext (childHomed_and home))

theorem drained_eq (v : Stored) : v.drained home = (v.atHome home && v.children.all (drained home)) := by
  rw [drained_eq_homed]
  cases v with
  | list items held =>
    rw [homed, atHome, Bool.and_assoc]
    exact congrArg (_ && ·) (all_childHomed home items)
  | map entries held =>
    have hkeys : (entries.all fun e => home.holds e.1.held.alloc && e.2.childHomed home) =
        ((entries.all fun e => home.holds e.1.held.alloc) && (entries.map Prod.snd).all (childHomed home)) := by
      rw [List.all_map, all_and]
      rfl
    rw [homed, atHome, hkeys, ← Bool.and_assoc, Bool.and_assoc]
    exact congrArg (_ && ·) (all_childHomed home (entries.map Prod.snd))
  | _ => rfl

theorem drained_eq_everyHome (v : Stored) : v.drained home = v.everyHome home := by
  induction v using inOrder.induction with
  | below v ih =>
    rw [drained_eq, everyHome_eq]
    refine congrArg (_ && ·) ?_
    rw [Bool.eq_iff_iff, List.all_eq_true, List.all_eq_true]
    exact forall₂_congr fun y hy => by rw [ih y hy]

/-- Where the recursion answers, it answers the same. -/
theorem shallow_eq (v : Stored) {depth : ℕ} {answer : Bool} (h : v.shallow home depth = some answer) :
    answer = v.everyHome home := by
  induction v generalizing depth answer with
  | list items held ih =>
    have hitems {below : ℕ} (rest : List Stored) (hrest : ∀ v ∈ rest, v ∈ items) {answer : Bool}
        (h : shallowItems home below rest = some answer) : answer = rest.all (everyHome home) := by
      induction rest generalizing answer with
      | nil => exact (Option.some.inj h).symm
      | cons v rest ihrest =>
        rw [shallowItems] at h
        rw [List.all_cons]
        cases hv : v.shallow home below with
        | none =>
          rw [hv] at h
          cases h
        | some first =>
          rw [hv] at h
          rw [← ih v (hrest v List.mem_cons_self) hv]
          cases first with
          | false => exact (Option.some.inj h).symm
          | true =>
            rw [Bool.true_and]
            exact ihrest (fun w hw => hrest w (List.mem_cons_of_mem v hw)) h
    rw [everyHome_eq, atHome, children]
    unfold shallow at h
    cases hheld : home.holds held.alloc with
    | false =>
      rw [hheld] at h
      exact (Option.some.inj h).symm
    | true =>
      rw [hheld] at h
      cases depth with
      | zero => cases h
      | succ below =>
        rw [Bool.true_and]
        exact hitems items (fun _ hv => hv) h
  | map entries held ih =>
    have hentries {below : ℕ} (rest : List (Block × Stored)) (hrest : ∀ e ∈ rest, e ∈ entries) {answer : Bool}
        (h : shallowEntries home below rest = some answer) : answer =
          ((rest.all fun e => home.holds e.1.held.alloc) && (rest.map Prod.snd).all (everyHome home)) := by
      induction rest generalizing answer with
      | nil => exact (Option.some.inj h).symm
      | cons e rest ihrest =>
        obtain ⟨key, v⟩ := e
        rw [shallowEntries] at h
        rw [List.all_cons, List.map_cons, List.all_cons]
        cases hkey : home.holds key.held.alloc with
        | false =>
          rw [hkey] at h
          exact (Option.some.inj h).symm
        | true =>
          rw [hkey] at h
          cases hv : v.shallow home below with
          | none =>
            rw [hv] at h
            cases h
          | some first =>
            rw [hv] at h
            rw [← ih key v (hrest _ List.mem_cons_self) hv]
            cases first with
            | false =>
              rw [Bool.false_and, Bool.and_false]
              exact (Option.some.inj h).symm
            | true =>
              rw [Bool.true_and, Bool.true_and]
              exact ihrest (fun e he => hrest e (List.mem_cons_of_mem _ he)) h
    rw [everyHome_eq, atHome, children]
    unfold shallow at h
    cases htext : entries.all fun e => isText e.1.data with
    | false =>
      rw [htext] at h
      exact (Option.some.inj h).symm
    | true =>
      rw [htext] at h
      cases hheld : home.holds held.alloc with
      | false =>
        rw [hheld] at h
        exact (Option.some.inj h).symm
      | true =>
        rw [hheld] at h
        cases depth with
        | zero => cases h
        | succ below =>
          rw [Bool.true_and, Bool.true_and]
          exact hentries entries (fun _ he => he) h
  | _ =>
    rw [everyHome_eq, ← Option.some.inj h]
    exact (Bool.and_true _).symm

theorem shallow_eq_drained (v : Stored) {depth : ℕ} {answer : Bool} (h : v.shallow home depth = some answer) :
    answer = v.drained home := by
  rw [shallow_eq home v h, drained_eq_everyHome]

theorem valueHome_eq (v : Stored) : v.valueHome home = v.everyHome home := by
  rw [valueHome]
  cases h : v.shallow home shallowDepth with
  | none => exact drained_eq_everyHome home v
  | some answer => exact shallow_eq home v h

variable (a : Allocators)

/-- Which of what a node is made of lives in the wiping allocator: its own block or array first, and then
each key. -/
def marks : Stored → List Bool
  | .number digits => [a.livesInWiping digits.held.alloc]
  | .string text => [a.livesInWiping text.held.alloc]
  | .bytes buffer => [a.livesInWiping buffer.held.alloc]
  | .list _ held => [a.livesInWiping held.alloc]
  | .map entries held => a.livesInWiping held.alloc :: entries.map fun e => a.livesInWiping e.1.held.alloc
  | _ => []

/-- Whether a container has elements and no array of its own. -/
def isLiteral : Stored → Bool
  | .list items held => held.cap == 0 && !items.isEmpty
  | .map entries held => held.cap == 0 && !entries.isEmpty
  | _ => false

end Stored

end Guatiao
