import Mathlib

/-!
# Walks over a stack

A walk takes the top of its stack, does something with it, and puts what is below it on the stack in
its place. What is below is less, so the walk ends; and what it does is what it does with each thing
it takes, in the order it takes them.
-/

namespace Guatiao.Lib

universe u v w

/-- What a walk puts on its stack for what it has taken, the top first; all of it together is less. -/
structure Descent (α : Type u) where
  next : α → List α
  size : α → ℕ
  smaller : ∀ x, ((next x).map size).sum < size x

namespace Descent

variable {α : Type u} {β : Type v} {m : Type v → Type w} (d d' : Descent α)

theorem shrinks (x : α) (rest : List α) :
    ((d.next x ++ rest).map d.size).sum < ((x :: rest).map d.size).sum := by
  have hsmaller := d.smaller x
  simp only [List.map_append, List.sum_append, List.map_cons, List.sum_cons]
  omega

/-- What a walk takes from its stack, in order. -/
def visits : List α → List α
  | [] => []
  | x :: rest => x :: visits (d.next x ++ rest)
termination_by stack => (stack.map d.size).sum
decreasing_by exact d.shrinks x rest

/-- A walk: what is done with each thing it takes, from what has been done before. -/
def walk [Monad m] (visit : β → α → m β) : List α → β → m β
  | [], b => pure b
  | x :: rest, b => do
    let b ← visit b x
    walk visit (d.next x ++ rest) b
termination_by stack => (stack.map d.size).sum
decreasing_by exact d.shrinks x rest

@[simp] theorem visits_nil : d.visits [] = [] := by rw [visits]

theorem visits_cons (x : α) (rest : List α) : d.visits (x :: rest) = x :: d.visits (d.next x ++ rest) := by
  rw [visits]

theorem stack_induction {motive : List α → Prop} (nil : motive [])
    (cons : ∀ x rest, motive (d.next x ++ rest) → motive (x :: rest)) : ∀ stack, motive stack
  | [] => nil
  | x :: rest => cons x rest (stack_induction nil cons (d.next x ++ rest))
termination_by stack => (stack.map d.size).sum
decreasing_by exact d.shrinks x rest

theorem size_lt {x y : α} (h : y ∈ d.next x) : d.size y < d.size x :=
  (List.le_sum_of_mem (List.mem_map_of_mem h)).trans_lt (d.smaller x)

theorem induction {motive : α → Prop} (below : ∀ x, (∀ y ∈ d.next x, motive y) → motive x) (x : α) :
    motive x := by
  induction hsize : d.size x using Nat.strong_induction_on generalizing x with
  | _ n ih =>
    subst hsize
    exact below x fun y hy => ih _ (d.size_lt hy) y rfl

theorem walk_eq [Monad m] (visit : β → α → m β) (stack : List α) (b : β) :
    d.walk visit stack b = (d.visits stack).foldlM visit b := by
  induction stack using d.stack_induction generalizing b with
  | nil =>
    rw [walk, visits_nil]
    rfl
  | cons x rest ih =>
    rw [walk, visits_cons, List.foldlM_cons]
    exact bind_congr fun b => ih b

theorem visits_append (some_ more : List α) : d.visits (some_ ++ more) = d.visits some_ ++ d.visits more := by
  induction some_ using d.stack_induction with
  | nil => rw [List.nil_append, visits_nil, List.nil_append]
  | cons x rest ih =>
    rw [List.append_assoc] at ih
    rw [List.cons_append, visits_cons, visits_cons, ih, List.cons_append]

theorem visits_eq_flatMap (stack : List α) : d.visits stack = stack.flatMap fun x => d.visits [x] := by
  induction stack with
  | nil => rw [visits_nil, List.flatMap_nil]
  | cons x rest ih => rw [← List.singleton_append, visits_append, ih, List.singleton_append, List.flatMap_cons]

theorem visits_singleton (x : α) : d.visits [x] = x :: (d.next x).flatMap fun y => d.visits [y] := by
  rw [visits_cons, List.append_nil, visits_eq_flatMap]

theorem walk_append [Monad m] [LawfulMonad m] (visit : β → α → m β) (some_ more : List α) (b : β) :
    d.walk visit (some_ ++ more) b = d.walk visit some_ b >>= d.walk visit more := by
  rw [walk_eq, visits_append, List.foldlM_append, walk_eq]
  exact bind_congr fun b => (d.walk_eq visit more b).symm

/-- A walk that stops at the first thing it refuses. -/
def all (judge : α → Bool) (stack : List α) : Bool :=
  (d.walk (fun (_ : Unit) x => if judge x then some () else none) stack ()).isSome

theorem all_eq (judge : α → Bool) (stack : List α) : d.all judge stack = (d.visits stack).all judge := by
  rw [all, walk_eq]
  induction d.visits stack with
  | nil => rfl
  | cons x rest ih =>
    rw [List.foldlM_cons, List.all_cons, ← ih]
    cases judge x <;> rfl

theorem all_singleton (judge : α → Bool) (x : α) :
    d.all judge [x] = (judge x && (d.next x).all fun y => d.all judge [y]) := by
  simp only [all_eq]
  rw [visits_singleton, List.all_cons, List.all_flatMap]

theorem visits_perm (h : ∀ x, (d.next x).Perm (d'.next x)) (x : α) : (d.visits [x]).Perm (d'.visits [x]) := by
  induction x using d.induction with
  | below x ih =>
    rw [visits_singleton, visits_singleton]
    refine .cons x (((h x).flatMap_right _).trans ?_)
    exact List.Perm.flatMap_left _ fun y hy => ih y ((h x).mem_iff.mpr hy)

theorem visits_map (f : α → α) (h : ∀ x, d.next (f x) = (d.next x).map f) (stack : List α) :
    d.visits (stack.map f) = (d.visits stack).map f := by
  induction stack using d.stack_induction with
  | nil => rw [List.map_nil, visits_nil, List.map_nil]
  | cons x rest ih => rw [List.map_cons, visits_cons, visits_cons, List.map_cons, ← ih, h, List.map_append]

end Descent

end Guatiao.Lib
