import Mathlib.Data.List.Basic

/-!
# Lists put into groups

Elements are put one after the other at the end of their groups, so each group holds its own in the
order they came. A stable sort keeps that order among the elements that compare equal.
-/

namespace Guatiao.Lib

variable {α β : Type*}

/-- Elements put into the groups they belong to, one after the other. -/
def putInto (place : α → ℕ) (groups : List (List α)) (xs : List α) : List (List α) :=
  xs.foldl (fun groups x => groups.modify (place x) (· ++ [x])) groups

theorem getElem?_putInto (place : α → ℕ) (groups : List (List α)) (xs : List α) (i : ℕ) :
    (putInto place groups xs)[i]? = groups[i]?.map (· ++ xs.filter fun x => place x = i) := by
  induction xs generalizing groups with
  | nil => simp [putInto]
  | cons x xs ih =>
    rw [putInto, List.foldl_cons, ← putInto, ih, List.getElem?_modify, List.filter_cons]
    by_cases hx : place x = i <;> cases groups[i]? <;> simp [hx]

theorem flatten_putInto_perm (place : α → ℕ) (groups : List (List α)) (xs : List α)
    (hplace : ∀ x ∈ xs, place x < groups.length) :
    (putInto place groups xs).flatten.Perm (groups.flatten ++ xs) := by
  induction xs generalizing groups with
  | nil => simp [putInto]
  | cons x xs ih =>
    have hlt := hplace x List.mem_cons_self
    have hone : (groups.modify (place x) (· ++ [x])).flatten.Perm (groups.flatten ++ [x]) := by
      conv_rhs => rw [← List.take_append_drop (place x) groups, List.drop_eq_getElem_cons hlt]
      rw [List.modify_eq_take_cons_drop hlt]
      simp only [List.flatten_append, List.flatten_cons, List.append_assoc]
      exact List.Perm.append_left _ (List.Perm.append_left _ List.perm_append_comm)
    have hrest : ∀ y ∈ xs, place y < (groups.modify (place x) (· ++ [x])).length := fun y hy => by
      rw [List.length_modify]
      exact hplace y (List.mem_cons_of_mem _ hy)
    rw [putInto, List.foldl_cons, ← putInto]
    refine (ih _ hrest).trans ?_
    have happ := hone.append_right xs
    rwa [List.append_assoc, List.singleton_append] at happ

theorem filter_mergeSort {le : α → α → Bool} (htrans : ∀ a b c, le a b → le b c → le a c)
    (htotal : ∀ a b, le a b || le b a) {p : α → Bool} (hp : ∀ a b, p a → p b → le a b)
    (xs : List α) : (xs.mergeSort le).filter p = xs.filter p := by
  have hpairs : (xs.filter p).Pairwise fun a b => le a b := by
    refine List.pairwise_of_forall_mem_list fun a ha b hb => ?_
    exact hp a b (List.mem_filter.mp ha).2 (List.mem_filter.mp hb).2
  have hsub : (xs.filter p).Sublist ((xs.mergeSort le).filter p) := by
    have hsorted := (List.sublist_mergeSort htrans htotal hpairs List.filter_sublist).filter p
    rwa [List.filter_filter, List.filter_congr fun a _ => Bool.and_self (p a)] at hsorted
  have hperm : ((xs.mergeSort le).filter p).Perm (xs.filter p) := (List.mergeSort_perm xs le).filter p
  exact (hsub.eq_of_length hperm.length_eq.symm).symm

end Guatiao.Lib
