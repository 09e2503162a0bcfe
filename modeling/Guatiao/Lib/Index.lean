import Guatiao.Lib.SortedMap
import Mathlib.Data.List.Induction

/-!
# Positions by key

A list filed by a key of its elements: each key leads to a position. Where no two elements
have one key, a lookup finds the element, and only it, under its key.
-/

namespace Guatiao.Lib

variable {κ X : Type} [LinearOrder κ]

/-- Each element's position under its key, entered in order. -/
def index (key : X → κ) (xs : List X) : SortedMap κ ℕ :=
  xs.zipIdx.foldl (fun m p => m.insert (key p.1) p.2) .empty

@[simp] theorem index_nil (key : X → κ) : index key [] = .empty := rfl

theorem index_append_singleton (key : X → κ) (xs : List X) (x : X) :
    index key (xs ++ [x]) = (index key xs).insert (key x) xs.length := by
  simp only [index, List.zipIdx_append, List.foldl_append, List.zipIdx_singleton, List.foldl_cons,
    List.foldl_nil, Nat.zero_add]

theorem get_index {key : X → κ} {xs : List X} (hnodup : (xs.map key).Nodup) {k : κ} {i : ℕ} :
    (index key xs).get k = some i ↔ ∃ x, xs[i]? = some x ∧ key x = k := by
  induction xs using List.reverseRecOn with
  | nil => simp
  | append_singleton xs x ih =>
    rw [List.map_append, List.nodup_append] at hnodup
    obtain ⟨hxs, -, hdisjoint⟩ := hnodup
    rw [index_append_singleton, SortedMap.get_insert]
    split
    · next hk =>
      constructor
      · intro hi
        cases hi
        exact ⟨x, List.getElem?_concat_length, hk.symm⟩
      · rintro ⟨y, hy, hkey⟩
        rw [List.getElem?_append] at hy
        split at hy
        · have hmem := List.mem_map_of_mem (f := key) (List.mem_of_getElem? hy)
          exact absurd (hkey.trans hk) (hdisjoint _ hmem _ (List.mem_singleton_self _))
        · next hlt =>
          have hzero := (List.getElem?_eq_some_iff.mp hy).1
          rw [List.length_singleton] at hzero
          congr 1
          omega
    · next hk =>
      rw [ih hxs]
      constructor
      · rintro ⟨y, hy, hkey⟩
        refine ⟨y, ?_, hkey⟩
        rw [List.getElem?_append_left (List.getElem?_eq_some_iff.mp hy).1]
        exact hy
      · rintro ⟨y, hy, hkey⟩
        rw [List.getElem?_append] at hy
        split at hy
        · exact ⟨y, hy, hkey⟩
        · cases List.mem_singleton.mp (List.mem_of_getElem? hy)
          exact absurd hkey.symm hk

theorem find_index {key : X → κ} {xs : List X} (hnodup : (xs.map key).Nodup) {k : κ} {x : X} :
    ((index key xs).get k).bind (xs[·]?) = some x ↔ x ∈ xs ∧ key x = k := by
  rw [Option.bind_eq_some_iff]
  constructor
  · rintro ⟨i, hi, hx⟩
    obtain ⟨y, hy, hkey⟩ := (get_index hnodup).mp hi
    rw [hx] at hy
    cases hy
    exact ⟨List.mem_of_getElem? hx, hkey⟩
  · rintro ⟨hmem, hkey⟩
    obtain ⟨i, hi⟩ := List.mem_iff_getElem?.mp hmem
    exact ⟨i, (get_index hnodup).mpr ⟨x, hi, hkey⟩, hi⟩

end Guatiao.Lib
