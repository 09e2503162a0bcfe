import Mathlib.Data.List.Basic

/-!
# Lists cut into pieces of one size

Every piece is full but the last. A list is followed piece by piece, what is too short for a piece
at its end.
-/

namespace Guatiao.Lib

/-- A list cut from the left into pieces of `size`, the last one shorter where the size does not
divide. -/
def chunks {α : Type} (size : ℕ) (xs : List α) : List (List α) :=
  (List.range ((xs.length + (size - 1)) / size)).map fun i => (xs.drop (i * size)).take size

variable {α : Type} {size : ℕ} {xs piece rest : List α}

@[simp] theorem chunks_nil (hsize : 0 < size) : chunks size ([] : List α) = [] := by
  have hnone : (size - 1) / size = 0 := Nat.div_eq_of_lt (by omega)
  simp [chunks, hnone]

theorem chunks_of_length_le (hne : xs ≠ []) (hle : xs.length ≤ size) : chunks size xs = [xs] := by
  have hpos : 0 < xs.length := List.length_pos_iff.mpr hne
  have hone : (xs.length + (size - 1)) / size = 1 :=
    Nat.div_eq_of_lt_le (by omega) (by omega)
  simp [chunks, hone, List.take_of_length_le hle]

theorem chunks_append (hsize : 0 < size) (hpiece : piece.length = size) (rest : List α) :
    chunks size (piece ++ rest) = piece :: chunks size rest := by
  have hcount : ((piece ++ rest).length + (size - 1)) / size =
      (rest.length + (size - 1)) / size + 1 := by
    rw [List.length_append, hpiece, Nat.add_assoc, Nat.add_div_left _ hsize]
  rw [chunks, hcount, List.range_succ_eq_map, List.map_cons, List.map_map, chunks]
  congr 1
  · simp [hpiece]
  · apply List.map_congr_left
    intro i _
    have hskip : (i + 1) * size = piece.length + i * size := by
      rw [hpiece, Nat.succ_mul, Nat.add_comm]
    have hdrop : piece.drop (piece.length + i * size) = [] :=
      List.drop_eq_nil_of_le (Nat.le_add_right _ _)
    rw [Function.comp_apply, Nat.succ_eq_add_one, hskip, List.drop_append, hdrop, List.nil_append,
      Nat.add_sub_cancel_left]

/-- To show something of every list, show it of the ones shorter than a piece, and that a full piece
in front keeps it. -/
@[elab_as_elim]
theorem chunks_induction {motive : List α → Prop} (hsize : 0 < size)
    (short : ∀ xs, xs.length < size → motive xs)
    (step : ∀ piece rest, piece.length = size → motive rest → motive (piece ++ rest))
    (xs : List α) : motive xs := by
  induction hn : xs.length using Nat.strongRecOn generalizing xs with
  | _ n ih =>
    rcases Nat.lt_or_ge xs.length size with hlt | hge
    · exact short xs hlt
    · rw [← List.take_append_drop size xs]
      apply step
      · simp [hge]
      · exact ih (xs.drop size).length (by simp; omega) _ rfl

end Guatiao.Lib
