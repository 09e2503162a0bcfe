import Mathlib.Logic.Function.Basic
import Mathlib.Data.List.Basic
import Mathlib.Data.Nat.ModEq

/-!
# Items in a circular store

A store of so many cells, used one after the other and over again. What lies from a
position on is a list no longer than the store; one more item goes where the list ends, and
items are taken from its front by moving the position.
-/

namespace Guatiao.Lib.Circular

variable {β : Type*} {cap : ℕ}

/-- The cells of `n` items from a position on, the first `i` of them left out. -/
def cells (cap at_ i n : ℕ) : List ℕ := (List.range' i n).map fun j => (at_ + j) % cap

@[simp] theorem length_cells (at_ i n : ℕ) : (cells cap at_ i n).length = n := by simp [cells]

@[simp] theorem cells_zero (at_ i : ℕ) : cells cap at_ i 0 = [] := rfl

theorem cells_succ (at_ i n : ℕ) :
    cells cap at_ i (n + 1) = ((at_ + i) % cap) :: cells cap at_ (i + 1) n := by
  simp [cells, List.range'_succ]

theorem cells_add (at_ i n m : ℕ) :
    cells cap at_ i (n + m) = cells cap at_ i n ++ cells cap at_ (i + n) m := by
  rw [cells, ← List.range'_append_1, List.map_append]
  rfl

theorem mem_cells_lt (hcap : 0 < cap) {at_ i n k : ℕ} (hk : k ∈ cells cap at_ i n) : k < cap := by
  obtain ⟨j, -, rfl⟩ := List.mem_map.mp hk
  exact Nat.mod_lt _ hcap

theorem cells_of_le {at_ i n : ℕ} (h : at_ % cap + i + n ≤ cap) :
    cells cap at_ i n = List.range' (at_ % cap + i) n := by
  induction n generalizing i with
  | zero => rfl
  | succ n ih =>
    rw [cells_succ, List.range'_succ, ih (by omega), Nat.add_mod]
    have hi : i % cap = i := Nat.mod_eq_of_lt (by omega)
    rw [hi, Nat.mod_eq_of_lt (by omega), Nat.add_assoc]

theorem cells_wrapped {at_ i n : ℕ} (h : at_ % cap + i = cap) (hn : n ≤ cap) :
    cells cap at_ i n = List.range' 0 n := by
  have hzero : (at_ + i) % cap = 0 := by
    rw [← Nat.mod_add_div at_ cap, Nat.add_right_comm, h]
    simp
  have hsame : cells cap at_ i n = cells cap (at_ + i) 0 n := by
    simp only [cells, List.range'_eq_map_range, List.map_map]
    apply List.map_congr_left
    intro j _
    simp only [Function.comp, Nat.add_assoc, Nat.zero_add]
  rw [hsame, cells_of_le (by omega), hzero]

theorem cells_congr {at_ at' i n : ℕ} (h : at_ % cap = at' % cap) :
    cells cap at_ i n = cells cap at' i n := by
  apply List.map_congr_left
  intro j _
  rw [Nat.add_mod, h, ← Nat.add_mod]

theorem cell_inj {at_ i j : ℕ} (hi : i < cap) (hj : j < cap)
    (h : (at_ + i) % cap = (at_ + j) % cap) : i = j := by
  have hmod : i ≡ j [MOD cap] := Nat.ModEq.add_left_cancel' at_ h
  exact Nat.ModEq.eq_of_lt_of_lt hmod hi hj

/-- The items lie from a position on. -/
def Holds (cap : ℕ) (store : ℕ → β) (at_ : ℕ) (items : List β) : Prop :=
  ∀ (i : ℕ) (h : i < items.length), store ((at_ + i) % cap) = items[i]

variable {store : ℕ → β} {at_ : ℕ} {items : List β}

theorem holds_nil : Holds cap store at_ [] := nofun

theorem Holds.snoc (h : Holds cap store at_ items) (hroom : items.length < cap) (b : β) :
    Holds cap (Function.update store ((at_ + items.length) % cap) b) at_ (items ++ [b]) := by
  intro i hi
  rw [List.length_append, List.length_singleton] at hi
  by_cases hlast : i = items.length
  · subst hlast
    simp
  · have hlt : i < items.length := by omega
    have hne : (at_ + i) % cap ≠ (at_ + items.length) % cap := by
      intro heq
      exact hlast (cell_inj (by omega) hroom heq)
    rw [Function.update_of_ne hne, List.getElem_append_left hlt]
    exact h i hlt

theorem Holds.update (h : Holds cap store at_ items) {j : ℕ} (hpast : items.length ≤ j)
    (hj : j < cap) (b : β) : Holds cap (Function.update store ((at_ + j) % cap) b) at_ items := by
  intro i hi
  have hne : (at_ + i) % cap ≠ (at_ + j) % cap := by
    intro heq
    have := cell_inj (by omega) hj heq
    omega
  rw [Function.update_of_ne hne]
  exact h i hi

/-- The cells from one on, so many of them, as in another store. -/
def overlay (store other : ℕ → β) (base n : ℕ) : ℕ → β := fun cell =>
  if base ≤ cell ∧ cell < base + n then other cell else store cell

theorem cell_add {i n : ℕ} (hfits : at_ % cap + n ≤ cap) (hi : i < n) :
    (at_ + i) % cap = at_ % cap + i := by
  rw [Nat.add_mod, Nat.mod_eq_of_lt (show i < cap by omega), Nat.mod_eq_of_lt (by omega)]

/-- More items come from another store, where they lie in the same cells without wrapping. -/
theorem Holds.overlay (h : Holds cap store at_ items) {other : ℕ → β} {more : List β}
    (hroom : items.length + more.length ≤ cap)
    (hfits : (at_ + items.length) % cap + more.length ≤ cap)
    (hmore : Holds cap other (at_ + items.length) more) :
    Holds cap (overlay store other ((at_ + items.length) % cap) more.length) at_
      (items ++ more) := by
  intro i hi
  rw [List.length_append] at hi
  by_cases hlt : i < items.length
  · have hout : ¬ ((at_ + items.length) % cap ≤ (at_ + i) % cap ∧
        (at_ + i) % cap < (at_ + items.length) % cap + more.length) := by
      rintro ⟨hle, hcell⟩
      obtain ⟨j, hj⟩ := Nat.exists_eq_add_of_le hle
      have hcell' : (at_ + i) % cap = (at_ + (items.length + j)) % cap := by
        rw [← Nat.add_assoc, cell_add hfits (by omega), hj]
      have := cell_inj (by omega) (by omega) hcell'
      omega
    rw [Circular.overlay, if_neg hout, List.getElem_append_left hlt]
    exact h i hlt
  · obtain ⟨j, rfl⟩ := Nat.exists_eq_add_of_le (Nat.not_lt.mp hlt)
    have hcell : (at_ + (items.length + j)) % cap = (at_ + items.length) % cap + j := by
      rw [← Nat.add_assoc, cell_add hfits (by omega)]
    rw [Circular.overlay, hcell, if_pos ⟨by omega, by omega⟩, List.getElem_append_right (by omega)]
    simp only [Nat.add_sub_cancel_left]
    rw [← hmore j (by omega), cell_add hfits (by omega)]

theorem Holds.left {more : List β} (h : Holds cap store at_ (items ++ more)) :
    Holds cap store at_ items := by
  intro i hi
  rw [h i (by rw [List.length_append]; omega), List.getElem_append_left hi]

theorem Holds.drop (h : Holds cap store at_ items) (n : ℕ) :
    Holds cap store (at_ + n) (items.drop n) := by
  intro i hi
  rw [List.length_drop] at hi
  rw [List.getElem_drop, Nat.add_assoc]
  exact h (n + i) (by omega)

end Guatiao.Lib.Circular
