import Guatiao.Rdma.Link
import Mathlib.Data.Nat.Bitwise

/-!
# What goes through a link

A side's writes lie one after the other, from where its completions have come to, in the order they
are posted; what the peer has taken in lies before what is still to land. The positions either side
goes by are these counts in 32 bits, and no count is more than a ring ahead of the other.
-/

namespace Guatiao.Rdma

open Lib

theorem wrappingAdd_mod (a b : ℕ) : wrappingAdd (a % word) b = (a + b) % word := by
  simp [wrappingAdd]

theorem wrappingSub_mod {a b : ℕ} (hle : b ≤ a) (hring : a ≤ b + ring) :
    wrappingSub (a % word) (b % word) = a - b := by
  rw [ring_eq] at hring
  rw [wrappingSub, word_eq]
  omega

theorem held_mod {a b : ℕ} (hle : b ≤ a) (hring : a ≤ b + ring) :
    held (a % word) (b % word) = some (a - b) := by
  simp only [held, wrappingSub_mod hle hring]
  rw [if_neg (by omega)]

theorem mod_ring (a : ℕ) : a % word % ring = a % ring := by
  apply Nat.mod_mod_of_dvd
  rw [ring_eq, word_eq]
  decide

/-- The bytes of the writes among some requests. -/
def dataOf : List Request → ℕ
  | [] => 0
  | .data _ n _ :: rest => n + dataOf rest
  | .position _ :: rest => dataOf rest

/-- The positions among some requests. -/
def positionsOf : List Request → List ℕ
  | [] => []
  | .data .. :: rest => positionsOf rest
  | .position p :: rest => p :: positionsOf rest

@[simp] theorem dataOf_append (l l' : List Request) : dataOf (l ++ l') = dataOf l + dataOf l' := by
  induction l with
  | nil => simp [dataOf]
  | cons r l ih => cases r <;> simp [dataOf, ih, Nat.add_assoc]

@[simp] theorem positionsOf_append (l l' : List Request) :
    positionsOf (l ++ l') = positionsOf l ++ positionsOf l' := by
  induction l with
  | nil => rfl
  | cons r l ih => cases r <;> simp [positionsOf, ih]

/-- Writes lie one after the other, from one count to another. -/
inductive Laid : ℕ → List Request → ℕ → Prop
  | nil (c : ℕ) : Laid c [] c
  | position {c d p : ℕ} {rest : List Request} (h : Laid c rest d) :
      Laid c (.position p :: rest) d
  | data {c d n : ℕ} {rest : List Request} (hn : 0 < n) (hfits : c % ring + n ≤ ring)
      (h : Laid (c + n) rest d) : Laid c (.data (c % ring) n ((c + n) % word) :: rest) d

namespace Laid

variable {c d m : ℕ} {l l' : List Request}

theorem dataOf_eq (h : Laid c l d) : c + dataOf l = d := by
  induction h with
  | nil => rfl
  | position _ ih => exact ih
  | data _ _ _ ih =>
    rw [dataOf, ← Nat.add_assoc]
    exact ih

theorem append (h : Laid c l m) (h' : Laid m l' d) : Laid c (l ++ l') d := by
  induction h with
  | nil => exact h'
  | position _ ih => exact .position (ih h')
  | data hn hfits _ ih => exact .data hn hfits (ih h')

theorem split (h : Laid c (l ++ l') d) : ∃ m, Laid c l m ∧ Laid m l' d := by
  induction l generalizing c with
  | nil => exact ⟨c, .nil c, h⟩
  | cons r l ih =>
    cases h with
    | position h =>
      obtain ⟨m, hl, hl'⟩ := ih h
      exact ⟨m, .position hl, hl'⟩
    | data hn hfits h =>
      obtain ⟨m, hl, hl'⟩ := ih h
      exact ⟨m, .data hn hfits hl, hl'⟩

theorem snoc {n : ℕ} (h : Laid c l d) (hn : 0 < n) (hfits : d % ring + n ≤ ring) :
    Laid c (l ++ [.data (d % ring) n ((d + n) % word)]) (d + n) :=
  h.append (.data hn hfits (.nil _))

theorem snoc_position (h : Laid c l d) (p : ℕ) : Laid c (l ++ [.position p]) d :=
  h.append (.position (.nil _))

theorem data_mem {at_ n end_ : ℕ} (h : Laid c l d) (hmem : Request.data at_ n end_ ∈ l) :
    ∃ m, c ≤ m ∧ m + n ≤ d ∧ at_ = m % ring ∧ m % ring + n ≤ ring := by
  induction h with
  | nil => cases hmem
  | position _ ih =>
    rcases List.mem_cons.mp hmem with heq | hmem
    · cases heq
    · exact ih hmem
  | data hn hfits hrest ih =>
    have hle := hrest.dataOf_eq
    rcases List.mem_cons.mp hmem with heq | hmem
    · cases heq
      exact ⟨_, le_rfl, by omega, rfl, hfits⟩
    · obtain ⟨m, hm, hrest⟩ := ih hmem
      exact ⟨m, by omega, hrest⟩

theorem reap {s : Sends} (h : Laid c l d) (hs : s.completed = c % word) :
    (l.foldl (fun s r => s.reap r.wrId) s).completed = d % word ∧
      (l.foldl (fun s r => s.reap r.wrId) s).outstanding = s.outstanding - l.length := by
  induction h generalizing s with
  | nil => exact ⟨hs, rfl⟩
  | position _ ih =>
    have hcredit : credit &&& credit ≠ 0 := by decide
    obtain ⟨hcompleted, hout⟩ := @ih (s.reap credit) (by rw [Sends.reap, if_neg hcredit]; exact hs)
    refine ⟨hcompleted, hout.trans ?_⟩
    simp only [Sends.reap, List.length_cons]
    omega
  | @data c d n rest hn hfits _ ih =>
    have hlt : (c + n) % word < 2 ^ 63 := (Nat.mod_lt _ word_pos).trans (by rw [word_eq]; decide)
    have hand : (c + n) % word &&& credit = 0 := by
      rw [credit, Nat.and_two_pow, Nat.testBit_lt_two_pow hlt]
      rfl
    obtain ⟨hcompleted, hout⟩ := @ih (s.reap ((c + n) % word)) (by
      rw [Sends.reap, if_pos hand, Nat.mod_mod])
    refine ⟨hcompleted, hout.trans ?_⟩
    simp only [Sends.reap, List.length_cons]
    omega

end Laid

/-- The positions to be told go from one count up to another. -/
inductive Told : ℕ → List ℕ → ℕ → Prop
  | nil {k r : ℕ} (h : k ≤ r) : Told k [] r
  | cons {k p r : ℕ} {rest : List ℕ} (h : k ≤ p) (hrest : Told p rest r) :
      Told k (p % word :: rest) r

namespace Told

variable {k r r' : ℕ} {l : List ℕ}

theorem le (h : Told k l r) : k ≤ r := by
  induction h with
  | nil h => exact h
  | cons h _ ih => exact h.trans ih

theorem mono (h : Told k l r) (hle : r ≤ r') : Told k l r' := by
  induction h with
  | nil h => exact .nil (h.trans hle)
  | cons h _ ih => exact .cons h (ih hle)

theorem snoc (h : Told k l r) : Told k (l ++ [r % word]) r := by
  induction h with
  | nil h => exact .cons h (.nil le_rfl)
  | cons h _ ih => exact .cons h ih

end Told

end Guatiao.Rdma
