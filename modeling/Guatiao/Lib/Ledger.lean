import Mathlib.Data.List.Perm.Basic

/-!
# What is owned before and after

Of a step that owns some things before it, owns some after it, releases some and makes some, the
books balance when what it released and what it still owns is what it owned and what it made, each
once. Steps that balance compose, and what a step does not touch can be added on both sides.
-/

namespace Guatiao.Lib

variable {α : Type}

/-- What a step released, and what it made. -/
structure Ledger (α : Type) where
  released : List α
  made : List α

namespace Ledger

/-- A step that released and made nothing. -/
def none : Ledger α := ⟨[], []⟩

/-- One step after another. -/
def and (l l' : Ledger α) : Ledger α := ⟨l.released ++ l'.released, l.made ++ l'.made⟩

/-- What a step released and what is owned after it is what was owned before and what it made. -/
def Balances (l : Ledger α) (before after : List α) : Prop :=
  (l.released ++ after).Perm (before ++ l.made)

variable {l l' : Ledger α} {before mid after : List α}

theorem balances_none (owned : List α) : (none : Ledger α).Balances owned owned := by
  simp [Balances, none]

theorem balances_release (owned : List α) : (⟨owned, []⟩ : Ledger α).Balances owned [] := by
  simp [Balances]

theorem balances_make (owned : List α) : (⟨[], owned⟩ : Ledger α).Balances [] owned := by
  simp [Balances]

open List in
theorem Balances.and (h : l.Balances before mid) (h' : l'.Balances mid after) :
    (l.and l').Balances before after := by
  unfold Balances Ledger.and at *
  calc l.released ++ l'.released ++ after
      = l.released ++ (l'.released ++ after) := List.append_assoc ..
    _ ~ l.released ++ (mid ++ l'.made) := h'.append_left _
    _ = (l.released ++ mid) ++ l'.made := (List.append_assoc ..).symm
    _ ~ (before ++ l.made) ++ l'.made := h.append_right _
    _ = before ++ (l.made ++ l'.made) := List.append_assoc ..

theorem Balances.of_perm {before' after' : List α} (h : l.Balances before after)
    (hbefore : before.Perm before') (hafter : after.Perm after') : l.Balances before' after' :=
  (hafter.symm.append_left _).trans (h.trans (hbefore.append_right _))

theorem balances_append_left (others : List α) :
    l.Balances (others ++ before) (others ++ after) ↔ l.Balances before after := by
  unfold Balances
  rw [List.append_assoc]
  have hcomm := List.perm_append_comm_assoc others l.released after
  constructor
  · intro h
    exact (List.perm_append_left_iff others).mp (hcomm.trans h)
  · intro h
    exact hcomm.symm.trans (h.append_left others)

/-- Something owned before that is neither released nor owned after leaves the books unbalanced. -/
theorem Balances.length_eq (h : l.Balances before after) :
    l.released.length + after.length = before.length + l.made.length := by
  simpa using List.Perm.length_eq h

end Ledger

end Guatiao.Lib
