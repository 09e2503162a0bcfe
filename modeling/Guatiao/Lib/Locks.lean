import Mathlib.Data.List.Perm.Basic
import Mathlib.Logic.Function.Basic

/-!
# Who has which of many cells

Each of any number of cells is free or names the thread that has it, and each thread keeps
a list of the cells it has. Taking a cell, giving it back and putting the list in another
order keep the two in step.
-/

namespace Guatiao.Lib

variable {Tid K : Type*}

/-- A cell names a thread just where the thread lists the cell, once. -/
structure Held (holder : K → Option Tid) (held : Tid → List K) : Prop where
  nodup : ∀ t, (held t).Nodup
  holds : ∀ t k, k ∈ held t ↔ holder k = some t

namespace Held

variable {holder : K → Option Tid} {held : Tid → List K} {t : Tid} {k : K} {ks : List K}

theorem start : Held (fun _ : K => (none : Option Tid)) fun _ => [] where
  nodup _ := .nil
  holds _ _ := by simp only [List.not_mem_nil, reduceCtorEq]

variable [DecidableEq Tid]

theorem move (h : Held holder held) (hks : ks.Perm (held t)) :
    Held holder (Function.update held t ks) where
  nodup u := by
    by_cases hut : u = t
    · rw [hut, Function.update_self]
      exact hks.nodup_iff.mpr (h.nodup t)
    · rw [Function.update_of_ne hut]
      exact h.nodup u
  holds u j := by
    by_cases hut : u = t
    · rw [hut, Function.update_self, hks.mem_iff, h.holds]
    · rw [Function.update_of_ne hut, h.holds]

variable [DecidableEq K]

theorem take (h : Held holder held) (hfree : holder k = none) (hks : ks.Perm (k :: held t)) :
    Held (Function.update holder k (some t)) (Function.update held t ks) := by
  have hnot : ∀ u, k ∉ held u := by
    intro u hin
    rw [h.holds, hfree] at hin
    cases hin
  refine ⟨fun u => ?_, fun u j => ?_⟩
  · by_cases hut : u = t
    · rw [hut, Function.update_self, hks.nodup_iff]
      exact List.nodup_cons.mpr ⟨hnot t, h.nodup t⟩
    · rw [Function.update_of_ne hut]
      exact h.nodup u
  · by_cases hjk : j = k
    · rw [hjk, Function.update_self]
      by_cases hut : u = t
      · rw [hut, Function.update_self, hks.mem_iff]
        simp only [List.mem_cons_self]
      · rw [Function.update_of_ne hut, Option.some.injEq]
        exact iff_of_false (hnot u) fun heq => hut heq.symm
    · rw [Function.update_of_ne hjk, ← h.holds]
      by_cases hut : u = t
      · rw [hut, Function.update_self, hks.mem_iff, List.mem_cons, or_iff_right hjk]
      · rw [Function.update_of_ne hut]

theorem give (h : Held holder held) (hks : (held t).Perm (k :: ks)) :
    Held (Function.update holder k none) (Function.update held t ks) := by
  have hnodup : (k :: ks).Nodup := hks.nodup_iff.mp (h.nodup t)
  obtain ⟨hnot, hrest⟩ := List.nodup_cons.mp hnodup
  have hheld : holder k = some t := (h.holds t k).mp (hks.mem_iff.mpr (List.mem_cons_self ..))
  refine ⟨fun u => ?_, fun u j => ?_⟩
  · by_cases hut : u = t
    · rw [hut, Function.update_self]
      exact hrest
    · rw [Function.update_of_ne hut]
      exact h.nodup u
  · by_cases hjk : j = k
    · rw [hjk, Function.update_self]
      by_cases hut : u = t
      · rw [hut, Function.update_self]
        exact iff_of_false hnot nofun
      · rw [Function.update_of_ne hut, h.holds, hheld]
        exact iff_of_false (fun heq => hut (Option.some.inj heq).symm) nofun
    · rw [Function.update_of_ne hjk, ← h.holds]
      by_cases hut : u = t
      · rw [hut, Function.update_self, hks.mem_iff, List.mem_cons, or_iff_right hjk]
      · rw [Function.update_of_ne hut]

end Held

end Guatiao.Lib
