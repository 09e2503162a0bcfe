import Guatiao.Lib.AssocList

/-!
# The order keys were born in

A key is born when it is stored and was not there, and is gone when it is removed. An association
list that is stored into and removed from holds the keys alive, each once, the older first.
-/

namespace Guatiao.Lib.AssocList

variable {κ β : Type*}

/-- What happens to a key. -/
inductive KeyEvent (κ : Type*)
  | stored (key : κ)
  | removed (key : κ)

/-- The keys of a list are the ones alive, each once, the older first. -/
structure InBirthOrder (born : κ → Option ℕ) (m : List (κ × β)) : Prop where
  nodup : (keys m).Nodup
  alive : ∀ k, k ∈ keys m ↔ (born k).isSome
  older : (keys m).Pairwise fun a b => ∀ i ∈ born a, ∀ j ∈ born b, i < j

/-- The same of a moment: every birth is before it. -/
structure Aged (s : ℕ × (κ → Option ℕ)) (m : List (κ × β)) : Prop where
  order : InBirthOrder s.2 m
  before : ∀ k, ∀ i ∈ s.2 k, i < s.1

theorem aged_nil : Aged (0, fun _ => none) ([] : List (κ × β)) where
  order := ⟨List.nodup_nil, by simp, List.Pairwise.nil⟩
  before := by simp

variable [DecidableEq κ]

/-- The pairs but for the first under a key. -/
def remove (key : κ) (m : List (κ × β)) : List (κ × β) := m.eraseP fun e => e.1 = key

/-- The keys alive, with when each was born, one event on. -/
def live (s : ℕ × (κ → Option ℕ)) : KeyEvent κ → ℕ × (κ → Option ℕ)
  | .stored key => (s.1 + 1, fun k => if k = key then (s.2 k).or (some s.1) else s.2 k)
  | .removed key => (s.1 + 1, fun k => if k = key then none else s.2 k)

/-- When each key alive after some events was born. -/
def births (events : List (KeyEvent κ)) : κ → Option ℕ :=
  (events.foldl live (0, fun _ => none)).2

variable {s : ℕ × (κ → Option ℕ)} {m : List (κ × β)}

theorem keys_remove (key : κ) (m : List (κ × β)) : keys (remove key m) = (keys m).erase key := by
  induction m with
  | nil => rfl
  | cons e m ih =>
    by_cases hk : e.1 = key
    · simp [remove, hk]
    · rw [keys_cons, List.erase_cons_tail (by simpa using hk), ← ih]
      simp [remove, hk]

/-- A store ages a list by one birth, or none. -/
theorem Aged.set (h : Aged s m) (key : κ) (v : β) : Aged (live s (.stored key)) (set key v m) := by
  obtain ⟨⟨hnodup, halive, holder⟩, hbefore⟩ := h
  have hborn : ∀ k, k ≠ key → (live s (.stored key)).2 k = s.2 k := fun k hk => if_neg hk
  have hkey : (live s (.stored key)).2 key = (s.2 key).or (some s.1) := if_pos rfl
  refine ⟨⟨nodup_keys_set hnodup, fun k => ?_, ?_⟩, fun k i hi => ?_⟩
  · rw [mem_keys_set]
    by_cases hk : k = key
    · subst hk
      rw [hkey]
      simp
    · rw [hborn k hk, ← halive]
      exact or_iff_right hk
  · by_cases hmem : key ∈ keys m
    · have hsame : (live s (.stored key)).2 = s.2 := by
        funext k
        by_cases hk : k = key
        · subst hk
          obtain ⟨i, hi⟩ := Option.isSome_iff_exists.mp ((halive k).mp hmem)
          rw [hkey, hi, Option.some_or]
        · exact hborn k hk
      rw [keys_set_of_mem hmem, hsame]
      exact holder
    · have hnone : s.2 key = none := by
        rw [← Option.not_isSome_iff_eq_none, ← halive]
        exact hmem
      have hne : ∀ k ∈ keys m, k ≠ key := fun k hk heq => hmem (heq ▸ hk)
      rw [set_of_not_mem hmem, keys_append, List.pairwise_append]
      refine ⟨?_, List.pairwise_singleton _ _, fun a ha b hb => ?_⟩
      · refine holder.imp_of_mem fun ha hb hab => ?_
        rw [hborn _ (hne _ ha), hborn _ (hne _ hb)]
        exact hab
      · obtain rfl : b = key := by simpa using hb
        rw [hborn a (hne a ha), hkey, hnone]
        intro i hi j hj
        obtain rfl : s.1 = j := by simpa using hj
        exact hbefore a i hi
  · by_cases hk : k = key
    · subst hk
      rw [hkey, Option.mem_def, Option.or_eq_some_iff] at hi
      rcases hi with hi | ⟨-, hi⟩
      · exact Nat.lt_succ_of_lt (hbefore k i hi)
      · cases hi
        exact Nat.lt_succ_self _
    · rw [hborn k hk] at hi
      exact Nat.lt_succ_of_lt (hbefore k i hi)

theorem Aged.remove (h : Aged s m) (key : κ) :
    Aged (live s (.removed key)) (AssocList.remove key m) := by
  obtain ⟨⟨hnodup, halive, holder⟩, hbefore⟩ := h
  have hborn : ∀ k, k ≠ key → (live s (.removed key)).2 k = s.2 k := fun k hk => if_neg hk
  have hgone : (live s (.removed key)).2 key = none := if_pos rfl
  refine ⟨⟨?_, fun k => ?_, ?_⟩, fun k i hi => ?_⟩
  · rw [keys_remove]
    exact hnodup.erase key
  · rw [keys_remove, hnodup.mem_erase_iff]
    by_cases hk : k = key
    · subst hk
      simp [hgone]
    · rw [hborn k hk, ← halive]
      exact and_iff_right hk
  · rw [keys_remove]
    refine (holder.sublist List.erase_sublist).imp_of_mem fun ha hb hab => ?_
    rw [hborn _ (hnodup.mem_erase_iff.mp ha).1, hborn _ (hnodup.mem_erase_iff.mp hb).1]
    exact hab
  · by_cases hk : k = key
    · subst hk
      rw [hgone] at hi
      cases hi
    · rw [hborn k hk] at hi
      exact Nat.lt_succ_of_lt (hbefore k i hi)

end Guatiao.Lib.AssocList
