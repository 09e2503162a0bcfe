import Guatiao.Merge.Built
import Guatiao.Merge.Held
import Mathlib.Data.List.Induction
import Mathlib.Tactic.Tauto

/-!
# What a union of two lists is

The earlier list's items stand where they were, an earlier map perhaps with a later map merged in.
Behind them are the later's items that are new and no maps, and behind those its maps that were
merged into none.
-/

namespace Guatiao.Merge

open Lib

/-- A later map merged into an earlier item at a position: with maps merged by position, the one
there, where both are maps and share a key. -/
def overlap (options : MergeOptions) (later : List Value) (item : Value) (at_ : ℕ) : Option Value :=
  if options.mergelists then partner later item at_ else none

/-- What an earlier item is in the union: itself, or with the later map merged in. -/
def Kept (options : MergeOptions) (below : Step Value) (path : List String) (later : List Value)
    (e : Value × ℕ) (kept : Value) : Prop :=
  match overlap options later e.1 e.2 with
  | some l => mergeMaps below (path ++ [toString e.2]) e.1 l = .ok kept
  | none => kept = e.1

/-- The later's items that are no maps, and new: neither in the earlier list nor before them. -/
def fresh (earlier later : List Value) : List Value :=
  (later.zipIdx.filter fun e =>
    !isMap e.1 && !earlier.contains e.1 && !(later.take e.2).contains e.1).map Prod.fst

/-- The later's maps that are merged into no earlier item. -/
def remaining (options : MergeOptions) (earlier later : List Value) : List Value :=
  (later.zipIdx.filter fun e =>
    isMap e.1 && !earlier[e.2]?.any fun item => (overlap options later item e.2).isSome).map Prod.fst

theorem fresh_append_singleton (earlier later : List Value) (item : Value) :
    fresh earlier (later ++ [item]) = fresh earlier later ++
      if isMap item = false ∧ item ∉ earlier ∧ item ∉ later then [item] else [] := by
  have hbefore : ((later ++ [item]).zipIdx.filter fun e =>
      !isMap e.1 && !earlier.contains e.1 && !((later ++ [item]).take e.2).contains e.1) =
      (later.zipIdx.filter fun e =>
        !isMap e.1 && !earlier.contains e.1 && !(later.take e.2).contains e.1) ++
        if isMap item = false ∧ item ∉ earlier ∧ item ∉ later then [(item, later.length)] else [] := by
    rw [List.zipIdx_append, List.filter_append]
    congr 1
    · apply List.filter_congr
      intro e he
      have hlt : e.2 < later.length := by
        have := (List.mem_zipIdx he).2.1
        omega
      rw [List.take_append_of_le_length (Nat.le_of_lt hlt)]
    · rw [List.zipIdx_singleton, Nat.zero_add, List.filter_singleton, List.take_append_length]
      simp only [Bool.and_eq_true, Bool.not_eq_true', and_assoc,
        Bool.cond_eq_ite]
      congr 1
      simp
  unfold fresh
  rw [hbefore, List.map_append]
  congr 1
  split <;> rfl

variable {later : List Value} {options : MergeOptions} {below : Step Value} {path : List String}

theorem mem_fresh {earlier : List Value} {item : Value} :
    item ∈ fresh earlier later ↔ item ∈ later ∧ isMap item = false ∧ item ∉ earlier := by
  induction later using List.reverseRecOn with
  | nil => simp [fresh]
  | append_singleton later last ih =>
    rw [fresh_append_singleton, List.mem_append, ih, List.mem_append, List.mem_singleton]
    constructor
    · rintro (⟨hmem, hmap, hout⟩ | hlast)
      · exact ⟨.inl hmem, hmap, hout⟩
      · split at hlast
        · next hnew =>
          obtain rfl := List.mem_singleton.mp hlast
          exact ⟨.inr rfl, hnew.1, hnew.2.1⟩
        · cases hlast
    · rintro ⟨hmem | rfl, hmap, hout⟩
      · exact .inl ⟨hmem, hmap, hout⟩
      · by_cases hbefore : item ∈ later
        · exact .inl ⟨hbefore, hmap, hout⟩
        · right
          rw [if_pos ⟨hmap, hout, hbefore⟩]
          exact List.mem_singleton_self item

theorem nodup_fresh (earlier later : List Value) : (fresh earlier later).Nodup := by
  induction later using List.reverseRecOn with
  | nil => exact List.nodup_nil
  | append_singleton later last ih =>
    rw [fresh_append_singleton]
    split
    · next hnew =>
      refine List.nodup_append.mpr ⟨ih, List.nodup_singleton last, ?_⟩
      rintro item hitem _ hlast rfl
      obtain rfl := List.mem_singleton.mp hlast
      exact hnew.2.2 (mem_fresh.mp hitem).1
    · rwa [List.append_nil]

theorem pushUnique_append (built later more : List Value) :
    pushUnique built (later ++ more) = pushUnique (pushUnique built later) more := by
  induction later generalizing built with
  | nil => rfl
  | cons item later ih =>
    simp only [List.cons_append, pushUnique]
    split
    · exact ih _
    · exact ih _

theorem pushUnique_eq (earlier later : List Value) :
    pushUnique earlier later = earlier ++ fresh earlier later := by
  induction later using List.reverseRecOn with
  | nil => simp [pushUnique, fresh]
  | append_singleton later item ih =>
    rw [pushUnique_append, ih, fresh_append_singleton, pushUnique, pushUnique, pushUnique]
    have hheld : held (earlier ++ fresh earlier later) item = true ↔
        item ∈ earlier ∨ item ∈ later ∧ isMap item = false ∧ item ∉ earlier := by
      rw [held, List.any_eq_true, ← mem_fresh, ← List.mem_append]
      constructor
      · rintro ⟨v, hv, hsame⟩
        rwa [← (beq_iff_eq.mp hsame : v = item)]
      · exact fun hmem => ⟨item, hmem, beq_self_eq_true _⟩
    by_cases hnew : isMap item = false ∧ item ∉ earlier ∧ item ∉ later
    · have hout : held (earlier ++ fresh earlier later) item = false := by
        rw [← Bool.not_eq_true, hheld]
        tauto
      rw [if_pos hnew, hnew.1, hout, List.append_assoc]
      rfl
    · rw [if_neg hnew, List.append_nil]
      by_cases hmap : isMap item = true
      · simp [hmap]
      · have hin : held (earlier ++ fresh earlier later) item = true := by
          rw [hheld]
          rw [Bool.not_eq_true] at hmap
          tauto
        simp [hin]

theorem mergePositions_append (merge : String → Value → Value → Except MergeError Value)
    (later : List Value) (at_ : ℕ) (items more : List Value) :
    mergePositions merge later at_ (items ++ more) = (do
      let merged ← mergePositions merge later at_ items
      let rest ← mergePositions merge later (at_ + items.length) more
      return merged ++ rest) := by
  induction items generalizing at_ with
  | nil =>
    simp only [List.nil_append, mergePositions, List.length_nil, Nat.add_zero]
    cases mergePositions merge later at_ more <;> rfl
  | cons item items ih =>
    have hlength : at_ + (item :: items).length = at_ + 1 + items.length := by
      rw [List.length_cons]
      omega
    simp only [List.cons_append, mergePositions, ih, hlength]
    cases partner later item at_ with
    | none =>
      cases mergePositions merge later (at_ + 1) items with
      | error e => rfl
      | ok out => cases mergePositions merge later (at_ + 1 + items.length) more <;> rfl
    | some l =>
      dsimp only
      cases merge (toString at_) item l with
      | error e => rfl
      | ok merged =>
        cases mergePositions merge later (at_ + 1) items with
        | error e => rfl
        | ok out => cases mergePositions merge later (at_ + 1 + items.length) more <;> rfl

theorem mergePositions_ok_iff (hmaps : options.mergelists = true) (at_ : ℕ) (items : List Value)
    {kept : List Value} :
    mergePositions (fun at_ => mergeMaps below (path ++ [at_])) later at_ items = .ok kept ↔
      List.Forall₂ (Kept options below path later) (items.zipIdx at_) kept := by
  have hoverlap (item : Value) (at_ : ℕ) : overlap options later item at_ = partner later item at_ :=
    if_pos hmaps
  induction items generalizing at_ kept with
  | nil =>
    simp only [mergePositions, List.zipIdx_nil, List.forall₂_nil_left_iff, Except.ok.injEq, eq_comm]
  | cons item items ih =>
    rw [mergePositions, List.zipIdx_cons, List.forall₂_cons_left_iff]
    simp only [Kept, hoverlap, ← ih]
    cases partner later item at_ with
    | none =>
      cases mergePositions (fun at_ => mergeMaps below (path ++ [at_])) later (at_ + 1) items with
      | error e => simp [bind, Except.bind]
      | ok out => simp [bind, Except.bind, pure, Except.pure, eq_comm]
    | some l =>
      dsimp only
      cases mergeMaps below (path ++ [toString at_]) item l with
      | error e => simp [bind, Except.bind]
      | ok merged =>
        cases mergePositions (fun at_ => mergeMaps below (path ++ [at_])) later (at_ + 1) items with
        | error e => simp [bind, Except.bind]
        | ok out => simp [bind, Except.bind, pure, Except.pure, eq_comm]

theorem forall₂_kept_iff (hmaps : options.mergelists = false) (at_ : ℕ) (items : List Value)
    {kept : List Value} :
    List.Forall₂ (Kept options below path later) (items.zipIdx at_) kept ↔ kept = items := by
  have hoverlap (item : Value) (at_ : ℕ) : overlap options later item at_ = none := by
    rw [overlap, hmaps]
    rfl
  induction items generalizing at_ kept with
  | nil => rw [List.zipIdx_nil, List.forall₂_nil_left_iff]
  | cons item items ih =>
    rw [List.zipIdx_cons, List.forall₂_cons_left_iff]
    simp only [Kept, hoverlap, ih]
    constructor
    · rintro ⟨_, _, rfl, rfl, rfl⟩
      rfl
    · rintro rfl
      exact ⟨item, items, rfl, rfl, rfl⟩

theorem leftOver_eq (hmaps : options.mergelists = true) (earlier later : List Value) :
    leftOver (earlier ++ fresh earlier later) later = remaining options earlier later := by
  unfold leftOver remaining
  refine congrArg _ (List.filter_congr fun e _ => ?_)
  simp only [overlap, hmaps, if_true]
  congr 2
  by_cases hlt : e.2 < earlier.length
  · rw [List.getElem?_append_left hlt]
  · rw [List.getElem?_append_right (Nat.le_of_not_lt hlt), List.getElem?_eq_none (Nat.le_of_not_lt hlt)]
    cases hget : (fresh earlier later)[e.2 - earlier.length]? with
    | none => rfl
    | some item =>
      have hmap := (mem_fresh.mp (List.mem_of_getElem? hget)).2.1
      rw [Option.any_some, Option.any_none, partner]
      cases later[e.2]? <;> simp [Option.filter, hmap]

theorem remaining_eq (hmaps : options.mergelists = false)
    (earlier later : List Value) : remaining options earlier later = later.filter isMap := by
  unfold remaining
  have hany (e : Value × ℕ) :
      (earlier[e.2]?.any fun item => (overlap options later item e.2).isSome) = false := by
    cases earlier[e.2]? <;> simp [overlap, hmaps]
  simp only [hany, Bool.not_false, Bool.and_true]
  calc (later.zipIdx.filter fun e => isMap e.1).map Prod.fst
      = (later.zipIdx.map Prod.fst).filter isMap := by rw [List.filter_map]; rfl
    _ = later.filter isMap := by rw [List.zipIdx_map_fst]

/-- A union of two lists is the earlier's items as they are kept, what is new of the later's, and
its maps that remain; and there is one where every overlapping map can be merged. -/
theorem unionLists_ok_iff {earlier merged : List Value} :
    unionLists options below path earlier later = .ok merged ↔
      ∃ kept, List.Forall₂ (Kept options below path later) earlier.zipIdx kept ∧
        merged = kept ++ fresh earlier later ++ remaining options earlier later := by
  unfold unionLists
  rw [pushUnique_eq]
  cases hmaps : options.mergelists with
  | false =>
    simp only [Bool.false_eq_true, if_false, forall₂_kept_iff hmaps, exists_eq_left,
      remaining_eq hmaps, Except.ok.injEq]
    exact eq_comm
  | true =>
    have hfresh (at_ : ℕ) : mergePositions (fun at_ => mergeMaps below (path ++ [at_])) later at_
        (fresh earlier later) = .ok (fresh earlier later) :=
      mergePositions_of_builtNoMaps (fun item hitem => (mem_fresh.mp hitem).2.1) at_
    simp only [if_true, mergePositions_append, hfresh, leftOver_eq hmaps,
      ← mergePositions_ok_iff hmaps]
    cases mergePositions (fun at_ => mergeMaps below (path ++ [at_])) later 0 earlier with
    | error e => simp [bind, Except.bind]
    | ok out => simp [bind, Except.bind, pure, Except.pure, eq_comm]

end Guatiao.Merge
