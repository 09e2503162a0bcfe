import Guatiao.Intake.Leaves

/-!
# A field's own entries

Flattening a field settles what its store holds at or under the field's key, from the value alone,
and nothing else; and no key is at or under the keys of two fields.
-/

/-!
## What stands at or under a path

A key is at or under a path when what follows the path may follow a segment. So the entries a
store holds there are told by what follows the path, and a walk's entries by the segments of its
leaves.
-/

namespace Guatiao.Intake

open Lib

theorem opens_iff {rest : Text} : opens rest = true ↔ rest ≠ [] ∧ Boundary rest := by
  cases rest with
  | nil => simp [opens]
  | cons c rest => simp [opens, Boundary]

theorem atOrUnder_iff {key path : Text} :
    atOrUnder key path = true ↔ ∃ rest, Boundary rest ∧ key = path ++ rest := by
  simp only [atOrUnder, Bool.or_eq_true, beq_iff_eq, Bool.and_eq_true, List.isPrefixOf_iff_prefix,
    opens_iff]
  constructor
  · rintro (rfl | ⟨⟨rest, rfl⟩, -, hrest⟩)
    · exact ⟨[], .inl rfl, (List.append_nil _).symm⟩
    · rw [List.drop_left] at hrest
      exact ⟨rest, hrest, rfl⟩
  · rintro ⟨rest, hrest, rfl⟩
    by_cases hnil : rest = []
    · left
      rw [hnil, List.append_nil]
    · right
      rw [List.drop_left]
      exact ⟨List.prefix_append .., hnil, hrest⟩

theorem atOrUnder_entry (path : Text) (leaf : Leaf) : atOrUnder (leaf.entry path).1 path = true :=
  atOrUnder_iff.mpr ⟨render leaf.segments, boundary_render _, rfl⟩

theorem step_rootPath (name : Text) {rest : Text} (hrest : Boundary rest) :
    step (rootPath name ++ rest) true = .ok (some (segmentOf name, (rootPath name).length)) := by
  unfold rootPath segmentOf
  split
  · next hname => exact step_name hname hrest
  · exact step_key name rest true

theorem rootPath_injective {name other rest tail : Text} (hrest : Boundary rest)
    (htail : Boundary tail) (h : rootPath name ++ rest = rootPath other ++ tail) : name = other := by
  have hread := step_rootPath name hrest
  rw [h, step_rootPath other htail] at hread
  have hsame : segmentOf other = segmentOf name ∧ (rootPath other).length = (rootPath name).length := by
    simpa using hread
  exact (segmentOf_injective hsame.1).symm

theorem rootPath_ne_nil (name : Text) : rootPath name ≠ [] := by
  intro hnil
  have hread := step_rootPath name boundary_nil
  rw [hnil] at hread
  cases hread

theorem head_rootPath (name rest : Text) : (rootPath name ++ rest).head? ≠ some '.' := by
  unfold rootPath
  split
  · next hname =>
    obtain ⟨hne, hplain⟩ := isBareName_iff.mp hname
    intro hdot
    cases name with
    | nil => exact hne rfl
    | cons c name =>
      have hc := hplain c (List.mem_cons_self ..)
      rw [Option.some.inj hdot] at hc
      exact absurd hc (by decide)
  · cases hquoted : needsQuoting name <;> simp [keyed, Segment.display, hquoted]

/-- A key stored under a top-level name reads back as the name and the segments behind it. -/
theorem spelled_rootPath (name : Text) {segments : List Segment} (hall : ∀ s ∈ segments, s.Spellable) :
    spelled (rootPath name ++ render segments) false =
      some ((segmentOf name, (rootPath name).length) :: placed (rootPath name).length segments) := by
  have hpos : 0 < (rootPath name).length := List.length_pos_iff.mpr (rootPath_ne_nil name)
  have hhead := head_rootPath name (render segments)
  have hstep := step_rootPath name (boundary_render segments)
  obtain ⟨fuel, hfuel⟩ : ∃ fuel, (rootPath name ++ render segments).length = fuel + 1 :=
    ⟨(rootPath name ++ render segments).length - 1, by simp only [List.length_append]; omega⟩
  have hle : segments.length ≤ fuel := by
    have hle := length_le_render segments
    rw [List.length_append] at hfuel
    omega
  have hrest := spelledFrom_render false (rootPath name) (.inl hpos) hall hle
  have hlong : ¬ (rootPath name ++ render segments).length ≤ 0 := by omega
  simp only [spelled, Bool.not_false, Bool.true_and, beq_iff_eq, hhead, if_false]
  rw [hfuel]
  simp only [spelledFrom, if_neg hlong, List.drop_zero, beq_self_eq_true, Bool.not_false, Bool.and_true,
    hstep, Nat.zero_add, hrest, Option.map_some]

end Guatiao.Intake

namespace Guatiao.Intake

open Lib Schema

theorem get_clearUnder (store : Store) (path key : Text) :
    (clearUnder store path).get key = if atOrUnder key path then none else store.get key := by
  rw [clearUnder, SortedMap.get_retain]
  cases atOrUnder key path <;> rfl

theorem flatten_fst (field : FieldRef) (value : Value) (store : Store) :
    (flatten field value store).1 =
      putAll ((leaves maxDepth field value).map (Leaf.entry (rootPath field.key.toList)))
        (clearUnder store (rootPath field.key.toList)) := by
  simp only [flatten, visit_eq]
  cases hparts : parts field.kind value with
  | none =>
    have hnone : leaves maxDepth field value = [] := by
      simp only [maxDepth, leaves, hparts]
    rw [hnone]
    rfl
  | some p => exact walk_fst maxDepth _ field value _

theorem flatten_eq (field : FieldRef) (value : Value) :
    ∃ entries fits, (∀ e ∈ entries, atOrUnder e.1 (rootPath field.key.toList) = true) ∧
      ∀ store, flatten field value store =
        (putAll entries (clearUnder store (rootPath field.key.toList)), fits) := by
  refine ⟨(leaves maxDepth field value).map (Leaf.entry (rootPath field.key.toList)),
    (flatten field value SortedMap.empty).2, ?_, fun store => ?_⟩
  · intro e he
    obtain ⟨leaf, -, rfl⟩ := List.mem_map.mp he
    exact atOrUnder_entry _ leaf
  · apply Prod.ext
    · exact flatten_fst field value store
    · simp only [flatten]
      cases visit (rootPath field.key.toList) field.kind value with
      | none => rfl
      | some p => exact walk_snd_eq maxDepth _ _ _

theorem get_putAll (entries : List (Text × Text)) (store : Store) (key : Text) :
    (putAll entries store).get key =
      ((putAll entries SortedMap.empty).get key).or (store.get key) := by
  induction entries using List.reverseRecOn with
  | nil => rfl
  | append_singleton entries e ih =>
    have hlast : ∀ s : Store, putAll [e] s = s.insert e.1 e.2 := fun _ => rfl
    rw [putAll_append, putAll_append, hlast, hlast, SortedMap.get_insert, SortedMap.get_insert]
    split
    · rfl
    · exact ih

/-- At or under its key, a field holds what it would hold in an empty store; elsewhere, what was
there. -/
theorem get_flatten (field : FieldRef) (value : Value) (store : Store) (key : Text) :
    (flatten field value store).1.get key =
      if atOrUnder key (rootPath field.key.toList) then
        (flatten field value SortedMap.empty).1.get key
      else store.get key := by
  obtain ⟨entries, fits, hunder, heq⟩ := flatten_eq field value
  rw [heq, heq]
  cases hkey : atOrUnder key (rootPath field.key.toList) with
  | true =>
    rw [if_pos rfl, get_putAll, get_clearUnder, if_pos hkey, get_putAll entries (clearUnder _ _),
      get_clearUnder, if_pos hkey]
  | false =>
    have hnone : ∀ e ∈ entries, e.1 ≠ key := by
      intro e he heq
      rw [← heq, hunder e he] at hkey
      cases hkey
    rw [get_putAll_of_not_mem _ hnone, get_clearUnder, hkey]
    rfl

theorem atOrUnder_of_written {field : FieldRef} {value : Value} {key : Text}
    (h : key ∈ (flatten field value SortedMap.empty).1.keys) :
    atOrUnder key (rootPath field.key.toList) = true := by
  obtain ⟨text, hget⟩ := SortedMap.mem_keys_iff.mp h
  rw [get_flatten] at hget
  split at hget
  · assumption
  · cases hget

theorem atOrUnder_other {name other : String} (hne : name ≠ other) {key : Text}
    (h : atOrUnder key (rootPath name.toList) = true) :
    atOrUnder key (rootPath other.toList) = false := by
  rw [Bool.eq_false_iff]
  intro hother
  obtain ⟨rest, hrest, rfl⟩ := atOrUnder_iff.mp h
  obtain ⟨tail, htail, heq⟩ := atOrUnder_iff.mp hother
  exact hne (String.toList_injective (rootPath_injective hrest htail heq))

/-- Flattening a field writes the same at or under its key whatever the store, and leaves every
other entry as it was; two fields write no key in common, and none at or under the other's; and what
was flattened before into the same field leaves no trace. -/
theorem flatten_own (field : FieldRef) (value : Value) (store : Store) :
    (∀ key, (flatten field value store).1.get key =
      if atOrUnder key (rootPath field.key.toList) then
        (flatten field value SortedMap.empty).1.get key
      else store.get key) ∧
    (∀ other w, field.key ≠ FieldRef.key other →
      atOrUnder (rootPath field.key.toList) (rootPath other.key.toList) = false ∧
      ∀ key ∈ (flatten field value SortedMap.empty).1.keys,
        atOrUnder key (rootPath other.key.toList) = false ∧
          key ∉ (flatten other w SortedMap.empty).1.keys) ∧
    ∀ before, flatten field value (flatten field before store).1 = flatten field value store := by
  refine ⟨get_flatten field value store, ?_, ?_⟩
  · intro other w hne
    refine ⟨atOrUnder_other hne (atOrUnder_iff.mpr ⟨[], .inl rfl, (List.append_nil _).symm⟩), ?_⟩
    intro key hkey
    have hother := atOrUnder_other hne (atOrUnder_of_written hkey)
    refine ⟨hother, fun hwritten => ?_⟩
    rw [atOrUnder_of_written hwritten] at hother
    cases hother
  · intro before
    have hclear : clearUnder (flatten field before store).1 (rootPath field.key.toList) =
        clearUnder store (rootPath field.key.toList) := by
      apply SortedMap.ext_get
      intro key
      rw [get_clearUnder, get_clearUnder, get_flatten]
      cases atOrUnder key (rootPath field.key.toList) <;> rfl
    obtain ⟨entries, fits, -, heq⟩ := flatten_eq field value
    rw [heq, heq, hclear]

/-- A field named with a dot and the field the dot would step into keep their entries apart. -/
theorem flatten_own_dotted :
    atOrUnder (rootPath "a.b".toList) (rootPath "a".toList) = false :=
  ((flatten_own ⟨"a.b", .map [], false⟩ .null SortedMap.empty).2.1 ⟨"a", .map [], false⟩
    .null (by decide)).1

end Guatiao.Intake
