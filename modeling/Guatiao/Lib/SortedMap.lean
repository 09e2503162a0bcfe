import Guatiao.Lib.AssocList
import Mathlib.Data.List.Lex
import Mathlib.Data.String.Basic
import Mathlib.Order.Basic

/-!
# Sorted maps

A map kept as a list in strictly increasing order of its keys. The order is a field, so
a map whose scan from a key would miss an entry cannot be built.
-/

namespace Guatiao.Lib

/-- Entries in strictly increasing order of their keys. -/
structure SortedMap (κ β : Type*) [LinearOrder κ] where
  entries : List (κ × β)
  sorted : entries.Pairwise fun p q => p.1 < q.1

namespace SortedMap

variable {κ β : Type*} [LinearOrder κ]

/-- The map of no entries. -/
def empty : SortedMap κ β := ⟨[], .nil⟩

/-- The value under a key. -/
def get (key : κ) (m : SortedMap κ β) : Option β := AssocList.get key m.entries

/-- The entries with one more, or one replaced, in order. -/
def insertEntry (key : κ) (v : β) : List (κ × β) → List (κ × β)
  | [] => [(key, v)]
  | (k, w) :: rest =>
    if key < k then (key, v) :: (k, w) :: rest
    else if key = k then (key, v) :: rest
    else (k, w) :: insertEntry key v rest

variable {key : κ} {v : β} {entries : List (κ × β)}

theorem mem_insertEntry {p : κ × β}
    (h : p ∈ insertEntry key v entries) : p = (key, v) ∨ p ∈ entries := by
  induction entries with
  | nil => exact .inl (List.mem_singleton.mp h)
  | cons q rest ih =>
    obtain ⟨k, w⟩ := q
    simp only [insertEntry] at h
    split at h
    · exact List.mem_cons.mp h
    · split at h
      · exact (List.mem_cons.mp h).imp id (List.mem_cons_of_mem _)
      · rcases List.mem_cons.mp h with rfl | h
        · exact .inr (List.mem_cons_self ..)
        · exact (ih h).imp id (List.mem_cons_of_mem _)

theorem insertEntry_sorted (h : entries.Pairwise fun p q => p.1 < q.1) :
    (insertEntry key v entries).Pairwise fun p q => p.1 < q.1 := by
  induction entries with
  | nil => simp [insertEntry]
  | cons q rest ih =>
    obtain ⟨k, w⟩ := q
    obtain ⟨hk, hrest⟩ := List.pairwise_cons.mp h
    simp only [insertEntry]
    split
    · next hlt =>
      refine List.pairwise_cons.mpr ⟨fun p hp => ?_, h⟩
      rcases List.mem_cons.mp hp with rfl | hp
      · exact hlt
      · exact hlt.trans (hk p hp)
    · next hnlt =>
      split
      · next heq =>
        subst heq
        exact List.pairwise_cons.mpr ⟨hk, hrest⟩
      · next hne =>
        refine List.pairwise_cons.mpr ⟨fun p hp => ?_, ih hrest⟩
        rcases mem_insertEntry hp with rfl | hp
        · exact lt_of_le_of_ne (not_lt.mp hnlt) (Ne.symm hne)
        · exact hk p hp

/-- The map with a value stored under a key. -/
def insert (key : κ) (v : β) (m : SortedMap κ β) : SortedMap κ β :=
  ⟨insertEntry key v m.entries, insertEntry_sorted m.sorted⟩

/-- The entries whose keys pass a test. -/
def retain (keep : κ → Bool) (m : SortedMap κ β) : SortedMap κ β :=
  ⟨m.entries.filter fun p => keep p.1, m.sorted.filter _⟩

/-- The map without one key. -/
def remove (key : κ) (m : SortedMap κ β) : SortedMap κ β := m.retain fun k => decide (k ≠ key)

/-- The map without its first key. -/
def popFirst (m : SortedMap κ β) : SortedMap κ β :=
  ⟨m.entries.tail, m.sorted.tail⟩

/-- The keys of the map, in order. -/
def keys (m : SortedMap κ β) : List κ := AssocList.keys m.entries

/-- The entries from a key on. -/
def fromKey (start : κ) (m : SortedMap κ β) : List (κ × β) :=
  m.entries.dropWhile fun p => decide (p.1 < start)

/-- The entries from a key on, up to the first whose key fails a test. -/
def scan (start : κ) (keep : κ → Bool) (m : SortedMap κ β) : List (κ × β) :=
  (m.fromKey start).takeWhile fun p => keep p.1

@[simp] theorem get_empty (key : κ) : (empty : SortedMap κ β).get key = none := rfl

theorem get_insertEntry_self (key : κ) (v : β) (entries : List (κ × β)) :
    AssocList.get key (insertEntry key v entries) = some v := by
  induction entries with
  | nil => simp [insertEntry, AssocList.get]
  | cons q rest ih =>
    obtain ⟨k, w⟩ := q
    simp only [insertEntry]
    split
    · simp [AssocList.get]
    · split
      · simp [AssocList.get]
      · next hne => simp [AssocList.get, Ne.symm hne, ih]

theorem get_insertEntry_of_ne {k : κ} (hne : k ≠ key) (v : β) (entries : List (κ × β)) :
    AssocList.get k (insertEntry key v entries) = AssocList.get k entries := by
  induction entries with
  | nil => simp [insertEntry, AssocList.get, Ne.symm hne]
  | cons q rest ih =>
    obtain ⟨l, w⟩ := q
    simp only [insertEntry]
    split
    · simp [AssocList.get, Ne.symm hne]
    · split
      · next heq =>
        subst heq
        simp [AssocList.get, Ne.symm hne]
      · simp only [AssocList.get, ih]

@[simp] theorem get_insert_self (key : κ) (v : β) (m : SortedMap κ β) :
    (m.insert key v).get key = some v :=
  get_insertEntry_self key v m.entries

theorem get_insert_of_ne {k : κ} (hne : k ≠ key) (v : β) (m : SortedMap κ β) :
    (m.insert key v).get k = m.get k :=
  get_insertEntry_of_ne hne v m.entries

theorem get_insert (key k : κ) (v : β) (m : SortedMap κ β) :
    (m.insert key v).get k = if k = key then some v else m.get k := by
  split
  · next h => rw [h, get_insert_self]
  · next h => exact get_insert_of_ne h v m

theorem get_filter (keep : κ → Bool) (k : κ) (entries : List (κ × β)) :
    AssocList.get k (entries.filter fun p => keep p.1) =
      if keep k then AssocList.get k entries else none := by
  induction entries with
  | nil => simp
  | cons q rest ih =>
    obtain ⟨l, w⟩ := q
    rw [List.filter_cons]
    by_cases hk : l = k
    · subst hk
      split
      · simp [AssocList.get, *]
      · simp [*]
    · split
      · simp only [AssocList.get, if_neg hk, ih]
      · simp only [AssocList.get, if_neg hk, ih]

theorem get_retain (keep : κ → Bool) (k : κ) (m : SortedMap κ β) :
    (m.retain keep).get k = if keep k then m.get k else none :=
  get_filter keep k m.entries

theorem keys_nodup (h : entries.Pairwise fun p q => p.1 < q.1) :
    (AssocList.keys entries).Nodup := by
  unfold AssocList.keys
  exact List.pairwise_map.mpr (h.imp fun hlt => ne_of_lt hlt)

theorem mem_entries_iff {m : SortedMap κ β} :
    (key, v) ∈ m.entries ↔ m.get key = some v :=
  ⟨AssocList.get_of_mem (keys_nodup m.sorted), AssocList.mem_of_get⟩

@[simp] theorem get_remove_self (key : κ) (m : SortedMap κ β) : (m.remove key).get key = none := by
  simp only [remove, get_retain, ne_eq, not_true_eq_false, decide_false, Bool.false_eq_true, if_false]

theorem get_remove_of_ne {k : κ} (hne : k ≠ key) (m : SortedMap κ β) :
    (m.remove key).get k = m.get k := by
  simp only [remove, get_retain, ne_eq, hne, not_false_eq_true, decide_true, if_true]

theorem get_remove (key k : κ) (m : SortedMap κ β) :
    (m.remove key).get k = if k = key then none else m.get k := by
  by_cases hk : k = key
  · rw [if_pos hk, hk, get_remove_self]
  · rw [if_neg hk, get_remove_of_ne hk]

theorem nodup_keys (m : SortedMap κ β) : m.keys.Nodup := keys_nodup m.sorted

theorem mem_keys_iff {m : SortedMap κ β} : key ∈ m.keys ↔ ∃ v, m.get key = some v := by
  rw [keys, ← AssocList.get_isSome_iff, Option.isSome_iff_exists]
  exact Iff.rfl

theorem ext_get {m n : SortedMap κ β} (h : ∀ key, m.get key = n.get key) : m = n := by
  have hmem : ∀ p, p ∈ m.entries ↔ p ∈ n.entries := by
    intro p
    obtain ⟨key, v⟩ := p
    rw [mem_entries_iff, mem_entries_iff, h key]
  have hnodup : ∀ l : SortedMap κ β, l.entries.Nodup :=
    fun l => l.sorted.imp fun hlt heq => absurd (congrArg Prod.fst heq) (ne_of_lt hlt)
  have hperm : m.entries.Perm n.entries :=
    (List.perm_ext_iff_of_nodup (hnodup m) (hnodup n)).mpr hmem
  have hentries : m.entries = n.entries := by
    apply hperm.eq_of_pairwise _ m.sorted n.sorted
    intro p q _ _ hpq hqp
    exact absurd (hpq.trans hqp) (lt_irrefl _)
  cases m
  cases n
  congr

theorem dropWhile_lt (start : κ) (h : entries.Pairwise fun p q => p.1 < q.1) :
    entries.dropWhile (fun p => decide (p.1 < start)) =
      entries.filter fun p => decide (start ≤ p.1) := by
  induction entries with
  | nil => rfl
  | cons p rest ih =>
    obtain ⟨hp, hrest⟩ := List.pairwise_cons.mp h
    by_cases hlt : p.1 < start
    · rw [List.dropWhile_cons_of_pos (by simpa using hlt),
        List.filter_cons_of_neg (by simpa using hlt), ih hrest]
    · rw [List.dropWhile_cons_of_neg (by simpa using hlt)]
      symm
      rw [List.filter_eq_self]
      intro q hq
      rw [decide_eq_true_eq]
      rcases List.mem_cons.mp hq with rfl | hq
      · exact not_lt.mp hlt
      · exact (not_lt.mp hlt).trans (hp q hq).le

theorem takeWhile_down {keep : κ → Bool} (h : entries.Pairwise fun p q => p.1 < q.1)
    (hdown : ∀ p ∈ entries, ∀ q ∈ entries, p.1 ≤ q.1 → keep q.1 = true → keep p.1 = true) :
    entries.takeWhile (fun p => keep p.1) = entries.filter fun p => keep p.1 := by
  induction entries with
  | nil => rfl
  | cons p rest ih =>
    obtain ⟨hp, hrest⟩ := List.pairwise_cons.mp h
    have ih := ih hrest fun a ha b hb =>
      hdown a (List.mem_cons_of_mem _ ha) b (List.mem_cons_of_mem _ hb)
    by_cases hkeep : keep p.1 = true
    · simp only [List.takeWhile_cons, List.filter_cons, hkeep, if_true, ih]
    · simp only [List.takeWhile_cons, List.filter_cons, if_neg hkeep]
      symm
      rw [List.filter_eq_nil_iff]
      intro q hq hkeepq
      exact hkeep (hdown p (List.mem_cons_self ..) q (List.mem_cons_of_mem _ hq) (hp q hq).le hkeepq)

section Scan

variable {m n : SortedMap κ β} {start : κ} {keep : κ → Bool} (hstart : ∀ k, keep k = true → start ≤ k)
  (hdown : ∀ k l, start ≤ k → k ≤ l → keep l = true → keep k = true)
include hstart hdown

/-- A scan finds every entry that passes its test, when the keys that pass it follow the
first one together. -/
theorem scan_eq : m.scan start keep = (m.retain keep).entries := by
  rw [scan, fromKey, dropWhile_lt start m.sorted, takeWhile_down (m.sorted.filter _), List.filter_filter]
  · refine List.filter_congr fun p _ => ?_
    by_cases hkeep : keep p.1 = true
    · simp [hkeep, hstart p.1 hkeep]
    · simp [hkeep]
  · intro p hp q hq hle hkeep
    have hp := (List.mem_filter.mp hp).2
    exact hdown p.1 q.1 (by simpa using hp) hle hkeep

theorem mem_scan_iff : (key, v) ∈ m.scan start keep ↔ keep key = true ∧ m.get key = some v := by
  rw [scan_eq hstart hdown, mem_entries_iff, get_retain]
  split <;> simp [*]

theorem scan_congr (h : ∀ k, keep k = true → m.get k = n.get k) :
    m.scan start keep = n.scan start keep := by
  have hsame : m.retain keep = n.retain keep := by
    apply ext_get
    intro k
    rw [get_retain, get_retain]
    split
    · exact h k ‹_›
    · rfl
  rw [scan_eq hstart hdown, scan_eq hstart hdown, hsame]

end Scan

theorem cons_le_iff {α : Type*} [LinearOrder α] {a b : α} {k l : List α} :
    a :: k ≤ b :: l ↔ a < b ∨ a = b ∧ k ≤ l := by
  rw [le_iff_lt_or_eq, List.cons_lt_cons_iff, le_iff_lt_or_eq, List.cons.injEq]
  tauto

theorem prefix_le {α : Type*} [LinearOrder α] {start l : List α} (h : start <+: l) : start ≤ l := by
  obtain ⟨rest, rfl⟩ := h
  induction start with
  | nil => exact not_lt.mp (List.not_lt_nil _)
  | cons a start ih => exact cons_le_iff.mpr (.inr ⟨rfl, ih⟩)

theorem prefix_of_le {α : Type*} [LinearOrder α] {start k l : List α} (hk : start ≤ k)
    (hkl : k ≤ l) (hl : start <+: l) : start <+: k := by
  induction start generalizing k l with
  | nil => exact List.nil_prefix
  | cons a start ih =>
    obtain ⟨rest, rfl⟩ := hl
    cases k with
    | nil => exact absurd hk (not_le.mpr (List.nil_lt_cons ..))
    | cons b k =>
      rw [List.cons_append] at hkl
      rcases cons_le_iff.mp hk with hab | ⟨rfl, hstart⟩
      · rcases cons_le_iff.mp hkl with hba | ⟨rfl, -⟩
        · exact absurd (hab.trans hba) (lt_irrefl a)
        · exact absurd hab (lt_irrefl _)
      · rcases cons_le_iff.mp hkl with hba | ⟨-, hrest⟩
        · exact absurd hba (lt_irrefl _)
        · obtain ⟨rest', rfl⟩ := ih hstart hrest (List.prefix_append ..)
          exact ⟨rest', rfl⟩

end SortedMap

end Guatiao.Lib
