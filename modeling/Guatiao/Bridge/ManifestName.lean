import Guatiao.Schema.Decimal

/-!
# The names of manifests

A manifest is a file named `<name>.guatiao`, with a major and a minor behind it or without. Names are
read from their last parts on.
-/

namespace Guatiao.Bridge

section Parts

variable {stem parts : List (List UInt8)} {last : List UInt8}

theorem intercalate_concat (hne : stem ≠ []) :
    [0x2e].intercalate (stem ++ [last]) = [0x2e].intercalate stem ++ 0x2e :: last := by
  induction stem with
  | nil => exact absurd rfl hne
  | cons part rest ih =>
    rw [List.cons_append, List.intercalate_cons_of_ne_nil (List.append_ne_nil_of_right_ne_nil _ (by simp))]
    cases rest with
    | nil => simp
    | cons next rest =>
      rw [ih (List.cons_ne_nil next rest), List.intercalate_cons_of_ne_nil (List.cons_ne_nil next rest)]
      simp

/-- How long parts are with a dot behind each. -/
def stemLen (parts : List (List UInt8)) : ℕ := (parts.map fun p => p.length + 1).sum

theorem stemLen_eq (hne : parts ≠ []) :
    stemLen parts = ([0x2e].intercalate parts : List UInt8).length + 1 := by
  induction parts with
  | nil => exact absurd rfl hne
  | cons part rest ih =>
    cases rest with
    | nil => simp [stemLen]
    | cons next rest =>
      have hrest := ih (List.cons_ne_nil next rest)
      rw [List.intercalate_cons_of_ne_nil (List.cons_ne_nil next rest)]
      unfold stemLen at hrest ⊢
      rw [List.map_cons, List.sum_cons, hrest]
      simp only [List.length_append, List.length_singleton]
      omega

end Parts

/-- The numbers a manifest's file name carries. -/
structure NameNumbers where
  /-- Its major. -/
  major : Option ℕ
  /-- Its minor. -/
  minor : Option ℕ
  deriving DecidableEq

/-- The part every manifest's name has. -/
def guatiao : List UInt8 := [0x67, 0x75, 0x61, 0x74, 0x69, 0x61, 0x6f]

/-- A part as a number: ASCII digits, within 64 bits. -/
def number (part : List UInt8) : Option ℕ := (Schema.digitsValue part).filter (· < 2 ^ 64)

/-- The part before which a name's stem ends, and its numbers. The parts come last first: the source's
`parts[n - k]` is the part at `k - 1`, and the stem `parts[..n - k]` is what is left without `k`. -/
def found (parts : List (List UInt8)) : Option (List (List UInt8) × NameNumbers) :=
  if 4 ≤ parts.length ∧ parts[2]? = some guatiao then do
    let major ← parts[1]?.bind number
    let minor ← parts[0]?.bind number
    some (parts.drop 3, ⟨some major, some minor⟩)
  else if 3 ≤ parts.length ∧ parts[1]? = some guatiao ∧ (parts[0]?.bind number).isSome then do
    let major ← parts[0]?.bind number
    some (parts.drop 2, ⟨some major, none⟩)
  else if 2 ≤ parts.length ∧ parts[0]? = some guatiao then
    some (parts.drop 1, ⟨none, none⟩)
  else none

/-- The numbers of a file name that is a manifest's. -/
def nameNumbers (fileName : List UInt8) : Option NameNumbers := do
  let (stem, numbers) ← found (fileName.splitOn 0x2e).reverse
  if 1 < stemLen stem then some numbers else none

/-- What is put behind a name. -/
def dotted (part : List UInt8) : List UInt8 := 0x2e :: part

/-- The names of manifests, and the numbers they carry. -/
def Named (fileName : List UInt8) (numbers : NameNumbers) : Prop :=
  ∃ name ≠ [],
    (fileName = name ++ dotted guatiao ∧ numbers = ⟨none, none⟩) ∨
    (∃ p major, number p = some major ∧ fileName = name ++ dotted guatiao ++ dotted p ∧
      numbers = ⟨some major, none⟩) ∨
    ∃ p q major minor, number p = some major ∧ number q = some minor ∧
      fileName = name ++ dotted guatiao ++ dotted p ++ dotted q ∧ numbers = ⟨some major, some minor⟩

/-- The word stands third from the end, with no two numbers behind it, where a later one ends the name. -/
def Shadowed (fileName : List UInt8) : Prop :=
  ∃ before p,
    (0x2e ∉ p ∧ fileName = before ++ dotted guatiao ++ dotted p ++ dotted guatiao) ∨
    ((number p).isSome ∧ fileName = before ++ dotted guatiao ++ dotted guatiao ++ dotted p)

section Grammar

variable {p q fileName name : List UInt8} {n m : ℕ} {numbers : NameNumbers}

theorem dot_notMem_guatiao : 0x2e ∉ guatiao := by decide

theorem dot_notMem_of_number (h : number p = some n) : 0x2e ∉ p := by
  intro hdot
  have hdigits := Option.eq_some_of_filter_eq_some h
  unfold Schema.digitsValue at hdigits
  split at hdigits
  · cases hdigits
  · next hall =>
    rw [Bool.or_eq_true, Bool.not_eq_true', not_or, Bool.not_eq_false, List.all_eq_true] at hall
    exact absurd (hall.2 _ hdot) (by decide)

theorem number_guatiao : number guatiao = none := by decide +kernel

theorem parts_dotted (hp : 0x2e ∉ p) :
    ((name ++ dotted p).splitOn 0x2e).reverse = p :: (name.splitOn 0x2e).reverse := by
  rw [dotted, List.splitOn_append_cons_self, List.splitOn_eq_singleton hp, List.reverse_append]
  rfl

/-- Parts, last first, joined by dots. -/
def joined (parts : List (List UInt8)) : List UInt8 := [0x2e].intercalate parts.reverse

theorem joined_cons {rest : List (List UInt8)} (hne : rest ≠ []) :
    joined (p :: rest) = joined rest ++ dotted p := by
  rw [joined, List.reverse_cons, intercalate_concat fun hnil => hne (List.reverse_eq_nil_iff.mp hnil)]
  rfl

theorem joined_splitOn (name : List UInt8) : joined (name.splitOn 0x2e).reverse = name := by
  rw [joined, List.reverse_reverse, List.intercalate_splitOn]

theorem dot_notMem_of_mem (hp : p ∈ name.splitOn 0x2e) : 0x2e ∉ p := by
  induction name generalizing p with
  | nil =>
    obtain rfl := List.mem_singleton.mp hp
    exact List.not_mem_nil
  | cons b rest ih =>
    rw [List.splitOn_cons_eq_if_modifyHead] at hp
    obtain ⟨first, others, heq⟩ := List.exists_cons_of_ne_nil (List.splitOn_ne_nil 0x2e rest)
    rw [heq] at hp ih
    split at hp
    · rcases List.mem_cons.mp hp with rfl | hp
      · exact List.not_mem_nil
      · exact ih hp
    · next hb =>
      rcases List.mem_cons.mp hp with rfl | hp
      · rw [List.mem_cons, not_or]
        exact ⟨fun hdot => hb (beq_iff_eq.mpr hdot.symm), ih List.mem_cons_self⟩
      · exact ih (List.mem_cons_of_mem _ hp)

theorem stemLen_joined {stem : List (List UInt8)} (hne : stem ≠ []) :
    stemLen stem = (joined stem).length + 1 := by
  rw [joined, ← stemLen_eq fun hnil => hne (List.reverse_eq_nil_iff.mp hnil), stemLen, stemLen,
    List.map_reverse, List.sum_reverse]

theorem found_cases {parts stem : List (List UInt8)} (h : found parts = some (stem, numbers)) :
    (parts = guatiao :: stem ∧ numbers = ⟨none, none⟩) ∨
    (∃ p major, number p = some major ∧ parts = p :: guatiao :: stem ∧ numbers = ⟨some major, none⟩) ∨
    ∃ p q major minor, number p = some major ∧ number q = some minor ∧
      parts = q :: p :: guatiao :: stem ∧ numbers = ⟨some major, some minor⟩ := by
  unfold found at h
  split at h
  · next hword =>
    obtain ⟨q, p, third, rest, rfl⟩ : ∃ q p third rest, parts = q :: p :: third :: rest := by
      rcases parts with _ | ⟨q, _ | ⟨p, _ | ⟨third, rest⟩⟩⟩ <;> simp at hword ⊢
    obtain rfl : third = guatiao := by simpa using hword.2
    simp only [List.getElem?_cons_succ, List.getElem?_cons_zero, Option.bind_some, Option.bind_eq_bind,
      Option.bind_eq_some_iff] at h
    obtain ⟨major, hmajor, minor, hminor, heq⟩ := h
    cases heq
    exact .inr (.inr ⟨p, q, major, minor, hmajor, hminor, rfl, rfl⟩)
  · split at h
    · next hword =>
      obtain ⟨p, second, rest, rfl⟩ : ∃ p second rest, parts = p :: second :: rest := by
        rcases parts with _ | ⟨p, _ | ⟨second, rest⟩⟩ <;> simp at hword ⊢
      obtain rfl : second = guatiao := by simpa using hword.2.1
      simp only [List.getElem?_cons_zero, Option.bind_some, Option.bind_eq_bind,
        Option.bind_eq_some_iff] at h
      obtain ⟨major, hmajor, heq⟩ := h
      cases heq
      exact .inr (.inl ⟨p, major, hmajor, rfl, rfl⟩)
    · split at h
      · next hword =>
        obtain ⟨last, rest, rfl⟩ := List.exists_cons_of_length_pos (by omega : 0 < parts.length)
        obtain rfl : last = guatiao := by simpa using hword.2
        cases h
        exact .inl ⟨rfl, rfl⟩
      · cases h

theorem named_of_nameNumbers (h : nameNumbers fileName = some numbers) : Named fileName numbers := by
  obtain ⟨⟨stem, read⟩, hfound, hstem⟩ := Option.bind_eq_some_iff.mp h
  obtain ⟨hlong, rfl⟩ : 1 < stemLen stem ∧ read = numbers := by simpa using hstem
  have hne : stem ≠ [] := by
    rintro rfl
    exact absurd hlong (by decide)
  have hname : joined stem ≠ [] := by
    rw [stemLen_joined hne] at hlong
    exact List.length_pos_iff.mp (by omega)
  refine ⟨joined stem, hname, ?_⟩
  rw [← joined_splitOn fileName]
  have hword := joined_cons (p := guatiao) hne
  rcases found_cases hfound with ⟨hparts, rfl⟩ | ⟨p, major, hp, hparts, rfl⟩ |
    ⟨p, q, major, minor, hp, hq, hparts, rfl⟩
  · exact .inl ⟨by rw [hparts, hword], rfl⟩
  · exact .inr (.inl ⟨p, major, hp, by rw [hparts, joined_cons (by simp), hword], rfl⟩)
  · exact .inr (.inr ⟨p, q, major, minor, hp, hq,
      by rw [hparts, joined_cons (by simp), joined_cons (by simp), hword], rfl⟩)

/-- What is named so is read, unless an earlier word hides it. -/
theorem nameNumbers_of_named (h : Named fileName numbers) (hclear : ¬ Shadowed fileName) :
    nameNumbers fileName = some numbers := by
  obtain ⟨name, hname, hform⟩ := h
  obtain ⟨stem, hstem⟩ : ∃ stem, (name.splitOn 0x2e).reverse = stem := ⟨_, rfl⟩
  have hne : stem ≠ [] := fun hnil =>
    List.splitOn_ne_nil 0x2e name (List.reverse_eq_nil_iff.mp (hstem.trans hnil))
  have hjoined : joined stem = name := hstem ▸ joined_splitOn name
  have hlong : 1 < stemLen stem := by
    rw [stemLen_joined hne, hjoined]
    have hpos := List.length_pos_iff.mpr hname
    omega
  have hread (hfound : found (fileName.splitOn 0x2e).reverse = some (stem, numbers)) :
      nameNumbers fileName = some numbers := by
    rw [nameNumbers, hfound]
    exact if_pos hlong
  obtain ⟨first, rest, rfl⟩ := List.exists_cons_of_ne_nil hne
  apply hread
  rcases hform with ⟨rfl, rfl⟩ | ⟨p, major, hp, rfl, rfl⟩ | ⟨p, q, major, minor, hp, hq, rfl, rfl⟩
  · rw [parts_dotted dot_notMem_guatiao, hstem]
    unfold found
    rw [if_neg, if_neg (by simp [number_guatiao]), if_pos (by simp)]
    · rfl
    · rintro ⟨hlength, hthird⟩
      obtain ⟨second, others, rfl⟩ : ∃ second others, rest = second :: others := by
        rcases rest with _ | ⟨second, others⟩ <;> simp at hlength ⊢
      obtain rfl : second = guatiao := by simpa using hthird
      have hothers : others ≠ [] := by
        rintro rfl
        simp at hlength
      have hfirst : first ∈ name.splitOn 0x2e := by
        rw [← List.mem_reverse, hstem]
        exact List.mem_cons_self
      refine hclear ⟨joined others, first, .inl ⟨dot_notMem_of_mem hfirst, ?_⟩⟩
      rw [← hjoined, joined_cons (by simp), joined_cons hothers]
  · rw [parts_dotted (dot_notMem_of_number hp), parts_dotted dot_notMem_guatiao, hstem]
    unfold found
    rw [if_neg, if_pos (by simp [hp])]
    · simp [hp]
    · rintro ⟨hlength, hthird⟩
      obtain rfl : first = guatiao := by simpa using hthird
      have hrest : rest ≠ [] := by
        rintro rfl
        simp at hlength
      exact hclear ⟨joined rest, p, .inr ⟨by simp [hp], by rw [← hjoined, joined_cons hrest]⟩⟩
  · rw [parts_dotted (dot_notMem_of_number hq), parts_dotted (dot_notMem_of_number hp),
      parts_dotted dot_notMem_guatiao, hstem]
    unfold found
    rw [if_pos (by simp)]
    simp [hp, hq]

theorem dotted_ne_nil (p : List UInt8) : name ++ dotted p ≠ [] := by simp [dotted]

theorem nameNumbers_of_shadowed (h : Shadowed fileName) :
    nameNumbers fileName = none ∧ ∃ numbers, Named fileName numbers := by
  obtain ⟨before, p, ⟨hp, rfl⟩ | ⟨hp, rfl⟩⟩ := h
  · refine ⟨?_, ⟨none, none⟩, before ++ dotted guatiao ++ dotted p, dotted_ne_nil p, .inl ⟨rfl, rfl⟩⟩
    rw [nameNumbers, parts_dotted dot_notMem_guatiao, parts_dotted hp, parts_dotted dot_notMem_guatiao]
    unfold found
    rw [if_pos]
    · simp [number_guatiao]
    · exact ⟨by simp [Nat.one_le_iff_ne_zero], rfl⟩
  · obtain ⟨major, hmajor⟩ := Option.isSome_iff_exists.mp hp
    refine ⟨?_, ⟨some major, none⟩, before ++ dotted guatiao, dotted_ne_nil guatiao,
      .inr (.inl ⟨p, major, hmajor, rfl, rfl⟩)⟩
    rw [nameNumbers, parts_dotted (dot_notMem_of_number hmajor), parts_dotted dot_notMem_guatiao,
      parts_dotted dot_notMem_guatiao]
    unfold found
    rw [if_pos]
    · simp [number_guatiao]
    · exact ⟨by simp [Nat.one_le_iff_ne_zero], rfl⟩

end Grammar

/-- A name is read by the documented grammar exactly when no earlier word hides its reading. -/
theorem nameNumbers_exact (fileName : List UInt8) :
    (∀ numbers, nameNumbers fileName = some numbers ↔ Named fileName numbers) ↔ ¬ Shadowed fileName := by
  constructor
  · intro h hshadowed
    obtain ⟨hnone, numbers, hnamed⟩ := nameNumbers_of_shadowed hshadowed
    have hsome := (h numbers).mpr hnamed
    rw [hnone] at hsome
    cases hsome
  · exact fun hclear numbers => ⟨named_of_nameNumbers, fun hnamed => nameNumbers_of_named hnamed hclear⟩

/-- The name `a.guatiao` with the major `1` has no reading. -/
theorem nameNumbers_hidden :
    ¬ ∀ fileName numbers, nameNumbers fileName = some numbers ↔ Named fileName numbers := by
  intro h
  have hread := (h ([0x61] ++ dotted guatiao ++ dotted guatiao ++ dotted [0x31]) ⟨some 1, none⟩).mpr
    ⟨[0x61] ++ dotted guatiao, List.cons_ne_nil _ _, .inr (.inl ⟨[0x31], 1, by decide +kernel, rfl, rfl⟩)⟩
  exact absurd hread (by decide +kernel)

end Guatiao.Bridge
