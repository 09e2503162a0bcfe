import Guatiao.Table.Dispatched

/-!
# A call through a served table

A table built from the description the caller holds passes the caller's checks, so that a call of a
slot it fills comes down to what the slot does with the arguments laid out.
-/

namespace Guatiao.Table

open Remote (Scalar Tree Pass ArgType AnswerType)

section Words

variable {kind : KindDescription} {implemented : SlotDescription → Bool} {table : ServedTable}

variable {made : List (ℕ × Role)} {s : SlotDescription}

theorem mem_makeWords {l : List (SlotDescription × ℕ)}
    (h : makeWords kind implemented l = .ok made) (word : ℕ) (role : Role) :
    (word, role) ∈ made ↔
      ∃ s i, (s, i) ∈ l ∧ implemented s = true ∧ word = kind.wordOf i ∧ role = .slot i := by
  induction l generalizing made with
  | nil =>
    cases h
    simp
  | cons head rest ih =>
    obtain ⟨s, i⟩ := head
    obtain ⟨-, -, h⟩ := Lib.bind_eq_ok h
    split at h
    next himp =>
      obtain ⟨later, hlater, hok⟩ := Lib.bind_eq_ok h
      cases hok
      rw [List.mem_cons, ih hlater]
      constructor
      · rintro (heq | ⟨s', i', hmem, hrest⟩)
        · cases heq
          exact ⟨s, i, List.mem_cons_self, himp, rfl, rfl⟩
        · exact ⟨s', i', List.mem_cons_of_mem _ hmem, hrest⟩
      · rintro ⟨s', i', hmem, himp', rfl, rfl⟩
        rcases List.mem_cons.mp hmem with heq | hmem
        · cases heq
          exact .inl rfl
        · exact .inr ⟨s', i', hmem, himp', rfl, rfl⟩
    next himp =>
      split at h
      · cases h
      · rw [ih h]
        constructor
        · rintro ⟨s', i', hmem, hrest⟩
          exact ⟨s', i', List.mem_cons_of_mem _ hmem, hrest⟩
        · rintro ⟨s', i', hmem, himp', hrest⟩
          rcases List.mem_cons.mp hmem with heq | hmem
          · cases heq
            exact absurd himp' himp
          · exact ⟨s', i', hmem, himp', hrest⟩

theorem signature_of_makeWords {l : List (SlotDescription × ℕ)}
    (h : makeWords kind implemented l = .ok made) {i : ℕ} (hmem : (s, i) ∈ l) : signature s = .ok () := by
  induction l generalizing made with
  | nil => cases hmem
  | cons head rest ih =>
    obtain ⟨s', i'⟩ := head
    obtain ⟨_, hsig, h⟩ := Lib.bind_eq_ok h
    rcases List.mem_cons.mp hmem with heq | hmem
    · cases heq
      exact hsig
    · split at h
      · obtain ⟨later, hlater, -⟩ := Lib.bind_eq_ok h
        exact ih hlater hmem
      · split at h
        · cases h
        · exact ih h hmem

/-- Words written one by one: each holds what was written to it, when all that was is one thing. -/
theorem foldl_set_getElem? {words : List (Option Role)} {k : ℕ}
    {r : Role} (hk : k < words.length) (hone : ∀ r', (k, r') ∈ made → r' = r) :
    (made.foldl (fun words m => words.set m.1 (some m.2)) words)[k]? =
      if (k, r) ∈ made then some (some r) else words[k]? := by
  induction made generalizing words with
  | nil => simp
  | cons m made ih =>
    obtain ⟨k', r'⟩ := m
    rw [List.foldl_cons, ih (by simpa using hk) fun r hr => hone r (List.mem_cons_of_mem _ hr)]
    by_cases hkk : k' = k
    · subst hkk
      obtain rfl := hone r' List.mem_cons_self
      simp [hk]
    · have hne : (k, r) ≠ (k', r') := fun h => hkk (congrArg Prod.fst h).symm
      simp [hne, List.getElem?_set_ne hkk]

theorem new_word (hnew : ServedTable.new kind implemented = .ok table) {slot : ℕ}
    (hs : kind.slots[slot]? = some s) :
    table.words[kind.wordOf slot]?.join = if implemented s then some (.slot slot) else none := by
  obtain ⟨made, hmade, hok⟩ := Lib.bind_eq_ok hnew
  cases hok
  obtain ⟨hlt, -⟩ := List.getElem?_eq_some_iff.mp hs
  have hmem := mem_makeWords hmade
  have hiff (word : ℕ) (role : Role) (hword : word = kind.wordOf slot) :
      (word, role) ∈ (if kind.object then [(0, Role.destroy)] else []) ++ made ↔
        implemented s = true ∧ role = .slot slot := by
    subst hword
    have hdestroy : (kind.wordOf slot, role) ∉
        (if kind.object then [(0, Role.destroy)] else []) := by
      unfold KindDescription.wordOf
      cases hobj : kind.object <;> simp
    rw [List.mem_append, or_iff_right hdestroy, hmem]
    constructor
    · rintro ⟨s', i, hi, himp, hw, rfl⟩
      obtain rfl : slot = i := by
        unfold KindDescription.wordOf at hw
        omega
      have hs' : kind.slots[slot]? = some s' := by simpa using List.mem_zipIdx_iff_getElem?.mp hi
      rw [hs] at hs'
      exact ⟨(Option.some.inj hs') ▸ himp, rfl⟩
    · rintro ⟨himp, rfl⟩
      exact ⟨s, slot, List.mem_zipIdx_iff_getElem?.mpr (by simpa using hs), himp, rfl, rfl⟩
  have hin : kind.wordOf slot <
      (List.replicate (kind.slots.length + kind.object.toNat) (none : Option Role)).length := by
    rw [List.length_replicate, KindDescription.wordOf]
    omega
  rw [foldl_set_getElem? (r := .slot slot) hin fun r hr => ((hiff _ r rfl).mp hr).2]
  by_cases himp : implemented s = true
  · rw [if_pos ((hiff _ _ rfl).mpr ⟨himp, rfl⟩), if_pos himp]
    rfl
  · rw [if_neg fun h => himp ((hiff _ _ rfl).mp h).1, if_neg himp, List.getElem?_replicate,
      if_pos (by simpa using hin)]
    rfl

theorem new_header (hnew : ServedTable.new kind implemented = .ok table) :
    table.structSize = .ofNat kind.size ∧ table.floorHash = kind.floorHash := by
  obtain ⟨made, -, hok⟩ := Lib.bind_eq_ok hnew
  cases hok
  exact ⟨rfl, rfl⟩

theorem signature_of_new (hnew : ServedTable.new kind implemented = .ok table) {slot : ℕ}
    (hs : kind.slots[slot]? = some s) : signature s = .ok () := by
  obtain ⟨made, hmade, -⟩ := Lib.bind_eq_ok hnew
  exact signature_of_makeWords hmade (List.mem_zipIdx_iff_getElem?.mpr (by simpa using hs))

end Words

/-- The allocator a slot's answer is asked in. -/
def SlotDescription.home (s : SlotDescription) : Alloc := if s.sensitive then .wiping else .rust

/-- What the out slot's carrier records: for a tree only. -/
def carriedBy (answer : Option AnswerType) (home : Alloc) : Option Alloc :=
  match answer with
  | some (.tree _) => some home
  | _ => none

theorem forAnswer_of_signature {s : SlotDescription} (h : signature s = .ok ()) (home : Alloc) :
    ∃ out, Out.forAnswer s.answer home = .ok out ∧
      out.address =
        (if s.answer.isSome then [.ptr (.out (carriedBy s.answer home))] else []) := by
  obtain ⟨_, -, h⟩ := Lib.bind_eq_ok h
  cases ha : s.answer with
  | none => exact ⟨_, rfl, rfl⟩
  | some ty =>
    cases ty with
    | scalar scalar =>
      rw [ha] at h
      cases scalar <;> first | exact ⟨_, rfl, rfl⟩ | cases h
    | text => exact ⟨_, rfl, rfl⟩
    | tree tree => cases tree <;> exact ⟨_, rfl, rfl⟩
    | object kind => exact ⟨_, rfl, rfl⟩

section Call

variable {w : World} {kind : KindDescription} {implemented : SlotDescription → Bool}
  {table : ServedTable} {slot ctx : ℕ} {s : SlotDescription} {args : List Arg}
  {laid : List (Cell × Pending)}

/-- Where a slot's answer goes in a call. -/
def SlotDescription.outSlot (s : SlotDescription) : Option (Option Alloc) :=
  if s.answer.isSome then some (carriedBy s.answer s.home) else none

variable (w ctx args) in
theorem callRaw_eq (hnew : ServedTable.new kind implemented = .ok table)
    (hs : kind.slots[slot]? = some s) (himp : implemented s = true)
    (hsize : kind.size < 2 ^ 32) :
    ∃ out, Out.forAnswer s.answer s.home = .ok out ∧
      callRaw w kind table kind.size ctx slot args =
        if args.length ≠ s.args.length then
          refuse (miscounted s args.length) (args.flatMap Arg.handed)
        else match layAll w.floats 0 (s.args.zip args) with
        | .error e => refuse e (args.flatMap Arg.handed)
        | .ok laid =>
          (dispatch w kind slot (callCells s ctx (laid.map place)
            (if s.answer.isSome then [.ptr (.out (carriedBy s.answer s.home))] else []))).map
              (finish w s s.home out (laid.map Prod.snd)) := by
  obtain ⟨hstruct, hhash⟩ := new_header hnew
  obtain ⟨out, hout, haddress⟩ := forAnswer_of_signature (signature_of_new hnew hs) s.home
  have hword := new_word hnew hs
  rw [if_pos himp] at hword
  have hfit : (UInt32.ofNat kind.size).toNat = kind.size := by
    simpa using hsize
  refine ⟨out, hout, ?_⟩
  have hheader : ¬ kind.size < headerSize := by
    unfold KindDescription.size
    omega
  have hfloor : ¬ min (UInt32.ofNat kind.size).toNat kind.size < kind.floor := by
    rw [hfit, KindDescription.floor, min_self]
    exact lt_irrefl _
  simp only [callRaw, hs, if_neg hheader, hhash, hstruct, ne_eq, not_true_eq_false, if_false,
    if_neg hfloor, hword]
  congr 1
  cases layAll w.floats 0 (s.args.zip args) with
  | error e => rfl
  | ok laid =>
    have hhome : (if s.sensitive then Alloc.wiping else Alloc.rust) = s.home := rfl
    simp only [hhome, hout, haddress, callCells]

variable (w ctx args) in
theorem callRaw_refused (hnew : ServedTable.new kind implemented = .ok table)
    (hs : kind.slots[slot]? = some s) (himp : implemented s = true)
    (hsize : kind.size < 2 ^ 32) (hnot : ¬ List.Forall₂ Accepted s.args args) :
    ∃ e, callRaw w kind table kind.size ctx slot args = refuse e (args.flatMap Arg.handed) := by
  obtain ⟨out, -, hcall⟩ := callRaw_eq w ctx args hnew hs himp hsize
  split at hcall
  next => exact ⟨_, hcall⟩
  next hlen =>
    split at hcall
    next e _ => exact ⟨e, hcall⟩
    next laid hlay =>
      have hlen' : s.args.length = args.length := (not_not.mp hlen).symm
      exact absurd (accepted_of_layAll s.wellFormed hlen' hlay) hnot

theorem answerError_status (s : SlotDescription) (e : ProviderError) (err : Bool)
    (events : List Event) :
    (answerError s e err events).status = if e.status = .ok then .internal else e.status := by
  unfold answerError
  split <;> rfl

theorem answerError_status_ne (s : SlotDescription) (e : ProviderError) (err : Bool)
    (events : List Event) : (answerError s e err events).status ≠ .ok := by
  rw [answerError_status]
  split
  · decide
  · assumption

theorem finish_refused {home : Alloc} {out : Out} {pending : List Pending} {d : Dispatched}
    (h : d.status ≠ .ok) :
    finish w s home out pending d = ⟨.error (errorOf w s d), d.events⟩ := if_pos h

/-- Every lent argument is left as something that settles into its home. -/
def SettlesAll (w : World) (args : List Arg) : Prop :=
  ∀ i arg, args[i]? = some arg → Settles w i arg

theorem settleAll_eq_ok {floats : Floats} {tys : List ArgType}
    (h : StandAll floats tys args laid) (i : ℕ) :
    (∃ u, settleAll w i (laid.map Prod.snd) = .ok u) ↔
      ∀ k arg, args[k]? = some arg → Settles w (i + k) arg := by
  induction h generalizing i with
  | nil => exact ⟨fun _ k arg hk => by simp at hk, fun _ => ⟨_, rfl⟩⟩
  | @cons ty arg l tys args laid one rest ih =>
    rw [List.map_cons, settleAll]
    have hone := one.1.settles w i
    constructor
    · rintro ⟨u, hu⟩ k arg' hk
      cases hset : l.2.settle w i with
      | error e => simp [hset] at hu
      | ok u' =>
        rw [hset] at hu
        cases k with
        | zero =>
          obtain rfl : arg = arg' := by simpa using hk
          exact hone.mp ⟨u', hset⟩
        | succ k =>
          have := (ih (i + 1)).mp ⟨u, hu⟩ k arg' (by simpa using hk)
          rwa [Nat.add_assoc, Nat.add_comm 1 k] at this
    · intro hall
      obtain ⟨u, hu⟩ := hone.mpr (hall 0 arg rfl)
      rw [hu]
      apply (ih (i + 1)).mpr
      intro k arg' hk
      have := hall (k + 1) arg' (by simpa using hk)
      rwa [Nat.add_assoc, Nat.add_comm 1 k]

/-- What the handler comes to for arguments that match. -/
def SlotDescription.replied (s : SlotDescription) (w : World) (slot ctx : ℕ) (args : List Arg) :
    Dispatched :=
  reply w s slot ctx s.outSlot s.fallible (List.zipWith (seen w.floats) s.args args)

variable (w ctx args) in
theorem callRaw_matches (hnew : ServedTable.new kind implemented = .ok table)
    (hs : kind.slots[slot]? = some s) (himp : implemented s = true)
    (hsize : kind.size < 2 ^ 32) (hm : List.Forall₂ Matches s.args args) :
    ∃ out pending, Out.forAnswer s.answer s.home = .ok out ∧
      ((∃ u, settleAll w 0 pending = .ok u) ↔ SettlesAll w args) ∧
      callRaw w kind table kind.size ctx slot args =
        some (finish w s s.home out pending (s.replied w slot ctx args)) := by
  obtain ⟨out, hout, hcall⟩ := callRaw_eq w ctx args hnew hs himp hsize
  obtain ⟨laid, hstand, hlay⟩ := exists_standAll w.floats (hm.imp fun _ _ h => .inl h)
  refine ⟨out, laid.map Prod.snd, hout, ?_, ?_⟩
  · rw [settleAll_eq_ok hstand]
    simp only [Nat.zero_add, SettlesAll]
  · have hlen := hstand.length_eq
    rw [hcall, if_neg (not_not.mpr hlen.1.symm), hlay 0]
    simp only [dispatch_callCells hs (List.length_map place ▸ hlen.2), caught_matches hstand hm,
      Option.map_some]
    rfl

variable (w ctx args) in
theorem callRaw_foreign (hnew : ServedTable.new kind implemented = .ok table)
    (hs : kind.slots[slot]? = some s) (himp : implemented s = true)
    (hsize : kind.size < 2 ^ 32)
    (hunmixed : List.Forall₂ (fun ty arg => Matches ty arg ∨ Foreign ty arg) s.args args)
    (hm : ¬ List.Forall₂ Matches s.args args) :
    ∃ (e : ProviderError) (gone : List Owned), gone.Perm (args.flatMap Arg.handed) ∧
      callRaw w kind table kind.size ctx slot args = refuse e gone := by
  obtain ⟨out, hout, hcall⟩ := callRaw_eq w ctx args hnew hs himp hsize
  have haccepted : List.Forall₂ Accepted s.args args :=
    hunmixed.imp fun _ _ h => h.elim .inl fun hf => .inr (.inl hf)
  obtain ⟨laid, hstand, hlay⟩ := exists_standAll w.floats haccepted
  obtain ⟨e, gone, he, hperm, hcaught⟩ := caught_refused slot ctx s.outSlot
    s.fallible hstand hunmixed hm
  have hlen := hstand.length_eq
  refine ⟨errorOf w s (answerError s e s.fallible (gone.map .released)), gone, hperm, ?_⟩
  rw [hcall, if_neg (not_not.mpr hlen.1.symm), hlay 0]
  rw [SlotDescription.outSlot] at hcaught
  simp only [dispatch_callCells hs (List.length_map place ▸ hlen.2), hcaught, Option.map_some,
    finish_refused (answerError_status_ne _ _ _ _)]
  rfl

variable (w ctx args) in
theorem callRaw_undefined (hnew : ServedTable.new kind implemented = .ok table)
    (hs : kind.slots[slot]? = some s) (himp : implemented s = true)
    (hsize : kind.size < 2 ^ 32) (haccepted : List.Forall₂ Accepted s.args args)
    (hmixed : ¬ List.Forall₂ (fun ty arg => Matches ty arg ∨ Foreign ty arg) s.args args) :
    callRaw w kind table kind.size ctx slot args = none := by
  obtain ⟨out, hout, hcall⟩ := callRaw_eq w ctx args hnew hs himp hsize
  obtain ⟨laid, hstand, hlay⟩ := exists_standAll w.floats haccepted
  have hlen := hstand.length_eq
  rw [hcall, if_neg (not_not.mpr hlen.1.symm), hlay 0]
  simp only [dispatch_callCells hs (List.length_map place ▸ hlen.2),
    caught_undefined hstand hmixed, Option.map_none]

variable (w ctx args) in
/-- A slot the kind does not have or the table does not fill, or a table larger than its header can
say, is refused. -/
theorem callRaw_unreached (hnew : ServedTable.new kind implemented = .ok table)
    (h : ∀ s, kind.slots[slot]? = some s → implemented s = true → ¬ kind.size < 2 ^ 32) :
    ∃ e, callRaw w kind table kind.size ctx slot args = refuse e (args.flatMap Arg.handed) := by
  obtain ⟨hstruct, hhash⟩ := new_header hnew
  have hheader : ¬ kind.size < headerSize := by
    unfold KindDescription.size
    omega
  cases hs : kind.slots[slot]? with
  | none => exact ⟨noSlot, by simp only [callRaw, hs]⟩
  | some s =>
    by_cases hsize : kind.size < 2 ^ 32
    · have himp : ¬ implemented s = true := fun himp => h s hs himp hsize
      have hword := new_word hnew hs
      rw [if_neg himp] at hword
      have hfit : (UInt32.ofNat kind.size).toNat = kind.size := by
        simpa using hsize
      have hfloor : ¬ min (UInt32.ofNat kind.size).toNat kind.size < kind.floor := by
        rw [hfit, KindDescription.floor, min_self]
        exact lt_irrefl _
      refine ⟨unfilled s, ?_⟩
      simp only [callRaw, hs, if_neg hheader, hhash, hstruct, ne_eq, not_true_eq_false, if_false,
        if_neg hfloor, hword]
    · have hfloor : min (UInt32.ofNat kind.size).toNat kind.size < kind.floor := by
        have hlt := (UInt32.ofNat kind.size).toNat_lt
        rw [KindDescription.floor]
        omega
      refine ⟨undersized kind (min (UInt32.ofNat kind.size).toNat kind.size), ?_⟩
      simp only [callRaw, hs, if_neg hheader, hhash, hstruct, ne_eq, not_true_eq_false, if_false,
        if_pos hfloor]

end Call

end Guatiao.Table
