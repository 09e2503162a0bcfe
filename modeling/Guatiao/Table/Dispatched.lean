import Guatiao.Table.Matching

/-!
# What a served slot does with a call laid out for it

The arguments are taken and read back one by one, so that of a whole list one of three things holds:
the call is undefined, the handler sees every argument, or what was handed over is released.
-/

namespace Guatiao.Table

open Remote (Scalar Tree Pass ArgType AnswerType)

variable {floats : Floats} {tys : List ArgType} {args : List Arg} {laid : List (Cell × Pending)}

/-- How the storage of one argument stands to what the callee makes of it. -/
def Stands (floats : Floats) (ty : ArgType) (arg : Arg) (l : Cell × Pending) : Prop :=
  LaidAs floats ty arg l ∧
    (Matches ty arg ∧ ReadAs floats ty (place l) (seen floats ty arg) ∨
      Foreign ty arg ∧ RefusedAs floats ty (place l) arg.handed ∨
      Mixed ty arg ∧ isTaken ty = true ∧ takeArg ty (place l) = none)

theorem Accepted.stands {ty : ArgType} {arg : Arg} (h : Accepted ty arg) :
    ∃ l, Stands floats ty arg l := by
  rcases h with h | h | h
  · obtain ⟨l, hl, hr⟩ := h.laid
    exact ⟨l, hl, .inl ⟨h, hr⟩⟩
  · obtain ⟨l, hl, hr⟩ := h.laid
    exact ⟨l, hl, .inr (.inl ⟨h, hr⟩)⟩
  · obtain ⟨l, hl, hr⟩ := h.laid
    exact ⟨l, hl, .inr (.inr ⟨h, hr⟩)⟩

/-- The storage of every argument. -/
inductive StandAll (floats : Floats) : List ArgType → List Arg → List (Cell × Pending) → Prop
  | nil : StandAll floats [] [] []
  | cons {ty : ArgType} {arg : Arg} {l : Cell × Pending} {tys : List ArgType} {args : List Arg}
      {laid : List (Cell × Pending)} (one : Stands floats ty arg l)
      (rest : StandAll floats tys args laid) :
      StandAll floats (ty :: tys) (arg :: args) (l :: laid)

variable (floats) in
theorem exists_standAll (h : List.Forall₂ Accepted tys args) :
    ∃ laid, StandAll floats tys args laid ∧ ∀ i, layAll floats i (tys.zip args) = .ok laid := by
  induction h with
  | nil => exact ⟨[], .nil, fun i => rfl⟩
  | cons h _ ih =>
    obtain ⟨l, hl⟩ := h.stands
    obtain ⟨laid, hlaid, hall⟩ := ih
    refine ⟨l :: laid, .cons hl hlaid, fun i => ?_⟩
    simp [layAll, hl.1.lay i, hall (i + 1), bind, Except.bind]

theorem accepted_of_layAll (hok : ∀ ty ∈ tys, ArgTypeOk ty) (hlen : tys.length = args.length)
    {i : ℕ} (h : layAll floats i (tys.zip args) = .ok laid) : List.Forall₂ Accepted tys args := by
  induction tys generalizing args i laid with
  | nil =>
    obtain rfl : args = [] := List.length_eq_zero_iff.mp hlen.symm
    exact .nil
  | cons ty tys ih =>
    cases args with
    | nil => simp at hlen
    | cons arg args =>
      rw [List.zip_cons_cons, layAll] at h
      obtain ⟨l, hl, h⟩ := Lib.bind_eq_ok h
      obtain ⟨later, hlater, -⟩ := Lib.bind_eq_ok h
      have htail := ih (fun ty hty => hok ty (List.mem_cons_of_mem _ hty)) (by simpa using hlen)
        hlater
      exact .cons (accepted_of_lay (hok ty List.mem_cons_self) hl) htail

namespace StandAll

theorem length_eq (h : StandAll floats tys args laid) :
    tys.length = args.length ∧ laid.length = tys.length := by
  induction h with
  | nil => exact ⟨rfl, rfl⟩
  | cons _ _ ih => exact ⟨congrArg (· + 1) ih.1, congrArg (· + 1) ih.2⟩

theorem undefined (h : StandAll floats tys args laid)
    (hmixed : ¬ List.Forall₂ (fun ty arg => Matches ty arg ∨ Foreign ty arg) tys args) :
    takeAll (tys.zip (laid.map place)) = none := by
  induction h with
  | nil => exact absurd .nil hmixed
  | @cons ty arg l tys args laid one rest ih =>
    rw [List.map_cons, List.zip_cons_cons, takeAll]
    rcases one.2 with ⟨hm, -⟩ | ⟨hf, -⟩ | ⟨-, htaken, hnone⟩
    · rw [ih fun hrest => hmixed (.cons (.inl hm) hrest)]
      split
      · cases takeArg ty (place l) <;> rfl
      · rfl
    · rw [ih fun hrest => hmixed (.cons (.inr hf) hrest)]
      split
      · cases takeArg ty (place l) <;> rfl
      · rfl
    · simp [htaken, hnone]

end StandAll

theorem Matches.handed_eq_nil {ty : ArgType} {arg : Arg} (h : Matches ty arg)
    (htaken : ¬ isTaken ty = true) : arg.handed = [] := by
  cases h <;> first | rfl | exact absurd rfl htaken

/-- How the loops over the arguments end: the handler's arguments, or a refusal. -/
def Ends (floats : Floats) (tys : List ArgType) (args : List Arg) (cells : List Cell) (t : Taken) :
    Prop :=
  (List.Forall₂ Matches tys args ∧ t.events = [] ∧ t.refused = none ∧
      readAll floats ((tys.zip cells).zip t.taken) =
        some (.ok (List.zipWith (seen floats) tys args))) ∨
    (¬ List.Forall₂ Matches tys args ∧
      ∃ e, e.status ≠ .ok ∧ (t.refused = some e ∨
        t.refused = none ∧ readAll floats ((tys.zip cells).zip t.taken) = some (.error e)))

/-- What the loop that takes has taken: what it released and what it holds is what was handed over,
each once. -/
structure Took (floats : Floats) (tys : List ArgType) (args : List Arg)
    (laid : List (Cell × Pending)) (t : Taken) : Prop where
  runs : takeAll (tys.zip (laid.map place)) = some t
  owned : ∃ gone : List Owned, t.events = gone.map .released ∧
    (gone ++ (t.taken.filterMap id).flatMap Arg.handed).Perm (args.flatMap Arg.handed)
  ends : Ends floats tys args (laid.map place) t

namespace Took

variable {ty : ArgType} {arg : Arg} {l : Cell × Pending} {t : Taken}

theorem cons_matches (ht : Took floats tys args laid t) (hm : Matches ty arg)
    (hread : ReadAs floats ty (place l) (seen floats ty arg)) :
    ∃ t, Took floats (ty :: tys) (arg :: args) (l :: laid) t := by
  obtain ⟨gone, hgone, hperm⟩ := ht.owned
  unfold ReadAs at hread
  by_cases htaken : isTaken ty = true
  · rw [if_pos htaken] at hread
    refine ⟨⟨some (seen floats ty arg) :: t.taken, t.refused, t.events⟩, ?_, ⟨gone, hgone, ?_⟩, ?_⟩
    · simp [takeAll, htaken, hread, ht.runs]
    · simp only [List.filterMap_cons, id_eq, List.flatMap_cons, handed_seen]
      exact List.perm_append_comm_assoc _ _ _ |>.trans (hperm.append_left arg.handed)
    · rcases ht.ends with ⟨hall, hev, hno, hok⟩ | ⟨hall, e, he, hre⟩
      · refine .inl ⟨.cons hm hall, hev, hno, ?_⟩
        simp [readAll, hok]
      · refine .inr ⟨fun h => hall (List.forall₂_cons.mp h).2, e, he, ?_⟩
        simpa [readAll] using hre
  · rw [if_neg htaken] at hread
    refine ⟨⟨none :: t.taken, t.refused, t.events⟩, ?_, ⟨gone, hgone, ?_⟩, ?_⟩
    · simp [takeAll, htaken, ht.runs]
    · simpa [hm.handed_eq_nil htaken] using hperm
    · rcases ht.ends with ⟨hall, hev, hno, hok⟩ | ⟨hall, e, he, hre⟩
      · refine .inl ⟨.cons hm hall, hev, hno, ?_⟩
        simp [readAll, hread, hok]
      · refine .inr ⟨fun h => hall (List.forall₂_cons.mp h).2, e, he, ?_⟩
        simpa [readAll, hread] using hre

/-- A map with a key that is not text is freed where it is taken, or refused where it is read. -/
theorem cons_foreign (ht : Took floats tys args laid t) (hf : Foreign ty arg)
    (hrefused : RefusedAs floats ty (place l) arg.handed) :
    ∃ t, Took floats (ty :: tys) (arg :: args) (l :: laid) t := by
  obtain ⟨gone, hgone, hperm⟩ := ht.owned
  have hnot : ¬ List.Forall₂ Matches (ty :: tys) (arg :: args) := by
    intro h
    have hm := (List.forall₂_cons.mp h).1
    cases hf <;> cases hm <;> simp_all
  have hbad : (ProviderError.ofStatus .badValue).status ≠ .ok := by decide
  unfold RefusedAs at hrefused
  by_cases htaken : isTaken ty = true
  · rw [if_pos htaken] at hrefused
    refine ⟨⟨none :: t.taken, some (.ofStatus .badValue), arg.handed.map .released ++ t.events⟩,
      ?_, ⟨arg.handed ++ gone, by simp [hgone], ?_⟩, .inr ⟨hnot, _, hbad, .inl rfl⟩⟩
    · simp [takeAll, htaken, hrefused, ht.runs]
    · simp only [List.filterMap_cons, id_eq, List.flatMap_cons, List.append_assoc]
      exact hperm.append_left arg.handed
  · rw [if_neg htaken] at hrefused
    refine ⟨⟨none :: t.taken, t.refused, t.events⟩, ?_, ⟨gone, hgone, ?_⟩, ?_⟩
    · simp [takeAll, htaken, ht.runs]
    · simpa [hrefused.2] using hperm
    · cases hre : t.refused with
      | some e =>
        rcases ht.ends with ⟨-, -, hno, -⟩ | ⟨-, e', he', hre' | ⟨hno, -⟩⟩
        · rw [hre] at hno
          cases hno
        · rw [hre] at hre'
          exact .inr ⟨hnot, e', he', .inl hre'⟩
        · rw [hre] at hno
          cases hno
      | none =>
        refine .inr ⟨hnot, _, hbad, .inr ⟨rfl, ?_⟩⟩
        simp [readAll, hrefused.1]

end Took

theorem StandAll.took (h : StandAll floats tys args laid)
    (hunmixed : List.Forall₂ (fun ty arg => Matches ty arg ∨ Foreign ty arg) tys args) :
    ∃ t, Took floats tys args laid t := by
  induction h with
  | nil =>
    exact ⟨⟨[], none, []⟩, rfl, ⟨[], rfl, List.Perm.refl _⟩, .inl ⟨.nil, rfl, rfl, rfl⟩⟩
  | cons one rest ih =>
    obtain ⟨hone, hrest⟩ := List.forall₂_cons.mp hunmixed
    obtain ⟨t, ht⟩ := ih hrest
    rcases one.2 with ⟨hm, hread⟩ | ⟨hf, hrefused⟩ | ⟨hmix, -, -⟩
    · exact ht.cons_matches hm hread
    · exact ht.cons_foreign hf hrefused
    · cases hmix
      rcases hone with hone | hone <;> cases hone

section Dispatch

variable {w : World} {s : SlotDescription} {slot ctx : ℕ} {out : Option (Option Alloc)} {err : Bool}

/-- What the handler comes to, written where the caller asked. -/
def reply (w : World) (s : SlotDescription) (slot ctx : ℕ) (out : Option (Option Alloc)) (err : Bool)
    (args : List Arg) : Dispatched :=
  match w.call ctx slot args with
  | .panicked => ⟨.internal, none, none, [.served ctx slot args]⟩
  | .answered r => answer w s r out err [.served ctx slot args]

theorem caught_matches (h : StandAll w.floats s.args args laid)
    (hm : List.Forall₂ Matches s.args args) :
    caught w s slot ctx out err (laid.map place) =
      some (reply w s slot ctx out err (List.zipWith (seen w.floats) s.args args)) := by
  obtain ⟨t, ht⟩ := h.took (hm.imp fun _ _ h => .inl h)
  rcases ht.ends with ⟨-, hev, hno, hok⟩ | ⟨hnot, -⟩
  · simp only [caught, ht.runs, hno, hok, hev, reply, bind, Option.bind, List.nil_append]
    cases w.call ctx slot (List.zipWith (seen w.floats) s.args args) <;> rfl
  · exact absurd hm hnot

variable (slot ctx out err) in
/-- Arguments refused where they are read never reach the handler, and what was handed over is
released, each once. -/
theorem caught_refused (h : StandAll w.floats s.args args laid)
    (hunmixed : List.Forall₂ (fun ty arg => Matches ty arg ∨ Foreign ty arg) s.args args)
    (hm : ¬ List.Forall₂ Matches s.args args) :
    ∃ (e : ProviderError) (gone : List Owned), e.status ≠ .ok ∧ gone.Perm (args.flatMap Arg.handed) ∧
      caught w s slot ctx out err (laid.map place) =
        some (answerError s e err (gone.map .released)) := by
  obtain ⟨t, ht⟩ := h.took hunmixed
  obtain ⟨gone, hgone, hperm⟩ := ht.owned
  have hevents : t.events ++ releaseAll (t.taken.filterMap id) =
      (gone ++ (t.taken.filterMap id).flatMap Arg.handed).map .released := by
    rw [hgone, releaseAll, List.map_append]
  rcases ht.ends with ⟨hall, -⟩ | ⟨-, e, he, hre | ⟨hno, hre⟩⟩
  · exact absurd hall hm
  · refine ⟨e, _, he, hperm, ?_⟩
    simp only [caught, ht.runs, hre, bind, Option.bind, answer, hevents]
  · refine ⟨e, _, he, hperm, ?_⟩
    simp only [caught, ht.runs, hno, hre, bind, Option.bind, answer, hevents]

theorem caught_undefined (h : StandAll w.floats s.args args laid)
    (hmixed : ¬ List.Forall₂ (fun ty arg => Matches ty arg ∨ Foreign ty arg) s.args args) :
    caught w s slot ctx out err (laid.map place) = none := by
  simp [caught, h.undefined hmixed]

/-- The cells of a call: `ctx`, the arguments, the out slot and the error slot. -/
def callCells (s : SlotDescription) (ctx : ℕ) (held : List Cell) (out : List Cell) : List Cell :=
  Cell.ptr (.address ctx) :: held ++ out ++ (if s.fallible then [.ptr .err] else [])

theorem dispatch_callCells {kind : KindDescription} {held : List Cell} {carried : Option Alloc}
    (hs : kind.slots[slot]? = some s) (hlen : held.length = s.args.length) :
    dispatch w kind slot
        (callCells s ctx held (if s.answer.isSome then [.ptr (.out carried)] else [])) =
      caught w s slot ctx (if s.answer.isSome then some carried else none) s.fallible held := by
  have hat (k : ℕ) (rest : List Cell) :
      (Cell.ptr (.address ctx) :: (held ++ rest))[1 + s.args.length + k]? = rest[k]? := by
    rw [show 1 + s.args.length + k = (s.args.length + k) + 1 by omega, List.getElem?_cons_succ,
      List.getElem?_append_right (by omega)]
    congr 1
    omega
  have htake (rest : List Cell) :
      ((Cell.ptr (.address ctx) :: (held ++ rest)).drop 1).take s.args.length = held := by
    simp [← hlen]
  have hat0 := fun rest => hat 0 rest
  simp only [Nat.add_zero] at hat0
  unfold dispatch callCells
  simp only [hs, bind, Option.bind, List.cons_append, List.append_assoc, htake, hlen, lt_irrefl,
    if_false, List.getElem?_cons_zero, Cell.ptr?, Pointer.address?]
  cases ha : s.answer.isSome with
  | true =>
    simp only [if_true, hat0, Bool.toNat_true, hat, List.cons_append, List.nil_append,
      List.getElem?_cons_zero, Pointer.out?]
    cases hf : s.fallible with
    | true => simp [Pointer.err?]
    | false => simp
  | false =>
    simp only [Bool.false_eq_true, if_false, Bool.toNat_false, Nat.add_zero, hat0, List.nil_append]
    cases hf : s.fallible with
    | true => simp [Pointer.err?]
    | false => simp

end Dispatch

end Guatiao.Table
