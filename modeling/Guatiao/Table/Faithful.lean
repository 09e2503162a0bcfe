import Guatiao.Table.Answered

/-!
# A call through a table is the call itself

A call whose arguments match reaches the handler once, and what the handler comes to is what the
caller gets, as the slot has it. Every other call is refused before the handler.
-/

namespace Guatiao.Table

open Remote (Scalar Tree Pass ArgType AnswerType)

/-- The calls of the handler in what was done. -/
def servedIn (events : List Event) : List (ℕ × ℕ × List Arg) :=
  events.filterMap fun
    | .served ctx slot args => some (ctx, slot, args)
    | _ => none

@[simp] theorem servedIn_nil : servedIn [] = [] := rfl

@[simp] theorem servedIn_append (l l' : List Event) :
    servedIn (l ++ l') = servedIn l ++ servedIn l' := List.filterMap_append

@[simp] theorem servedIn_served (ctx slot : ℕ) (args : List Arg) (l : List Event) :
    servedIn (.served ctx slot args :: l) = (ctx, slot, args) :: servedIn l := rfl

@[simp] theorem servedIn_made (b : Block) (l : List Event) :
    servedIn (.made b :: l) = servedIn l := rfl

@[simp] theorem servedIn_release (o : Owned) (l : List Event) :
    servedIn (.released o :: l) = servedIn l := rfl

@[simp] theorem servedIn_released (l : List Owned) : servedIn (l.map .released) = [] := by
  induction l with
  | nil => rfl
  | cons o l ih => rwa [List.map_cons, servedIn_release]

section Served

variable {w : World} {α : Type}

@[simp] theorem servedIn_moved (n : Node α) (home : Alloc) :
    servedIn (moved w n home).2 = [] := by
  unfold moved
  split
  · rfl
  · split <;> rfl

@[simp] theorem servedIn_movedMap (m : Node Entries) (home : Alloc) :
    servedIn (movedMap w m home).2 = [] := by
  unfold movedMap
  split
  · exact servedIn_moved m home
  · rfl

@[simp] theorem servedIn_intoAnswer (home : Alloc) (out : Out) :
    servedIn (out.intoAnswer w home).2 = [] := by
  cases out with
  | text t alloc =>
    by_cases hhome : home = .wiping
    · simp [Out.intoAnswer, hhome, wrapped]
    · simp [Out.intoAnswer, hhome]
  | value v => exact servedIn_moved v home
  | map m => exact servedIn_movedMap m home
  | list l => exact servedIn_moved l home
  | _ => rfl

theorem servedIn_writeTree {out : Option (Option Alloc)} {fallback : Alloc} {n : Node α}
    {move : Node α → Alloc → Except ProviderError (Node α) × List Event} {wrap : Node α → Out}
    (hmove : ∀ home, servedIn (move n home).2 = []) :
    servedIn (writeTree out fallback n move wrap).events = [] := by
  unfold writeTree
  split
  · rfl
  next carried =>
    have h := hmove (returnAllocOr carried fallback)
    split
    next heq => rwa [heq] at h
    next heq => rwa [heq] at h

theorem servedIn_asValue {floats : Floats} {a : Answer} {n : Node Value} {events : List Event}
    (h : asValue floats a = .ok (n, events)) : servedIn events = [] := by
  cases a <;> simp only [asValue] at h
  case float bits =>
    split at h
    · cases h
      rfl
    · cases h
  all_goals
    cases h
    try rfl

/-- Writing an answer calls no handler. -/
theorem servedIn_writeAnswer (ty : Option AnswerType) (sensitive : Bool) (a : Answer)
    (out : Option (Option Alloc)) : servedIn (writeAnswer w ty sensitive a out).events = [] := by
  have hconverted (v : Except ProviderError Out) :
      servedIn (writeConverted out a v).events = [] := by
    cases v <;> exact servedIn_released a.handed
  have htree {α : Type} (n : Node α) (fallback : Alloc) (wrap : Node α → Out) :
      servedIn (writeTree out fallback n (moved w) wrap).events = [] :=
    servedIn_writeTree (servedIn_moved n)
  have hmap (m : Node Entries) (fallback : Alloc) :
      servedIn (writeTree out fallback m (movedMap w) .map).events = [] :=
    servedIn_writeTree (servedIn_movedMap m)
  cases ty with
  | none => exact servedIn_released a.handed
  | some ty =>
    cases ty with
    | scalar s => exact hconverted _
    | text => exact hconverted _
    | tree tree =>
      cases tree with
      | value =>
        simp only [writeAnswer]
        cases h : asValue w.floats a with
        | ok made => simp only [servedIn_append, servedIn_asValue h, htree, List.append_nil]
        | error e => exact servedIn_released a.handed
      | map =>
        cases a with
        | map m => exact hmap m _
        | value v =>
          simp only [writeAnswer]
          cases v.map? with
          | some m => exact hmap m _
          | none => rfl
        | _ => exact servedIn_released _
      | list =>
        cases a with
        | list l => exact htree l _ _
        | value v =>
          simp only [writeAnswer]
          cases v.list? with
          | some l => exact htree l _ _
          | none => rfl
        | _ => exact servedIn_released _
    | object kind =>
      cases a with
      | object o => cases out <;> rfl
      | _ => exact servedIn_released _

theorem answerError_events (s : SlotDescription) (e : ProviderError) (err : Bool)
    (events : List Event) : (answerError s e err events).events = events := by
  unfold answerError
  split <;> rfl

theorem servedIn_reply (s : SlotDescription) (slot ctx : ℕ) (out : Option (Option Alloc))
    (err : Bool) (args : List Arg) :
    servedIn (reply w s slot ctx out err args).events = [(ctx, slot, args)] := by
  unfold reply
  split
  · rfl
  · unfold answer
    split
    · rw [answerError_events]
      rfl
    next _ a _ =>
      have h := servedIn_writeAnswer (w := w) s.answer s.sensitive a out
      dsimp only
      split
      · simp [h]
      · simp [answerError_events, h]

theorem servedIn_finish (s : SlotDescription) (home : Alloc) (out : Out) (pending : List Pending)
    (d : Dispatched) : servedIn (finish w s home out pending d).events = servedIn d.events := by
  unfold finish
  dsimp only
  split
  · rfl
  · split
    · simp
    · simp

end Served

section Call

variable {w : World} {kind : KindDescription} {implemented : SlotDescription → Bool}
  {table : ServedTable} {slot ctx : ℕ} {s : SlotDescription} {args : List Arg}

/-- The status an error of the handler is told with: never OK. -/
def told (e : ProviderError) : Status := if e.status = .ok then .internal else e.status

/-- What a caller gets for what its handler comes to: the same answer as the slot has it, why the
slot refuses it, or the handler's error with its status. -/
inductive Gives (w : World) (s : SlotDescription) : Outcome → Except ProviderError Answer → Prop
  | answered {a b : Answer} {m : Meaning} (htakes : takes w.floats s.answer a.meaning = .ok m)
      (hb : b.meaning = given s.answer s.sensitive m) : Gives w s (.answered (.ok a)) (.ok b)
  | refused {a : Answer} {e : ProviderError}
      (htakes : takes w.floats s.answer a.meaning = .error e.status) :
      Gives w s (.answered (.ok a)) (.error e)
  | failed {e e' : ProviderError} (h : e'.status = told e) :
      Gives w s (.answered (.error e)) (.error e')
  | panicked {e : ProviderError} (h : e.status = .internal) : Gives w s .panicked (.error e)

theorem errorOf_status {d : Dispatched} (h : d.err = none ∨ ∃ e, d.err = some e ∧ e.status = d.status) :
    (errorOf w s d).status = d.status := by
  unfold errorOf takeErr
  rcases h with h | ⟨e, h, hstatus⟩
  · simp [h, ProviderError.none, ProviderError.ofStatus]
  · rw [h, Option.getD_some]
    split
    · split
      · rfl
      · split
        · exact hstatus
        · exact hstatus
    · rfl

theorem errorOf_answerError (e : ProviderError) (err : Bool) (events : List Event) :
    (errorOf w s (answerError s e err events)).status = told e := by
  rw [errorOf_status, answerError_status]
  · rfl
  · unfold answerError
    dsimp only
    split
    · exact .inr ⟨_, rfl, rfl⟩
    · exact .inl rfl

theorem finish_answerError (s : SlotDescription) (out : Out) (pending : List Pending)
    (e : ProviderError) (err : Bool) (events : List Event) :
    ∃ e', (finish w s s.home out pending (answerError s e err events)).result = .error e' ∧
      e'.status = told e := by
  rw [finish_refused (answerError_status_ne s e err events)]
  exact ⟨_, rfl, errorOf_answerError e err events⟩

theorem asInt_failed {t : IntType} {m : Meaning} {status : Status}
    (h : m.asInt t = .error status) : status ≠ .ok := by
  cases m with
  | number z =>
    by_cases hz : t.Holds z
    · simp [Meaning.asInt, hz] at h
    · rw [Meaning.asInt, if_neg hz] at h
      cases h
      decide
  | tree v =>
    rw [Meaning.asInt] at h
    cases hv : t.fromValue v with
    | ok z => simp [hv] at h
    | error e =>
      simp only [hv, Lib.map_error, Lib.mapError_error, Except.error.injEq] at h
      subst h
      decide
  | _ =>
    cases h
    decide

theorem asFloat_failed {floats : Floats} {round : UInt64 → UInt64} {m : Meaning} {status : Status}
    (h : m.asFloat floats round = .error status) : status ≠ .ok := by
  cases m with
  | float bits => cases h
  | number z => cases h
  | tree v =>
    rw [Meaning.asFloat] at h
    cases hv : floats.fromValue v with
    | some bits => simp [hv] at h
    | none =>
      simp only [hv, Option.elim_none, Except.error.injEq] at h
      subst h
      decide
  | _ =>
    cases h
    decide

theorem takes_failed {floats : Floats} {ty : Option AnswerType} {m : Meaning} {status : Status}
    (h : takes floats ty m = .error status) : status ≠ .ok := by
  unfold takes at h
  split at h
  · cases h
  · unfold Meaning.asFlag at h
    split at h <;> cases h <;> decide
  · exact asFloat_failed h
  · exact asFloat_failed h
  next scalar _ _ _ =>
    cases hs : intType? scalar with
    | some t =>
      rw [hs] at h
      exact asInt_failed h
    | none =>
      simp only [hs, Option.elim_none, Except.error.injEq] at h
      subst h
      decide
  · unfold Meaning.asText at h
    split at h <;> cases h
    decide
  · unfold Meaning.asTree at h
    split at h <;> try cases h
    next bits =>
      cases hbits : floats.toNumber bits with
      | ok n => simp [hbits] at h
      | error refusal =>
        simp only [hbits, Lib.map_error, Lib.mapError_error, Except.error.injEq] at h
        subst h
        exact refusal.failed
    decide
  · unfold Meaning.asMap at h
    split at h <;> cases h
    decide
  · unfold Meaning.asList at h
    split at h <;> cases h
    decide
  · unfold Meaning.asObject at h
    split at h <;> cases h
    decide

/-- The handler answered what the slot takes, and then nothing after the call stands in its way: each
lent argument settles, and the answer can be moved where its caller asked. -/
def Reached (w : World) (s : SlotDescription) (outcome : Outcome) (args : List Arg) : Prop :=
  ∀ a m, outcome = .answered (.ok a) → takes w.floats s.answer a.meaning = .ok m →
    SettlesAll w args ∧ Fetched w s.answer s.sensitive a

/-- What comes of an answer of the handler is what the caller is given, exactly when nothing after
the call stands in its way. -/
theorem gives_answered {out : Out} {pending : List Pending} {a : Answer} {written : Written}
    (events : List Event) (err : Bool)
    (hw : WrittenAs w s.answer s.sensitive a out written)
    (hsettle : (∃ u, settleAll w 0 pending = .ok u) ↔ SettlesAll w args) :
    Gives w s (.answered (.ok a)) (finish w s s.home out pending
        (match written.result with
          | .ok status => ⟨status, written.out, none, events ++ written.events⟩
          | .error e => answerError s e err (events ++ written.events))).result ↔
      ∀ m, takes w.floats s.answer a.meaning = .ok m →
        SettlesAll w args ∧ Fetched w s.answer s.sensitive a := by
  cases htakes : takes w.floats s.answer a.meaning with
  | error status =>
    obtain ⟨e, he, rfl⟩ := hw.refused status htakes
    refine ⟨fun _ m h => (by cases h), fun _ => ?_⟩
    obtain ⟨e', he', hstatus⟩ := finish_answerError (w := w) s out pending e err
      (events ++ written.events)
    simp only [he]
    rw [he']
    apply Gives.refused
    rw [htakes, hstatus, told, if_neg (takes_failed htakes)]
  | ok m =>
    have hgives : (∀ m', (Except.ok m : Except Status Meaning) = .ok m' →
        SettlesAll w args ∧ Fetched w s.answer s.sensitive a) ↔
        SettlesAll w args ∧ Fetched w s.answer s.sensitive a :=
      ⟨fun h => h m rfl, fun h _ _ => h⟩
    have hnot {e : ProviderError} : ¬ Gives w s (.answered (.ok a)) (.error e) := by
      intro h
      cases h with
      | refused h =>
        rw [htakes] at h
        cases h
    rw [hgives]
    by_cases hfetched : Fetched w s.answer s.sensitive a
    · obtain ⟨hok, b, hb, hmeaning⟩ := hw.taken m htakes hfetched
      simp only [hok]
      rw [finish, if_neg (not_not.mpr rfl)]
      dsimp only
      cases hset : settleAll w 0 pending with
      | error e =>
        have : ¬ SettlesAll w args := by
          rw [← hsettle, hset]
          simp
        simp [hnot, this]
      | ok u =>
        have : SettlesAll w args := hsettle.mp ⟨u, hset⟩
        refine ⟨fun _ => ⟨this, hfetched⟩, fun _ => ?_⟩
        change Gives w s _ ((written.out.getD out).intoAnswer w s.home).1
        rw [show s.home = homeOf s.sensitive from rfl, hb]
        exact .answered htakes hmeaning
    · obtain ⟨e, he, -⟩ := hw.unfetched m htakes hfetched
      obtain ⟨e', he', -⟩ := finish_answerError (w := w) s out pending e err
        (events ++ written.events)
      simp only [he]
      rw [he']
      simp [hnot, hfetched]

/-- What a call that reaches its handler comes to is what the caller is given, exactly when nothing
after the call stands in its way. -/
theorem gives_finish (slot ctx : ℕ) (seen : List Arg) {out : Out} {pending : List Pending}
    (hout : Out.forAnswer s.answer s.home = .ok out)
    (hsettle : (∃ u, settleAll w 0 pending = .ok u) ↔ SettlesAll w args) :
    Gives w s (w.call ctx slot seen)
        (finish w s s.home out pending (reply w s slot ctx s.outSlot s.fallible seen)).result ↔
      Reached w s (w.call ctx slot seen) args := by
  unfold reply
  cases hcall : w.call ctx slot seen with
  | panicked =>
    refine ⟨fun _ a m h => Outcome.noConfusion h, fun _ => ?_⟩
    dsimp only
    have hne : Status.internal ≠ .ok := by decide
    rw [finish_refused hne]
    exact .panicked (errorOf_status (.inl rfl))
  | answered r =>
    cases r with
    | error e =>
      constructor
      · intro _ a m h
        cases h
      · intro _
        obtain ⟨e', he', hstatus⟩ := finish_answerError (w := w) s out pending e s.fallible
          [.served ctx slot seen]
        simp only [answer]
        rw [he']
        exact .failed hstatus
    | ok a =>
      have hw := writtenAs_writeAnswer (w := w) (a := a) hout
      change WrittenAs w s.answer s.sensitive a out
        (writeAnswer w s.answer s.sensitive a s.outSlot) at hw
      apply (gives_answered [.served ctx slot seen] s.fallible hw hsettle).trans
      constructor
      · intro h a' m heq
        cases heq
        exact h m
      · exact fun h m => h a m rfl

/-- A call is faithful: arguments that match reach the handler once, in order, and the caller gets
what the handler comes to; others are refused, and the handler is not called. -/
structure Faithful (w : World) (s : SlotDescription) (slot ctx : ℕ) (args : List Arg)
    (called : Called) : Prop where
  matching : List.Forall₂ Matches s.args args →
    servedIn called.events = [(ctx, slot, List.zipWith (seen w.floats) s.args args)] ∧
      Gives w s (w.call ctx slot (List.zipWith (seen w.floats) s.args args)) called.result
  other : ¬ List.Forall₂ Matches s.args args →
    servedIn called.events = [] ∧ ∃ e, called.result = .error e

theorem faithful_refuse {e : ProviderError} {gone : List Owned} :
    (∃ called, refuse e gone = some called ∧ Faithful w s slot ctx args called) ↔
      ¬ List.Forall₂ Matches s.args args := by
  constructor
  · rintro ⟨called, hcalled, hfaithful⟩ hm
    cases hcalled
    simpa using (hfaithful.matching hm).1
  · intro hm
    exact ⟨_, rfl, fun h => absurd h hm, fun _ => ⟨servedIn_released gone, e, rfl⟩⟩

/-- A call through a served table is the call itself exactly when no lent object stands where a slot
takes one over and, where the arguments match, the table's size is one its header can say and nothing
after the call stands in the answer's way. -/
theorem callRaw_faithful_iff (hnew : ServedTable.new kind implemented = .ok table)
    (hs : kind.slots[slot]? = some s) (himp : implemented s = true) :
    (∃ called, callRaw w kind table kind.size ctx slot args = some called ∧
        Faithful w s slot ctx args called) ↔
      (List.Forall₂ Matches s.args args → kind.size < 2 ^ 32 ∧
        Reached w s (w.call ctx slot (List.zipWith (seen w.floats) s.args args)) args) ∧
      (kind.size < 2 ^ 32 → List.Forall₂ Accepted s.args args →
        List.Forall₂ (fun ty arg => Matches ty arg ∨ Foreign ty arg) s.args args) := by
  by_cases hsize : kind.size < 2 ^ 32
  · by_cases hm : List.Forall₂ Matches s.args args
    · obtain ⟨out, pending, hout, hsettle, hcall⟩ :=
        callRaw_matches w ctx args hnew hs himp hsize hm
      have hmixed := hm.imp fun ty arg h => (Or.inl h : Matches ty arg ∨ Foreign ty arg)
      have hgives := gives_finish slot ctx (List.zipWith (seen w.floats) s.args args) hout
        hsettle
      simp only [hcall, hm, hsize, hmixed, true_and, forall_const, implies_true, and_true]
      rw [← hgives]
      constructor
      · rintro ⟨called, hcalled, hfaithful⟩
        cases hcalled
        exact (hfaithful.matching hm).2
      · intro h
        refine ⟨_, rfl, fun _ => ⟨?_, h⟩, fun hnot => absurd hm hnot⟩
        rw [servedIn_finish]
        exact servedIn_reply s slot ctx s.outSlot s.fallible _
    · simp only [hm, false_implies, true_and, hsize, forall_const]
      by_cases haccepted : List.Forall₂ Accepted s.args args
      · simp only [haccepted, forall_const]
        by_cases hmixed : List.Forall₂ (fun ty arg => Matches ty arg ∨ Foreign ty arg) s.args args
        · obtain ⟨e, gone, -, hcall⟩ :=
            callRaw_foreign w ctx args hnew hs himp hsize hmixed hm
          rw [hcall, faithful_refuse]
          exact iff_of_true hm hmixed
        · rw [callRaw_undefined w ctx args hnew hs himp hsize haccepted hmixed]
          simp [hmixed]
      · obtain ⟨e, hcall⟩ :=
          callRaw_refused w ctx args hnew hs himp hsize haccepted
        rw [hcall, faithful_refuse]
        exact iff_of_true hm fun h => absurd h haccepted
  · obtain ⟨e, hcall⟩ := callRaw_unreached w ctx args hnew fun _ _ _ => hsize
    rw [hcall, faithful_refuse]
    constructor
    · exact fun hm => ⟨fun h => absurd h hm, fun h => absurd h hsize⟩
    · exact fun h hm => hsize (h.1 hm).1

end Call

/-- A kind of one slot, that takes one argument and answers nothing. -/
def oneSlot (ty : ArgType) (hty : ArgTypeOk ty) : KindDescription where
  name := "kind"
  floorHash := 0
  object := false
  slots := [⟨"take", true, true, [ty], none, false, by simpa using hty⟩]

/-- A handler that answers nothing, and allocators that refuse nothing. -/
def plain : World where
  floats := ⟨fun _ => 0, fun _ => 0, fun _ => 0, fun _ => .ok (.ofInt 0), fun _ => none⟩
  call _ _ _ := .answered (.ok .nothing)
  left _ := ⟨.ok (), false⟩
  refuses _ _ := none
  movesMessage := true

/-- A call with a text is the call itself. -/
theorem callRaw_faithful_text : ∃ called,
    callRaw plain (oneSlot .str trivial) ⟨16, 0, [some (.slot 0)]⟩ 16 7 0 [.str "a"] = some called ∧
      Faithful plain ⟨"take", true, true, [.str], none, false, by simp [ArgTypeOk]⟩ 0 7 [.str "a"]
        called := by
  have hm : List.Forall₂ Matches [ArgType.str] [.str "a"] := .cons (.str "a") .nil
  apply (@callRaw_faithful_iff plain _ (fun _ => true) _ 0 7 _ _ rfl rfl rfl).mpr
  refine ⟨fun _ => ⟨by decide, ?_⟩, fun _ _ => hm.imp fun _ _ h => .inl h⟩
  intro a m _ _
  refine ⟨?_, trivial⟩
  intro i arg hi
  cases i with
  | zero =>
    cases hi
    trivial
  | succ i => cases hi

/-- A lent object where the slot takes one over is laid out, and its address read as the object. -/
theorem not_faithful_lent : ¬ ∃ called,
    callRaw plain (oneSlot (.object "other" .taken) (by simp [ArgTypeOk])) ⟨16, 0, [some (.slot 0)]⟩ 16 7 0
        [.lentObject ⟨1, 8, 0⟩] = some called ∧
      Faithful plain ⟨"take", true, true, [.object "other" .taken], none, false,
        by simp [ArgTypeOk]⟩ 0 7 [.lentObject ⟨1, 8, 0⟩] called := by
  rintro ⟨called, hcalled, -⟩
  have hnone : (callRaw plain (oneSlot (.object "other" .taken) (by simp [ArgTypeOk]))
      ⟨16, 0, [some (.slot 0)]⟩ 16 7 0 [.lentObject ⟨1, 8, 0⟩]).isNone = true := by decide +kernel
  rw [hcalled] at hnone
  cases hnone

end Guatiao.Table
