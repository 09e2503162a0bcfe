import Guatiao.Lib.Ledger
import Guatiao.Table.Faithful

/-!
# Ownership crosses a table's call once

What is handed over is taken by the handler or released, and what the handler answers is given to
the caller or released. The books of a call are kept step by step: a tree moved, an answer written,
an answer read back, and the call around them.
-/

namespace Guatiao.Table

open Remote (Scalar Tree Pass ArgType AnswerType)
open Lib (Ledger)

/-- What was released, as a call went. -/
def releasedIn (events : List Event) : List Owned :=
  events.filterMap fun
    | .released o => some o
    | _ => none

/-- What was made, as a call went. -/
def madeIn (events : List Event) : List Owned :=
  events.filterMap fun
    | .made b => some (.tree b)
    | _ => none

/-- The books of what was done. -/
def ledger (events : List Event) : Ledger Owned := ⟨releasedIn events, madeIn events⟩

@[simp] theorem ledger_nil : ledger [] = .none := rfl

theorem ledger_append (l l' : List Event) : ledger (l ++ l') = (ledger l).and (ledger l') := by
  simp [ledger, Ledger.and, releasedIn, madeIn]

theorem ledger_released (owned : List Owned) : ledger (owned.map .released) = ⟨owned, []⟩ := by
  unfold ledger
  induction owned with
  | nil => rfl
  | cons o owned ih =>
    obtain ⟨hreleased, hmade⟩ := Ledger.mk.inj ih
    exact congrArg₂ Ledger.mk (congrArg (o :: ·) hreleased) hmade

/-- What is owned of a result: nothing where there is none. -/
def ownedOf {α : Type} (owned : α → List Owned) : Except ProviderError α → List Owned
  | .ok a => owned a
  | .error _ => []

section Move

variable {w : World} {α : Type}

theorem balances_moved (n : Node α) (home : Alloc) :
    (ledger (moved w n home).2).Balances [.tree n.block]
      (ownedOf (fun n => [.tree n.block]) (moved w n home).1) := by
  unfold moved
  split
  · exact Ledger.balances_none _
  · split
    · exact Ledger.balances_release _
    · exact List.Perm.refl _

theorem balances_movedMap (m : Node Entries) (home : Alloc) :
    (ledger (movedMap w m home).2).Balances [.tree m.block]
      (ownedOf (fun m => [.tree m.block]) (movedMap w m home).1) := by
  unfold movedMap
  split
  · exact balances_moved m home
  · exact Ledger.balances_release _

/-- What the storage of an answer owns. -/
def Out.holds : Out → List Owned
  | .object o => [.object o]
  | out => out.dropped

theorem balances_intoAnswer (home : Alloc) (out : Out) :
    (ledger (out.intoAnswer w home).2).Balances out.holds
      (ownedOf Answer.handed (out.intoAnswer w home).1) := by
  have hwrapped {α : Type} (wrap : Node α → Answer) (hwrap : ∀ n, (wrap n).handed = [.tree n.block])
      {before : List Owned} {r : Except ProviderError (Node α) × List Event}
      (h : (ledger r.2).Balances before (ownedOf (fun n => [.tree n.block]) r.1)) :
      (ledger (wrapped wrap r).2).Balances before (ownedOf Answer.handed (wrapped wrap r).1) := by
    unfold wrapped
    cases hr : r.1 with
    | ok n =>
      rw [hr] at h
      simpa [ownedOf, hwrap] using h
    | error e =>
      rw [hr] at h
      exact h
  cases out with
  | text t alloc =>
    by_cases hhome : home = .wiping
    · simp only [Out.intoAnswer, hhome, if_true]
      have hmade : (ledger [.made .built]).Balances [] [.tree .built] := Ledger.balances_make _
      have h := hmade.and (hwrapped .value (fun _ => rfl)
        (balances_moved (w := w) (built [alloc] (.string t)) .wiping))
      rwa [← ledger_append] at h
    · simp only [Out.intoAnswer, hhome, if_false]
      exact Ledger.balances_none _
  | int t n =>
    have hnone : (if t.signed then Answer.int n else .uint n.toNat).handed = [] := by
      split <;> rfl
    simp only [Out.intoAnswer, ownedOf, hnone]
    exact Ledger.balances_none _
  | value v => exact hwrapped .value (fun _ => rfl) (balances_moved v home)
  | map m => exact hwrapped .map (fun _ => rfl) (balances_movedMap m home)
  | list l => exact hwrapped .list (fun _ => rfl) (balances_moved l home)
  | _ => exact Ledger.balances_none _

/-- What storage holds is dropped with it, or is an object. -/
def Out.Dropped (out : Out) : Prop := out.holds = out.dropped

theorem dropped_of_holds {out : Out} (h : out.holds = []) : out.Dropped := by
  cases out with
  | object o => cases h
  | _ => rfl

/-- An answer written is in its storage, or released. What its storage holds is dropped with it,
unless it is an object the slot answers. -/
structure WrittenOff (ty : Option AnswerType) (a : Answer) (initial : Out) (written : Written) :
    Prop where
  books : (ledger written.events).Balances a.handed
    (ownedOf (fun _ => (written.out.getD initial).holds) written.result)
  status : ∀ status, written.result = .ok status → status = .ok
  dropped : ∀ status, written.result = .ok status → (written.out.getD initial).Dropped ∨
    ∃ kind o, ty = some (.object kind) ∧ a = .object o ∧ written.out.getD initial = .object o

variable {ty : Option AnswerType} {a : Answer} {initial : Out}

theorem writtenOff_tree {n : Node α} {home fallback : Alloc} {before : List Event}
    {move : Node α → Alloc → Except ProviderError (Node α) × List Event} {wrap : Node α → Out}
    (hbefore : (ledger before).Balances a.handed [.tree n.block])
    (hmove : ∀ n home, (ledger (move n home).2).Balances [.tree n.block]
      (ownedOf (fun n => [.tree n.block]) (move n home).1))
    (hwrap : ∀ n, (wrap n).holds = [.tree n.block] ∧ (wrap n).Dropped) :
    WrittenOff ty a initial
      { writeTree (some (some home)) fallback n move wrap with
        events := before ++ (writeTree (some (some home)) fallback n move wrap).events } := by
  have h := hmove n home
  simp only [writeTree, returnAllocOr, Option.getD_some]
  cases hr : move n home with
  | mk result events =>
    rw [hr] at h
    have hboth := hbefore.and h
    rw [← ledger_append] at hboth
    cases result with
    | ok n' =>
      refine ⟨?_, fun status hs => by cases hs; rfl, fun _ _ => .inl (hwrap n').2⟩
      simpa [ownedOf, hwrap] using hboth
    | error e => exact ⟨hboth, fun status hs => (by cases hs), fun status hs => (by cases hs)⟩

theorem writtenOff_converted {carried : Option Alloc} {v : Except ProviderError Out}
    (hv : ∀ out, v = .ok out → out.holds = []) :
    WrittenOff ty a initial (writeConverted (some carried) a v) := by
  cases v with
  | ok out =>
    refine ⟨?_, fun status hs => by cases hs; rfl, fun _ _ => .inl (dropped_of_holds (hv out rfl))⟩
    simp only [writeConverted, writeOut, ownedOf, Option.getD_some, hv out rfl, ledger_released]
    exact Ledger.balances_release _
  | error e =>
    refine ⟨?_, fun status hs => (by cases hs), fun status hs => (by cases hs)⟩
    simp only [writeConverted, ownedOf, ledger_released]
    exact Ledger.balances_release _

theorem writtenOff_refused (e : ProviderError) :
    WrittenOff ty a initial ⟨.error e, none, a.handed.map .released⟩ := by
  refine ⟨?_, fun status hs => (by cases hs), fun status hs => (by cases hs)⟩
  simp only [ownedOf, ledger_released]
  exact Ledger.balances_release _

theorem scalarOut_holds {floats : Floats} {s : Scalar} {out : Out}
    (h : scalarOut floats s a = .ok out) : out.holds = [] := by
  unfold scalarOut at h
  split at h
  · split at h
    · cases h
      rfl
    · split at h <;> cases h
      rfl
    · cases h
  · obtain ⟨bits, -, rfl⟩ := Lib.map_eq_ok.mp h
    rfl
  · obtain ⟨bits, -, rfl⟩ := Lib.map_eq_ok.mp h
    rfl
  · split at h
    · obtain ⟨z, -, rfl⟩ := Lib.map_eq_ok.mp h
      rfl
    · cases h

theorem textOut_holds {sensitive : Bool} {out : Out} (h : textOut sensitive a = .ok out) :
    out.holds = [] := by
  obtain ⟨t, -, rfl⟩ := Lib.map_eq_ok.mp h
  rfl

theorem balances_asValue {floats : Floats} {n : Node Value} {events : List Event}
    (h : asValue floats a = .ok (n, events)) :
    (ledger events).Balances a.handed [.tree n.block] := by
  cases a <;> simp only [asValue] at h
  case float bits =>
    split at h <;> cases h
    exact Ledger.balances_make _
  case value v =>
    cases h
    exact Ledger.balances_none _
  case map m =>
    cases h
    exact Ledger.balances_none _
  case list l =>
    cases h
    exact Ledger.balances_none _
  case nothing => cases h
  case object o => cases h
  all_goals
    cases h
    exact Ledger.balances_make _

/-- Every slot's answer written is in its storage, or released. -/
theorem writtenOff_writeAnswer (ty : Option AnswerType) (sensitive : Bool) (home : Alloc)
    (hinitial : Out.forAnswer ty home = .ok initial) :
    WrittenOff ty a initial (writeAnswer w ty sensitive a
      (if ty.isSome then some (carriedBy ty home) else none)) := by
  have htree {α : Type} (ty : Option AnswerType) (n : Node α) (fallback : Alloc)
      (wrap : Node α → Out) (hn : a.handed = [.tree n.block])
      (hwrap : ∀ n, (wrap n).holds = [.tree n.block] ∧ (wrap n).Dropped) :
      WrittenOff ty a initial (writeTree (some (some home)) fallback n (moved w) wrap) := by
    rw [← nil_append_events (writeTree _ _ _ _ _)]
    refine writtenOff_tree ?_ balances_moved hwrap
    rw [hn]
    exact Ledger.balances_none _
  have hmap (ty : Option AnswerType) (m : Node Entries) (fallback : Alloc)
      (hm : a.handed = [.tree m.block]) :
      WrittenOff ty a initial (writeTree (some (some home)) fallback m (movedMap w) .map) := by
    rw [← nil_append_events (writeTree _ _ _ _ _)]
    refine writtenOff_tree ?_ balances_movedMap fun n => ⟨rfl, rfl⟩
    rw [hm]
    exact Ledger.balances_none _
  cases ty with
  | none =>
    cases hinitial
    refine ⟨?_, fun status hs => by cases hs; rfl, fun _ _ => .inl rfl⟩
    simp only [writeAnswer, ownedOf, ledger_released]
    exact Ledger.balances_release _
  | some ty =>
    cases ty with
    | scalar s => exact writtenOff_converted fun out => scalarOut_holds
    | text => exact writtenOff_converted fun out => textOut_holds
    | tree tree =>
      cases tree with
      | value =>
        simp only [writeAnswer]
        cases h : asValue w.floats a with
        | ok made =>
          exact writtenOff_tree (balances_asValue h) balances_moved fun n => ⟨rfl, rfl⟩
        | error e => exact writtenOff_refused e
      | map =>
        cases a with
        | map m => exact hmap _ m _ rfl
        | value v =>
          simp only [writeAnswer]
          cases hv : v.map? with
          | some m =>
            apply hmap _ m
            unfold Node.map? at hv
            split at hv
            · obtain ⟨entries, -, rfl⟩ := Option.map_eq_some_iff.mp hv
              rfl
            · cases hv
          | none => exact writtenOff_refused _
        | _ => exact writtenOff_refused _
      | list =>
        cases a with
        | list l => exact htree _ l _ _ rfl fun n => ⟨rfl, rfl⟩
        | value v =>
          simp only [writeAnswer]
          cases hv : v.list? with
          | some l =>
            obtain ⟨items, -, rfl⟩ := Option.map_eq_some_iff.mp hv
            exact htree _ _ _ _ rfl fun n => ⟨rfl, rfl⟩
          | none => exact writtenOff_refused _
        | _ => exact writtenOff_refused _
    | object kind =>
      cases a with
      | object o =>
        refine ⟨Ledger.balances_none _, fun status hs => by cases hs; rfl, fun _ _ => ?_⟩
        exact .inr ⟨kind, o, rfl, rfl, rfl⟩
      | _ => exact writtenOff_refused _

end Move

section Call

variable {w : World} {kind : KindDescription} {implemented : SlotDescription → Bool}
  {table : ServedTable} {slot ctx : ℕ} {s : SlotDescription} {args : List Arg}

/-- What the handler kept: all it was handed. -/
def keptIn (events : List Event) : List Owned :=
  (servedIn events).flatMap fun call => call.2.2.flatMap Arg.handed

/-- What an outcome hands over. -/
def Outcome.handed : Outcome → List Owned
  | .answered (.ok a) => a.handed
  | _ => []

/-- What the handler answered. -/
def answeredIn (w : World) (events : List Event) : List Owned :=
  (servedIn events).flatMap fun call => (w.call call.1 call.2.1 call.2.2).handed

/-- Ownership crosses a call once: what is handed over is kept by the handler or released, and what
the handler answers is given to the caller or released. Nothing else is released. -/
def Balanced (w : World) (args : List Arg) (called : Called) : Prop :=
  (ledger called.events).Balances (args.flatMap Arg.handed ++ answeredIn w called.events)
    (keptIn called.events ++ ownedOf Answer.handed called.result)

theorem balanced_refuse {e : ProviderError} {gone : List Owned}
    (h : gone.Perm (args.flatMap Arg.handed)) :
    Balanced w args ⟨.error e, gone.map .released⟩ := by
  unfold Balanced keptIn answeredIn
  simp only [servedIn_released, List.flatMap_nil, List.append_nil, ownedOf, ledger_released]
  exact (Ledger.balances_release gone).of_perm h (.refl _)

theorem handed_zipWith_seen {floats : Floats} {tys : List ArgType}
    (h : List.Forall₂ Matches tys args) :
    (List.zipWith (seen floats) tys args).flatMap Arg.handed = args.flatMap Arg.handed := by
  induction h with
  | nil => rfl
  | cons _ _ ih => simp [handed_seen, ih]

theorem balanced_served {called : Called} {seen : List Arg}
    (hseen : seen.flatMap Arg.handed = args.flatMap Arg.handed)
    (hserved : servedIn called.events = [(ctx, slot, seen)]) :
    Balanced w args called ↔ (ledger called.events).Balances (w.call ctx slot seen).handed
      (ownedOf Answer.handed called.result) := by
  unfold Balanced keptIn answeredIn
  simp only [hserved, List.flatMap_cons, List.flatMap_nil, List.append_nil, hseen]
  exact Ledger.balances_append_left _

theorem balances_answerError {events : List Event} {before : List Owned} (e : ProviderError)
    (err : Bool) (out : Out) (pending : List Pending) (h : (ledger events).Balances before []) :
    (ledger (finish w s s.home out pending (answerError s e err events)).events).Balances before
      (ownedOf Answer.handed
        (finish w s s.home out pending (answerError s e err events)).result) := by
  rw [finish_refused (answerError_status_ne s e err events), answerError_events]
  exact h

theorem balances_answered {a : Answer} {out : Out} {written : Written} (pending : List Pending)
    (err : Bool) (events : List Event) (hevents : ledger events = .none)
    (hw : WrittenOff s.answer a out written)
    (hno : ¬ ∃ kind o, s.answer = some (.object kind) ∧ a = .object o) :
    let called := finish w s s.home out pending
      (match written.result with
        | .ok status => ⟨status, written.out, none, events ++ written.events⟩
        | .error e => answerError s e err (events ++ written.events))
    (ledger called.events).Balances a.handed (ownedOf Answer.handed called.result) := by
  have hbooks : (ledger (events ++ written.events)).Balances a.handed
      (ownedOf (fun _ => (written.out.getD out).holds) written.result) := by
    have h := (hevents ▸ Ledger.balances_none a.handed : (ledger events).Balances _ _).and hw.books
    rwa [← ledger_append] at h
  dsimp only
  cases hresult : written.result with
  | error e =>
    rw [hresult] at hbooks
    exact balances_answerError e err out pending hbooks
  | ok status =>
    obtain rfl := hw.status status hresult
    rw [hresult] at hbooks
    have hdropped : (written.out.getD out).Dropped := by
      rcases hw.dropped _ hresult with h | ⟨kind, o, hkind, ho, -⟩
      · exact h
      · exact absurd ⟨kind, o, hkind, ho⟩ hno
    rw [finish, if_neg (not_not.mpr rfl)]
    dsimp only
    cases settleAll w 0 pending with
    | error e =>
      have hrelease := Ledger.balances_release (written.out.getD out).dropped
      rw [← ledger_released, ← hdropped] at hrelease
      have h := hbooks.and hrelease
      rwa [← ledger_append, hdropped] at h
    | ok u =>
      have h := hbooks.and (balances_intoAnswer (w := w) s.home (written.out.getD out))
      rwa [← ledger_append] at h

/-- The slot answers an object, and the handler answered one. -/
def AnswersObject (s : SlotDescription) (outcome : Outcome) : Prop :=
  ∃ kind o, s.answer = some (.object kind) ∧ outcome = .answered (.ok (.object o))

theorem reply_object {seen : List Arg} {answered : String} {o : ObjectRaw}
    (hanswer : s.answer = some (.object answered))
    (hcall : w.call ctx slot seen = .answered (.ok (.object o))) :
    reply w s slot ctx s.outSlot s.fallible seen =
      ⟨.ok, some (.object o), none, [.served ctx slot seen]⟩ := by
  simp [reply, hcall, answer, hanswer, SlotDescription.outSlot, writeAnswer]

/-- Of a call that reached its handler only an object answered can be lost, where a lent argument
does not settle. -/
theorem balanced_finish {out : Out} {pending : List Pending} {seen : List Arg}
    (hout : Out.forAnswer s.answer s.home = .ok out)
    (hsettle : (∃ u, settleAll w 0 pending = .ok u) ↔ SettlesAll w args)
    (hseen : seen.flatMap Arg.handed = args.flatMap Arg.handed) :
    Balanced w args
        (finish w s s.home out pending (reply w s slot ctx s.outSlot s.fallible seen)) ↔
      (AnswersObject s (w.call ctx slot seen) → SettlesAll w args) := by
  rw [balanced_served hseen (by rw [servedIn_finish, servedIn_reply])]
  by_cases hobject : AnswersObject s (w.call ctx slot seen)
  · obtain ⟨kind, o, hanswer, hcall⟩ := id hobject
    rw [hcall] at hobject
    rw [reply_object hanswer hcall, hcall, finish, if_neg (not_not.mpr rfl)]
    simp only [hobject, forall_const, Outcome.handed, Answer.handed]
    cases hset : settleAll w 0 pending with
    | error e =>
      have hnot : ¬ SettlesAll w args := by
        rw [← hsettle, hset]
        simp
      refine iff_of_false (fun h => ?_) hnot
      have hlen := h.length_eq
      simp [ownedOf, Out.dropped, ledger, releasedIn, madeIn] at hlen
    | ok u => exact iff_of_true (Ledger.balances_none _) (hsettle.mp ⟨u, hset⟩)
  · refine iff_of_true ?_ fun h => absurd h hobject
    unfold reply
    cases hcall : w.call ctx slot seen with
    | panicked =>
      have hne : Status.internal ≠ .ok := by decide
      dsimp only
      rw [finish_refused hne]
      exact Ledger.balances_none _
    | answered r =>
      cases r with
      | error e =>
        exact balances_answerError e s.fallible out pending (Ledger.balances_none _)
      | ok a =>
        have hw := writtenOff_writeAnswer (w := w) (a := a) s.answer s.sensitive s.home hout
        refine balances_answered pending s.fallible [.served ctx slot seen] rfl hw ?_
        rintro ⟨kind, o, hanswer, rfl⟩
        exact hobject ⟨kind, o, hanswer, hcall⟩

/-- Ownership crosses every call of a served table once, except where a lent object stands in a slot
that takes one over, and where an object is answered and a lent argument does not settle. -/
theorem callRaw_balanced_iff (hnew : ServedTable.new kind implemented = .ok table) :
    (∃ called, callRaw w kind table kind.size ctx slot args = some called ∧
        Balanced w args called) ↔
      ∀ s, kind.slots[slot]? = some s → implemented s = true → kind.size < 2 ^ 32 →
        (List.Forall₂ Accepted s.args args →
          List.Forall₂ (fun ty arg => Matches ty arg ∨ Foreign ty arg) s.args args) ∧
        (List.Forall₂ Matches s.args args →
          AnswersObject s (w.call ctx slot (List.zipWith (seen w.floats) s.args args)) →
          SettlesAll w args) := by
  have hrefuse {e : ProviderError} {gone : List Owned} (h : gone.Perm (args.flatMap Arg.handed)) :
      ∃ called, refuse e gone = some called ∧ Balanced w args called :=
    ⟨_, rfl, balanced_refuse h⟩
  by_cases hreached : ∃ s, kind.slots[slot]? = some s ∧ implemented s = true ∧ kind.size < 2 ^ 32
  · obtain ⟨s, hs, himp, hsize⟩ := hreached
    have hall {P : SlotDescription → Prop} :
        (∀ s, kind.slots[slot]? = some s → implemented s = true → kind.size < 2 ^ 32 → P s) ↔
          P s := by
      constructor
      · exact fun h => h s hs himp hsize
      · intro h s' hs' _ _
        rw [hs] at hs'
        cases hs'
        exact h
    rw [hall]
    by_cases haccepted : List.Forall₂ Accepted s.args args
    · by_cases hmixed : List.Forall₂ (fun ty arg => Matches ty arg ∨ Foreign ty arg) s.args args
      · by_cases hm : List.Forall₂ Matches s.args args
        · obtain ⟨out, pending, hout, hsettle, hcall⟩ :=
            callRaw_matches w ctx args hnew hs himp hsize hm
          have hfinish := @balanced_finish w slot ctx s args out pending _ hout hsettle
            (@handed_zipWith_seen _ w.floats _ hm)
          rw [hcall]
          simp only [hm, hmixed, implies_true, true_and, forall_const]
          rw [← hfinish]
          constructor
          · rintro ⟨called, hcalled, hbalanced⟩
            cases hcalled
            exact hbalanced
          · exact fun h => ⟨_, rfl, h⟩
        · obtain ⟨e, gone, hperm, hcall⟩ := callRaw_foreign w ctx args hnew hs himp hsize hmixed hm
          rw [hcall]
          exact iff_of_true (hrefuse hperm) ⟨fun _ => hmixed, fun h => absurd h hm⟩
      · rw [callRaw_undefined w ctx args hnew hs himp hsize haccepted hmixed]
        refine iff_of_false ?_ fun h => hmixed (h.1 haccepted)
        rintro ⟨called, hcalled, -⟩
        cases hcalled
    · obtain ⟨e, hcall⟩ := callRaw_refused w ctx args hnew hs himp hsize haccepted
      rw [hcall]
      refine iff_of_true (hrefuse (.refl _)) ⟨fun h => absurd h haccepted, fun hm => ?_⟩
      exact absurd (hm.imp fun _ _ h => .inl h) haccepted
  · obtain ⟨e, hcall⟩ := callRaw_unreached w ctx args hnew fun s hs himp hsize =>
      hreached ⟨s, hs, himp, hsize⟩
    rw [hcall]
    exact iff_of_true (hrefuse (.refl _)) fun s hs himp hsize =>
      absurd ⟨s, hs, himp, hsize⟩ hreached

end Call

/-- A kind of one slot, that is lent a map and answers an object. -/
def opens : KindDescription where
  name := "kind"
  floorHash := 0
  object := false
  slots := [⟨"open", true, true, [.tree .map .lent false], some (.object "other"), false,
    by simp [ArgTypeOk]⟩]

/-- A handler that answers an object. -/
def opener (left : Left) : World :=
  { plain with
    call := fun _ _ _ => .answered (.ok (.object ⟨1, 8, 5⟩))
    left := fun _ => left }

/-- A map of no entries. -/
def emptyMap : Node Entries := ⟨.own 1, [.rust], true, []⟩

/-- An object is answered, and the map lent settles. -/
theorem callRaw_balanced_open : ∃ called,
    callRaw (opener ⟨.ok (), false⟩) opens ⟨16, 0, [some (.slot 0)]⟩ 16 7 0 [.lentMap emptyMap] =
        some called ∧
      Balanced (opener ⟨.ok (), false⟩) [.lentMap emptyMap] called := by
  have hm : List.Forall₂ Matches [.tree .map .lent false] [.lentMap emptyMap] :=
    .cons (.lentMap false emptyMap rfl) .nil
  apply (@callRaw_balanced_iff _ opens (fun _ => true) _ 0 7 _ rfl).mpr
  intro s hs _ _
  cases hs
  refine ⟨fun _ => hm.imp fun _ _ h => .inl h, fun _ _ => ?_⟩
  intro i arg hi
  cases i with
  | zero =>
    cases hi
    exact ⟨rfl, (), rfl⟩
  | succ i => cases hi

/-- A handler that leaves a key that is not text in the map it was lent and answers an object: the
object is neither given nor released. -/
theorem not_balanced_lent : ¬ ∃ called,
    callRaw (opener ⟨.ok (), true⟩) opens ⟨16, 0, [some (.slot 0)]⟩ 16 7 0 [.lentMap emptyMap] =
        some called ∧
      Balanced (opener ⟨.ok (), true⟩) [.lentMap emptyMap] called := by
  rintro ⟨called, hcalled, hbalanced⟩
  have hcount : (callRaw (opener ⟨.ok (), true⟩) opens ⟨16, 0, [some (.slot 0)]⟩ 16 7 0
      [.lentMap emptyMap]).map (fun called =>
        ((ledger called.events).released.length +
            (keptIn called.events ++ ownedOf Answer.handed called.result).length,
          ([Arg.lentMap emptyMap].flatMap Arg.handed ++
            answeredIn (opener ⟨.ok (), true⟩) called.events).length +
              (ledger called.events).made.length)) = some (0, 1) := by decide +kernel
  rw [hcalled] at hcount
  have hlen := hbalanced.length_eq
  simp only [Option.map_some, Option.some.injEq, Prod.mk.injEq] at hcount
  omega

end Guatiao.Table
