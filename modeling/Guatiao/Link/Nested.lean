import Guatiao.Link.Calls
import Mathlib.Data.List.Count

/-!
# What becomes of the peer's calls during a call

A call of the peer's in a mailbox is run and answered by the thread that waits there. It is
lost with the mailbox where that thread is done waiting: behind the reply, or put there by
a reader that had looked the call up before.
-/

namespace Guatiao.Link

open Lib

/-- The waiter takes every call its mailbox holds. -/
@[simp] def Waiter.serves : Waiter → Bool
  | .building | .waiting | .running _ => true
  | _ => false

/-- How often a waiter runs a call: once or not at all. -/
def Waiter.runs (at_ : Waiter) (nested : Nested) : ℕ :=
  if at_ = .running nested then 1 else 0

namespace Call

/-- How often a call is with its waiter, to run or running. -/
def holds (call : Call) (nested : Nested) : ℕ :=
  call.items.count (.call nested) + call.at_.runs nested

/-- Nobody will take a call from the mailbox, and none is there. -/
def Shut (call : Call) : Prop :=
  call.at_.serves = false → ∀ nested, Inbound.call nested ∉ call.items

end Call

namespace Calls

/-- A call of the peer's waits for its waiter, or is run by it. -/
def pending (s : Calls) (nested : Nested) : Bool :=
  let call := s.call nested.parent
  call.at_.serves && (call.items.contains (.call nested) || call.at_ = .running nested)

/-- Each call put in a mailbox is answered once, or was cancelled by the peer, and what it handed
over is settled once, unless it still waits or runs. -/
def SettlesNested (s : Calls) : Prop :=
  ∀ nested ∈ s.put, s.answers.count nested.id ≤ 1 ∧
    (s.pending nested = false →
      (s.answers.count nested.id = 1 ∨ nested.id ∈ s.cancelledByPeer) ∧
      ∀ object, s.letGo.count (nested.id, object) = nested.handed.count object)

/-- What a step may not do, or a call in a mailbox is lost: a waiter takes a reply with a call behind
it; a call is put in a mailbox whose waiter is done and which is not yet dropped; a frame cannot be
built after calls were made during it. The peer's arguments can be read. -/
def settlesNested (s : Calls) : CallsAct → Bool
  | .receive id =>
    match (s.call id).items with
    | .reply _ :: items => !items.any Inbound.isCall
    | _ => true
  | .abandon id => !(s.call id).items.any Inbound.isCall
  | .nested nested => nested.readable || nested.handed.isEmpty
  | .read =>
    match s.reader with
    | .calling nested =>
      match (s.call nested.parent).at_ with
      | .done _ => true
      | at_ => at_.serves || maxQueued ≤ (s.call nested.parent).items.countP Inbound.isCall
    | _ => true
  | _ => true

/-- What was done for a call in a mailbox: nothing yet, or all of it. -/
inductive Fate (s : Calls) (nested : Nested) : Prop
  | pending (held : (s.call nested.parent).holds nested = 1)
    (unanswered : nested.id ∉ s.answers) (kept : ∀ object, (nested.id, object) ∉ s.letGo)
  | done (held : (s.call nested.parent).holds nested = 0) (once : s.answers.count nested.id ≤ 1)
    (answered : s.answers.count nested.id = 1 ∨ nested.id ∈ s.cancelledByPeer)
    (settled : ∀ object, s.letGo.count (nested.id, object) = nested.handed.count object)

/-- What holds between any two steps, where all that was done answers. -/
structure Answering (s : Calls) : Prop where
  shut : ∀ id, (s.call id).Shut
  place : ∀ id nested, (s.call id).holds nested ≠ 0 → nested.parent = id ∧ nested ∈ s.put
  /-- Nothing was done yet for the call the reader is about to put in a mailbox. -/
  looked : ∀ nested, s.reader = .calling nested → nested.id ∈ s.came ∧ nested.id ∉ s.answers ∧
    nested.id ∉ s.put.map Nested.id ∧ (∀ object, (nested.id, object) ∉ s.letGo) ∧
    (nested.readable || nested.handed.isEmpty) = true
  put : ∀ nested ∈ s.put, nested.id ∈ s.came ∧ (nested.readable || nested.handed.isEmpty) = true
  answers : ∀ id ∈ s.answers, id ∈ s.came
  letGo : ∀ settled ∈ s.letGo, settled.1 ∈ s.came
  ids : (s.put.map Nested.id).Nodup
  fate : ∀ nested ∈ s.put, s.Fate nested

/-- What a step about this side's calls alone leaves as it is. -/
structure Untouched (s s' : Calls) : Prop where
  reader : ∀ nested, s'.reader = .calling nested → s.reader = .calling nested
  came : s'.came = s.came
  put : s'.put = s.put
  answers : s'.answers = s.answers
  cancelledByPeer : s'.cancelledByPeer = s.cancelledByPeer
  letGo : s'.letGo = s.letGo

theorem answering_start : Answering start where
  shut id _ nested := List.not_mem_nil
  place id nested hholds := absurd rfl hholds
  looked nested hreader := by
    cases hreader
  put nested hnested := absurd hnested List.not_mem_nil
  answers id hid := absurd hid List.not_mem_nil
  letGo settled hsettled := absurd hsettled List.not_mem_nil
  ids := List.nodup_nil
  fate nested hnested := absurd hnested List.not_mem_nil

variable {s s' : Calls} {id : ℕ}

variable {nested : Nested} {call : Call}

theorem Fate.congr (h : s.Fate nested)
    (hholds : (s'.call nested.parent).holds nested = (s.call nested.parent).holds nested)
    (hanswers : s'.answers.count nested.id = s.answers.count nested.id)
    (hcancelled : nested.id ∈ s.cancelledByPeer → nested.id ∈ s'.cancelledByPeer)
    (hletGo : ∀ object, s'.letGo.count (nested.id, object) = s.letGo.count (nested.id, object)) :
    s'.Fate nested := by
  cases h with
  | pending held unanswered kept =>
    refine .pending (hholds.trans held) ?_ fun object => ?_
    · rw [← List.count_eq_zero, hanswers]
      exact List.count_eq_zero.mpr unanswered
    · rw [← List.count_eq_zero, hletGo]
      exact List.count_eq_zero.mpr (kept object)
  | done held once answered settled =>
    refine .done (hholds.trans held) ?_ ?_ fun object => ?_
    · rw [hanswers]
      exact once
    · rw [hanswers]
      exact answered.imp (fun hone => hone) hcancelled
    · rw [hletGo]
      exact settled object

theorem Answering.moved (h : s.Answering) (hsame : Untouched s s')
    (hholds : ∀ j nested, (s'.call j).holds nested = (s.call j).holds nested)
    (hshut : ∀ j, (s'.call j).Shut) : s'.Answering where
  shut := hshut
  place j nested hne := by
    rw [hholds] at hne
    rw [hsame.put]
    exact h.place j nested hne
  looked nested hreader := by
    rw [hsame.came, hsame.answers, hsame.put, hsame.letGo]
    exact h.looked nested (hsame.reader nested hreader)
  put := by
    rw [hsame.put, hsame.came]
    exact h.put
  answers := by
    rw [hsame.answers, hsame.came]
    exact h.answers
  letGo := by
    rw [hsame.letGo, hsame.came]
    exact h.letGo
  ids := by
    rw [hsame.put]
    exact h.ids
  fate nested hnested := by
    rw [hsame.put] at hnested
    refine (h.fate nested hnested).congr (hholds _ _) (by rw [hsame.answers]) ?_ ?_
    · rw [hsame.cancelledByPeer]
      exact fun hin => hin
    · intro object
      rw [hsame.letGo]

theorem Answering.set (h : s.Answering) (id : ℕ) (hcall : s'.call = Function.update s.call id call)
    (hsame : Untouched s s') (hholds : ∀ nested, call.holds nested = (s.call id).holds nested)
    (hshut : call.Shut) : s'.Answering := by
  refine h.moved hsame (fun j nested => ?_) fun j => ?_
  · rw [hcall]
    by_cases hji : j = id
    · rw [hji, Function.update_self]
      exact hholds nested
    · rw [Function.update_of_ne hji]
  · rw [hcall]
    by_cases hji : j = id
    · rw [hji, Function.update_self]
      exact hshut
    · rw [Function.update_of_ne hji]
      exact h.shut j

theorem count_settled (hread : (nested.readable || nested.handed.isEmpty) = true) (object : ObjectRef) :
    nested.settled.count (nested.id, object) = nested.handed.count object := by
  unfold Nested.settled
  split
  · exact List.count_map_of_injective _ _ (Prod.mk_right_injective nested.id) _
  · next hnot =>
    have hempty : nested.handed = [] := by
      simpa [hnot] using hread
    rw [hempty, List.count_nil, List.count_nil]

theorem count_settled_of_ne (hid : id ≠ nested.id) (object : ObjectRef) :
    nested.settled.count (id, object) = 0 := by
  rw [List.count_eq_zero]
  unfold Nested.settled
  split
  · intro hin
    obtain ⟨other, -, heq⟩ := List.mem_map.mp hin
    exact hid (congrArg Prod.fst heq).symm
  · exact List.not_mem_nil

theorem fst_of_mem_settled {settled : ℕ × ObjectRef}
    (hin : settled ∈ nested.settled) : settled.1 = nested.id := by
  by_contra hne
  have hzero := count_settled_of_ne hne settled.2
  exact List.count_eq_zero.mp hzero hin

theorem Answering.id_ne (h : s.Answering) {other : Nested} (hnested : nested ∈ s.put)
    (hother : other ∈ s.put) (hne : other ≠ nested) : other.id ≠ nested.id :=
  fun heq => hne (List.inj_on_of_nodup_map h.ids hother hnested heq)

/-- A waiter has run a call. -/
theorem Answering.finish (h : s.Answering) {answered : Bool} (hat : (s.call id).at_ = .running nested)
    (hanswered : answered = true ∨ nested.id ∈ s.cancelledByPeer)
    (hcall : s'.call = Function.update s.call id { s.call id with at_ := .waiting })
    (hreader : s'.reader = s.reader) (hcame : s'.came = s.came) (hput : s'.put = s.put)
    (hanswers : s'.answers = if answered then s.answers ++ [nested.id] else s.answers)
    (hcancelled : s'.cancelledByPeer = s.cancelledByPeer)
    (hletGo : s'.letGo = s.letGo ++ nested.settled) : s'.Answering := by
  have hruns : (s.call id).at_.runs nested = 1 := by
    rw [hat, Waiter.runs, if_pos rfl]
  have hholds : (s.call id).holds nested ≠ 0 := by
    unfold Call.holds
    omega
  obtain ⟨hparent, hin⟩ := h.place id nested hholds
  -- the other calls the waiter holds are in its mailbox, where they stay
  have hsame : ∀ other, other ≠ nested → ∀ j, (s'.call j).holds other = (s.call j).holds other := by
    intro other hne j
    rw [hcall]
    by_cases hji : j = id
    · have hruns' : (s.call id).at_.runs other = 0 := by
        rw [hat, Waiter.runs, if_neg fun heq => hne (Waiter.running.inj heq).symm]
      rw [hji, Function.update_self]
      simp only [Call.holds, hruns']
      rfl
    · rw [Function.update_of_ne hji]
  have hat' : (s'.call id).holds nested = (s.call id).items.count (.call nested) := by
    rw [hcall, Function.update_self]
    rfl
  have hcount : ∀ other, s'.answers.count other =
      s.answers.count other + if other = nested.id then answered.toNat else 0 := by
    intro other
    rw [hanswers]
    exact count_concat_if s.answers nested.id answered other
  refine ⟨fun j => ?_, fun j other hne => ?_, fun other hother => ?_, ?_, ?_, ?_, ?_, ?_⟩
  · rw [hcall]
    by_cases hji : j = id
    · rw [hji, Function.update_self]
      intro hserves
      cases hserves
    · rw [Function.update_of_ne hji]
      exact h.shut j
  · rw [hput]
    by_cases heq : other = nested
    · rw [heq] at hne ⊢
      by_cases hji : j = id
      · exact ⟨hparent.trans hji.symm, hin⟩
      · rw [hcall, Function.update_of_ne hji] at hne
        exact h.place j nested hne
    · rw [hsame other heq] at hne
      exact h.place j other hne
  · rw [hreader] at hother
    obtain ⟨hknown, hnot, hids, hkept, hread⟩ := h.looked other hother
    have hid : other.id ≠ nested.id := fun heq => hids (heq ▸ List.mem_map_of_mem hin)
    rw [hcame, hput, hletGo]
    refine ⟨hknown, ?_, hids, fun object hobject => ?_, hread⟩
    · rw [← List.count_eq_zero, hcount, if_neg hid]
      exact List.count_eq_zero.mpr hnot
    · rcases List.mem_append.mp hobject with hobject | hobject
      · exact hkept object hobject
      · exact hid (fst_of_mem_settled hobject)
  · rw [hput, hcame]
    exact h.put
  · intro other hother
    rw [hcame]
    by_cases hid : other = nested.id
    · rw [hid]
      exact (h.put nested hin).1
    · refine h.answers other ?_
      have hpos := List.count_pos_iff.mpr hother
      rw [hcount, if_neg hid] at hpos
      exact List.count_pos_iff.mp hpos
  · intro settled hsettled
    rw [hletGo] at hsettled
    rw [hcame]
    rcases List.mem_append.mp hsettled with hsettled | hsettled
    · exact h.letGo settled hsettled
    · rw [fst_of_mem_settled hsettled]
      exact (h.put nested hin).1
  · rw [hput]
    exact h.ids
  · intro other hother
    rw [hput] at hother
    by_cases heq : other = nested
    · rw [heq]
      cases h.fate nested hin with
      | done held => exact absurd (hparent ▸ held) hholds
      | pending held unanswered kept =>
        rw [hparent] at held
        have hzero := List.count_eq_zero.mpr unanswered
        unfold Call.holds at held
        refine .done ?_ ?_ ?_ fun object => ?_
        · rw [hparent]
          omega
        · rw [hcount, hzero, if_pos rfl, Nat.zero_add]
          exact Bool.toNat_le answered
        · rw [hcount, hzero, if_pos rfl, hcancelled]
          refine hanswered.imp (fun htrue => ?_) fun hcancel => hcancel
          rw [htrue]
          rfl
        · rw [hletGo, List.count_append, List.count_eq_zero.mpr (kept object), Nat.zero_add]
          exact count_settled (h.put nested hin).2 object
    · have hid := h.id_ne hin hother heq
      refine (h.fate other hother).congr (hsame other heq _) ?_ ?_ fun object => ?_
      · rw [hcount, if_neg hid]
        rfl
      · rw [hcancelled]
        exact fun hcancel => hcancel
      · rw [hletGo, List.count_append, count_settled_of_ne hid]
        rfl

/-- A call of the peer's is refused before it is in a mailbox. -/
theorem Answering.refuse (h : s.Answering) (hids : nested.id ∉ s.put.map Nested.id)
    (hcame : nested.id ∈ s.came) (hlooked : s'.reader = .idle)
    (hsame : s'.call = s.call ∧ s'.came = s.came ∧ s'.put = s.put ∧
      s'.cancelledByPeer = s.cancelledByPeer) (hanswers : s'.answers = s.answers ++ [nested.id])
    (hletGo : s'.letGo = s.letGo ++ nested.settled) : s'.Answering := by
  obtain ⟨hcall, hcame', hput, hcancelled⟩ := hsame
  refine ⟨fun j => ?_, fun j other hne => ?_, fun other hother => ?_, ?_, ?_, ?_, ?_, ?_⟩
  · rw [hcall]
    exact h.shut j
  · rw [hcall] at hne
    rw [hput]
    exact h.place j other hne
  · rw [hlooked] at hother
    cases hother
  · rw [hput, hcame']
    exact h.put
  · intro other hother
    rw [hanswers] at hother
    rw [hcame']
    rcases List.mem_append.mp hother with hother | hother
    · exact h.answers other hother
    · rw [List.mem_singleton.mp hother]
      exact hcame
  · intro settled hsettled
    rw [hletGo] at hsettled
    rw [hcame']
    rcases List.mem_append.mp hsettled with hsettled | hsettled
    · exact h.letGo settled hsettled
    · rw [fst_of_mem_settled hsettled]
      exact hcame
  · rw [hput]
    exact h.ids
  · intro other hother
    rw [hput] at hother
    have hid : other.id ≠ nested.id := fun heq => hids (heq ▸ List.mem_map_of_mem hother)
    refine (h.fate other hother).congr (by rw [hcall]) ?_ ?_ fun object => ?_
    · rw [hanswers, List.count_append, List.count_singleton, beq_eq_false_iff_ne.mpr hid.symm]
      rfl
    · rw [hcancelled]
      exact fun hcancel => hcancel
    · rw [hletGo, List.count_append, count_settled_of_ne hid]
      rfl

theorem Answering.comes (h : s.Answering) (hidle : s.reader = .idle) (nested : Nested) :
    Answering { s with came := s.came ++ [nested.id] } where
  shut := h.shut
  place := h.place
  looked other hother := by
    rw [hidle] at hother
    cases hother
  put other hother := ⟨List.mem_append_left _ (h.put other hother).1, (h.put other hother).2⟩
  answers other hother := List.mem_append_left _ (h.answers other hother)
  letGo settled hsettled := List.mem_append_left _ (h.letGo settled hsettled)
  ids := h.ids
  fate other hother := (h.fate other hother).congr rfl rfl (fun hcancel => hcancel) fun _ => rfl

theorem Answering.takeCall (h : s.Answering) (hread : (nested.readable || nested.handed.isEmpty) = true)
    (hstep : s.takeCall nested = some s') : s'.Answering := by
  simp only [Calls.takeCall] at hstep
  split at hstep
  · next hguard =>
    obtain ⟨hidle, hnew⟩ := hguard
    have hcomes := h.comes hidle nested
    have hids : nested.id ∉ s.put.map Nested.id := by
      intro hin
      obtain ⟨other, hother, heq⟩ := List.mem_map.mp hin
      exact hnew (heq ▸ (h.put other hother).1)
    have hcame : nested.id ∈ s.came ++ [nested.id] :=
      List.mem_append_right _ (List.mem_singleton_self _)
    split at hstep
    · cases hstep
      exact hcomes.refuse hids hcame hidle ⟨rfl, rfl, rfl, rfl⟩ rfl rfl
    · cases hstep
      refine ⟨hcomes.shut, hcomes.place, fun other hother => ?_, hcomes.put, hcomes.answers,
        hcomes.letGo, hcomes.ids, fun other hother => ?_⟩
      · cases hother
        refine ⟨hcame, fun hin => hnew (h.answers _ hin), hids, fun object hin => ?_, hread⟩
        exact hnew (h.letGo _ hin)
      · exact (h.fate other hother).congr rfl rfl (fun hcancel => hcancel) fun _ => rfl
  · cases hstep

theorem Answering.put_call (h : s.Answering) (hreader : s.reader = .calling nested)
    (hserves : (s.call nested.parent).at_.serves = true)
    (hcall : s'.call = Function.update s.call nested.parent
      { s.call nested.parent with items := (s.call nested.parent).items ++ [.call nested] })
    (hlooked : s'.reader = .idle) (hput : s'.put = s.put ++ [nested])
    (hsame : s'.came = s.came ∧ s'.answers = s.answers ∧ s'.cancelledByPeer = s.cancelledByPeer ∧
      s'.letGo = s.letGo) : s'.Answering := by
  obtain ⟨hcame, hanswers, hcancelled, hletGo⟩ := hsame
  obtain ⟨hknown, hnot, hids, hkept, hread⟩ := h.looked nested hreader
  have hnew : nested ∉ s.put := fun hin => hids (List.mem_map_of_mem hin)
  have hzero : ∀ j, (s.call j).holds nested = 0 := by
    intro j
    by_contra hne
    exact hnew (h.place j nested hne).2
  have hholds : ∀ j other, (s'.call j).holds other =
      (s.call j).holds other + if j = nested.parent ∧ other = nested then 1 else 0 := by
    intro j other
    rw [hcall]
    by_cases hj : j = nested.parent
    · rw [hj, Function.update_self]
      simp only [Call.holds, List.count_append, true_and]
      by_cases heq : other = nested
      · rw [heq, List.count_singleton_self, if_pos rfl]
        omega
      · have hne : Inbound.call nested ≠ .call other := fun h' => heq (Inbound.call.inj h').symm
        rw [List.count_singleton, beq_eq_false_iff_ne.mpr hne, if_neg heq]
        rfl
    · rw [Function.update_of_ne hj, if_neg fun hboth => hj hboth.1]
      rfl
  refine ⟨fun j => ?_, fun j other hne => ?_, fun other hother => ?_, ?_, ?_, ?_, ?_, ?_⟩
  · rw [hcall]
    by_cases hj : j = nested.parent
    · rw [hj, Function.update_self]
      intro hshut
      rw [hserves] at hshut
      cases hshut
    · rw [Function.update_of_ne hj]
      exact h.shut j
  · rw [hholds] at hne
    rw [hput]
    by_cases hboth : j = nested.parent ∧ other = nested
    · rw [hboth.2]
      exact ⟨hboth.1.symm, List.mem_append_right _ (List.mem_singleton_self nested)⟩
    · rw [if_neg hboth] at hne
      obtain ⟨hparent, hin⟩ := h.place j other hne
      exact ⟨hparent, List.mem_append_left _ hin⟩
  · rw [hlooked] at hother
    cases hother
  · intro other hother
    rw [hput] at hother
    rw [hcame]
    rcases List.mem_append.mp hother with hother | hother
    · exact h.put other hother
    · rw [List.mem_singleton.mp hother]
      exact ⟨hknown, hread⟩
  · rw [hanswers, hcame]
    exact h.answers
  · rw [hletGo, hcame]
    exact h.letGo
  · rw [hput, List.map_append]
    refine List.Nodup.append h.ids (List.nodup_singleton _) ?_
    intro other hother hsingle
    rw [List.mem_singleton.mp hsingle] at hother
    exact hids hother
  · intro other hother
    rw [hput] at hother
    rcases List.mem_append.mp hother with hother | hother
    · have hne : other ≠ nested := fun heq => hnew (heq ▸ hother)
      refine (h.fate other hother).congr ?_ (by rw [hanswers]) ?_ fun object => ?_
      · rw [hholds, if_neg fun hboth => hne hboth.2]
        rfl
      · rw [hcancelled]
        exact fun hcancel => hcancel
      · rw [hletGo]
    · rw [List.mem_singleton.mp hother]
      refine .pending ?_ ?_ fun object => ?_
      · rw [hholds, hzero, if_pos ⟨rfl, rfl⟩]
      · rw [hanswers]
        exact hnot
      · rw [hletGo]
        exact hkept object

theorem holds_at {at_ : Waiter} (hbefore : ∀ nested, call.at_ ≠ .running nested)
    (hafter : ∀ nested, at_ ≠ .running nested) (wire : Wire) (nested : Nested) :
    { call with at_, wire }.holds nested = call.holds nested := by
  simp only [Call.holds, Waiter.runs, if_neg (hbefore nested), if_neg (hafter nested)]

theorem shut_at {at_ : Waiter} (hshut : call.Shut) (hserves : call.at_.serves = false)
    (wire : Wire) : { call with at_, wire }.Shut :=
  fun _ => hshut hserves

theorem shut_of_serves (hserves : call.at_.serves = true) : call.Shut := by
  intro hnot
  rw [hserves] at hnot
  cases hnot

theorem not_calling_idle (nested : Nested) (hidle : Reader.idle = .calling nested) :
    s.reader = .calling nested := by
  cases hidle

theorem shut_of_any (hany : call.items.any Inbound.isCall = false) : call.Shut := by
  intro _ nested hin
  have hall := List.any_eq_false.mp hany (.call nested) hin
  exact hall rfl

theorem Answering.read (h : s.Answering) (hsettled : s.settlesNested .read = true)
    (hstep : s.read = some s') : s'.Answering := by
  cases hreader : s.reader with
  | idle =>
    simp only [Calls.read, hreader, reduceCtorEq] at hstep
  | replying id reply =>
    simp only [Calls.read, hreader] at hstep
    split at hstep
    · cases hstep
      exact h.moved ⟨not_calling_idle, rfl, rfl, rfl, rfl, rfl⟩ (fun _ _ => rfl) h.shut
    · cases hstep
      refine h.set id rfl ⟨not_calling_idle, rfl, rfl, rfl, rfl, rfl⟩ (fun nested => ?_) fun hserves nested hin => ?_
      · simp [Call.holds]
      · rcases List.mem_append.mp hin with hin | hin
        · exact h.shut id hserves nested hin
        · cases List.mem_singleton.mp hin
  | settling id slot reply =>
    simp only [Calls.read, hreader] at hstep
    split at hstep <;>
      · cases hstep
        exact h.moved ⟨not_calling_idle, rfl, rfl, rfl, rfl, rfl⟩ (fun _ _ => rfl) h.shut
  | calling nested =>
    obtain ⟨hcame, -, hids, -, -⟩ := h.looked nested hreader
    simp only [settlesNested, hreader] at hsettled
    simp only [Calls.read, hreader] at hstep
    split at hstep
    · cases hstep
      exact h.refuse hids hcame rfl ⟨rfl, rfl, rfl, rfl⟩ rfl rfl
    · next hroom =>
      split at hstep
      · cases hstep
        exact h.refuse hids hcame rfl ⟨rfl, rfl, rfl, rfl⟩ rfl rfl
      · next hover =>
        have hserves : (s.call nested.parent).at_.serves = true := by
          split at hsettled
          · next how hat => exact absurd hat (hover how)
          · simpa [hroom] using hsettled
        cases hstep
        exact h.put_call hreader hserves rfl rfl rfl ⟨rfl, rfl, rfl, rfl⟩

/-- All that answers keeps every call in a mailbox accounted for. -/
theorem answering_step : Kept (only (fun s a => s.settlesNested a = true) step)
    fun s => s.Fresh ∧ s.Answering := by
  refine (fresh_step.only _).and ?_
  intro s act s' hfresh h hstep
  obtain ⟨hsettled, hstep⟩ := only_eq_some.mp hstep
  cases act with
  | begin slot =>
    obtain ⟨link, -, heq⟩ := Option.map_eq_some_iff.mp hstep
    have hat := hfresh s.nextCall (Nat.le_refl _)
    have hshut := h.shut s.nextCall (by rw [hat]; rfl)
    rw [← heq]
    refine h.set s.nextCall rfl ⟨fun _ hreader => hreader, rfl, rfl, rfl, rfl, rfl⟩
      (fun nested => ?_) (shut_of_serves rfl)
    simp only [Call.holds, Waiter.runs, hat, reduceCtorEq, if_false,
      List.count_eq_zero.mpr (hshut nested), List.count_nil]
  | queue id =>
    simp only [step] at hstep
    split at hstep
    · next hat =>
      cases hstep
      refine h.set id rfl ⟨fun _ hreader => hreader, rfl, rfl, rfl, rfl, rfl⟩ ?_ (shut_of_serves rfl)
      exact holds_at (by simp [hat]) (by simp) _
    · cases hstep
  | abandon id =>
    simp only [step] at hstep
    split at hstep
    · next hat =>
      cases hstep
      refine h.set id rfl ⟨fun _ hreader => hreader, rfl, rfl, rfl, rfl, rfl⟩ ?_ ?_
      · exact holds_at (by simp [hat]) (by simp) _
      · refine shut_of_any ?_
        simpa only [settlesNested, Bool.not_eq_true'] using hsettled
    · cases hstep
  | send id =>
    simp only [step] at hstep
    split at hstep
    · cases hstep
      refine h.set id rfl ⟨fun _ hreader => hreader, rfl, rfl, rfl, rfl, rfl⟩ (fun _ => rfl) ?_
      exact h.shut id
    · cases hstep
  | receive id =>
    simp only [step] at hstep
    split at hstep
    · next hat hitems =>
      cases hstep
      refine h.set id rfl ⟨fun _ hreader => hreader, rfl, rfl, rfl, rfl, rfl⟩ (fun nested => ?_) ?_
      · simp [Call.holds, Waiter.runs, hat, hitems]
      · refine shut_of_any ?_
        simpa only [settlesNested, hitems, Bool.not_eq_true'] using hsettled
    · next nested items hat hitems =>
      cases hstep
      refine h.set id rfl ⟨fun _ hreader => hreader, rfl, rfl, rfl, rfl, rfl⟩ (fun other => ?_)
        (shut_of_serves rfl)
      simp [Call.holds, Waiter.runs, hat, hitems, List.count_cons]
    · cases hstep
  | finish id answered =>
    simp only [step] at hstep
    split at hstep
    · next nested hat =>
      split at hstep
      · next hanswered =>
        cases hstep
        exact h.finish hat hanswered rfl rfl rfl rfl rfl rfl rfl
      · cases hstep
    · cases hstep
  | timeOut id =>
    simp only [step] at hstep
    split at hstep
    · next hat =>
      cases hstep
      refine h.set id rfl ⟨fun _ hreader => hreader, rfl, rfl, rfl, rfl, rfl⟩ ?_ ?_
      · exact holds_at (by simp [hat.1]) (by simp) _
      · refine shut_of_any ?_
        simp only [hat.2, List.any_nil]
    · cases hstep
  | cancel id | retract id =>
    simp only [step] at hstep
    split at hstep
    · next hat =>
      cases hstep
      refine h.set id rfl ⟨fun _ hreader => hreader, rfl, rfl, rfl, rfl, rfl⟩ ?_ ?_
      · exact holds_at (by simp [hat]) (by simp) _
      · exact shut_at (h.shut id) (by rw [hat]; rfl) _
    · cases hstep
  | unregister id | decode id ok =>
    simp only [step] at hstep
    split at hstep
    · next hat =>
      cases hstep
      refine h.set id rfl ⟨fun _ hreader => hreader, rfl, rfl, rfl, rfl, rfl⟩ ?_ ?_
      · exact holds_at (by simp [hat]) (by simp) _
      · exact shut_at (h.shut id) (by rw [hat]; rfl) _
    · cases hstep
  | leave id =>
    simp only [step] at hstep
    split at hstep
    · next hat =>
      cases hstep
      have hshut := h.shut id (by rw [hat]; rfl)
      refine h.set id rfl ⟨fun _ hreader => hreader, rfl, rfl, rfl, rfl, rfl⟩ (fun nested => ?_)
        fun _ _ => List.not_mem_nil
      simp only [Call.holds, Waiter.runs, hat, reduceCtorEq, if_false, List.count_nil,
        List.count_eq_zero.mpr (hshut nested)]
    · cases hstep
  | reply id reply =>
    simp only [step, takeReply] at hstep
    split at hstep
    · next hguard =>
      cases hstep
      refine h.moved ⟨fun nested hreader => ?_, rfl, rfl, rfl, rfl, rfl⟩ (fun _ _ => rfl) h.shut
      dsimp only at hreader
      split at hreader <;> cases hreader
    · cases hstep
  | nested nested => exact h.takeCall hsettled hstep
  | peerCancel id =>
    simp only [step] at hstep
    split at hstep
    · split at hstep
      · cases hstep
        refine ⟨h.shut, h.place, h.looked, h.put, h.answers, h.letGo, h.ids, fun other hother => ?_⟩
        exact (h.fate other hother).congr rfl rfl (List.mem_append_left _) fun _ => rfl
      · cases hstep
    · cases hstep
  | read => exact h.read hsettled hstep

theorem Answering.holds_eq_zero (h : s.Answering)
    (hpending : s.pending nested = false) : (s.call nested.parent).holds nested = 0 := by
  have hshut := h.shut nested.parent
  simp only [pending, Bool.and_eq_false_imp, Bool.or_eq_false_iff, decide_eq_false_iff_not] at hpending
  have hruns : (s.call nested.parent).at_ ≠ .running nested := by
    intro hat
    exact (hpending (by rw [hat]; rfl)).2 hat
  have hitems : Inbound.call nested ∉ (s.call nested.parent).items := by
    intro hin
    cases hserves : (s.call nested.parent).at_.serves with
    | false => exact hshut hserves nested hin
    | true =>
      have hnot := (hpending hserves).1
      rw [List.contains_iff_mem.mpr hin] at hnot
      cases hnot
  simp only [Call.holds, Waiter.runs, if_neg hruns, List.count_eq_zero.mpr hitems]

/-- Every call put in a mailbox is answered once, or was cancelled by the peer, in every order of
frames, replies and waits that end, that takes no step `settlesNested` rules out. -/
theorem nested_answered {acts : List CallsAct}
    (hrun : run (only (fun s a => s.settlesNested a = true) step) start acts = some s) :
    s.SettlesNested := by
  have hanswering := (answering_step.run ⟨fresh_start, answering_start⟩ hrun).2
  intro nested hnested
  cases hanswering.fate nested hnested with
  | pending held unanswered _ =>
    refine ⟨?_, fun hpending => ?_⟩
    · rw [List.count_eq_zero.mpr unanswered]
      exact Nat.zero_le 1
    · rw [hanswering.holds_eq_zero hpending] at held
      cases held
  | done _ once answered settled => exact ⟨once, fun _ => ⟨answered, settled⟩⟩

/-- The peer calls back during a call, handing an object over, and answers after. -/
def callsBack : List CallsAct :=
  [.begin (some ⟨false⟩), .queue 1, .send 1, .nested ⟨5, 1, [.senders 7], true⟩, .read, .receive 1,
    .finish 1 true, .reply 1 ⟨none⟩, .read, .receive 1, .unregister 1, .decode 1 true, .leave 1]

theorem nested_answered_callsBack : ∃ s,
    run (only (fun s a => s.settlesNested a = true) step) start callsBack = some s ∧
      s.put = [⟨5, 1, [.senders 7], true⟩] ∧ s.answers = [5] ∧ s.SettlesNested := by
  obtain ⟨s, hrun⟩ : ∃ s, run (only (fun s a => s.settlesNested a = true) step) start callsBack =
      some s := ⟨_, rfl⟩
  have hput : s.put = [⟨5, 1, [.senders 7], true⟩] := by
    cases hrun
    rfl
  have hanswers : s.answers = [5] := by
    cases hrun
    rfl
  exact ⟨s, hrun, hput, hanswers, nested_answered hrun⟩

/-- A reader finds a call waiting, whose waiter gives up before the peer's call is in its mailbox: the
mailbox goes with the call in it, which is never answered, and the object it handed over is held on. -/
theorem nested_dropped : ∃ s,
    run step start
      [.begin (some ⟨false⟩), .queue 1, .send 1, .nested ⟨5, 1, [.senders 7], true⟩, .timeOut 1, .read,
        .cancel 1, .retract 1, .leave 1] = some s ∧
    s.link.alive = true ∧ s.put = [⟨5, 1, [.senders 7], true⟩] ∧ s.answers = [] ∧
      s.cancelledByPeer = [] ∧ s.letGo = [] ∧ ¬ s.SettlesNested := by
  obtain ⟨s, hrun⟩ : ∃ s, run step start
      [.begin (some ⟨false⟩), .queue 1, .send 1, .nested ⟨5, 1, [.senders 7], true⟩, .timeOut 1, .read,
        .cancel 1, .retract 1, .leave 1] = some s := ⟨_, rfl⟩
  have hlink : s.link.alive = true ∧ s.pending ⟨5, 1, [.senders 7], true⟩ = false := by
    cases hrun
    decide
  have hbooks : s.put = [⟨5, 1, [.senders 7], true⟩] ∧ s.answers = [] ∧ s.cancelledByPeer = [] ∧
      s.letGo = [] := by
    cases hrun
    exact ⟨rfl, rfl, rfl, rfl⟩
  obtain ⟨hput, hanswers, hcancelled, hletGo⟩ := hbooks
  refine ⟨s, hrun, hlink.1, hput, hanswers, hcancelled, hletGo, fun h => ?_⟩
  have hin : (⟨5, 1, [.senders 7], true⟩ : Nested) ∈ s.put := by
    rw [hput]
    exact List.mem_singleton_self _
  obtain ⟨hanswered, -⟩ := (h _ hin).2 hlink.2
  rw [hanswers, hcancelled] at hanswered
  rcases hanswered with hone | hcancel
  · cases hone
  · exact List.not_mem_nil hcancel

end Calls

end Guatiao.Link
