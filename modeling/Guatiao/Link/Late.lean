import Guatiao.Link.Calls

/-!
# What becomes of an answer's object

A REPLY comes once for each call. What it hands over is on its way to the caller, is with
the caller, or is settled; it is lost where the reader sends it to a mailbox nobody reads
again, or finds the call forgotten.
-/

namespace Guatiao.Link

open Lib

def Inbound.isReply : Inbound → Bool
  | .reply _ => true
  | .call _ => false

/-- Whether it is a reply that hands an object over. -/
def Inbound.hands : Inbound → Bool
  | .reply r => r.object.isSome
  | .call _ => false

namespace Waiter

/-- The call is among the calls in flight. -/
@[simp] def registered : Waiter → Bool
  | .building | .waiting | .running _ | .timedOut | .replied _ => true
  | _ => false

/-- The call's mailbox will be read. -/
@[simp] def reads : Waiter → Bool
  | .building | .waiting | .running _ => true
  | _ => false

/-- The call was cancelled. -/
@[simp] def late : Waiter → Bool
  | .cancelling | .leaving .cancelled | .done .cancelled => true
  | _ => false

/-- No frame of the call is out. -/
@[simp] def unsent : Waiter → Bool
  | .idle | .building | .leaving .unsent | .done .unsent => true
  | _ => false

/-- How many replies the waiter has taken. -/
@[simp] def took : Waiter → ℕ
  | .replied _ | .decoding _ | .leaving .answered | .done .answered => 1
  | _ => 0

/-- How many objects the waiter has in a reply it took. -/
@[simp] def has : Waiter → ℕ
  | .replied reply | .decoding reply => reply.object.isSome.toNat
  | _ => 0

end Waiter

namespace Reader

/-- The reply the reader is about to send to a call's mailbox. -/
@[simp] def replyingTo : Reader → ℕ → Option Reply
  | .replying call reply, id => if call = id then some reply else none
  | _, _ => none

/-- The late answer of a call the reader is about to settle. -/
@[simp] def settlingFor : Reader → ℕ → Option (Slot × Reply)
  | .settling call slot reply, id => if call = id then some (slot, reply) else none
  | _, _ => none

end Reader

/-- What there is of one call. -/
structure View where
  call : Call
  registered : Bool
  cancelled : Option Slot
  replying : Option Reply
  settling : Option (Slot × Reply)
  arrived : ℕ
  given : ℕ
  taken : ℕ
  released : ℕ

namespace View

/-- How many objects of the call's answer are on their way, or with the caller. -/
def hand (v : View) : ℕ :=
  (v.replying.any (·.object.isSome)).toNat + (v.settling.any (·.2.object.isSome)).toNat +
    (if v.call.at_.reads then v.call.items.countP Inbound.hands else 0) + v.call.at_.has

/-- What holds of a call between any two steps, where all that was done was settled. -/
structure Ok (v : View) : Prop where
  registered : v.registered = v.call.at_.registered
  unsent : v.call.at_.unsent = true → v.call.wire = .unsent
  sent : 0 < v.arrived → v.call.wire = .sent
  once : v.arrived ≤ 1
  /-- Each reply that came is in one place at most. -/
  replies : v.replying.isSome.toNat + v.call.items.countP Inbound.isReply + v.call.at_.took ≤
    v.arrived
  /-- A cancelled call is remembered until its answer comes. -/
  remembered : v.call.at_.late = true → ∀ slot, v.call.slot = some slot → v.arrived = 0 →
    v.cancelled = some slot
  slots : ∀ slot, v.cancelled = some slot → v.call.at_.late = true ∧ v.call.slot = some slot
  /-- An object on its way to a mailbox will be read there. -/
  replying : ∀ reply ∈ v.replying, reply.object.isSome = true → v.call.at_.reads = true
  settling : ∀ late ∈ v.settling, late.2.object.isSome = true → late.1.answersObject = true
  account : v.taken + v.released + v.hand = v.given

theorem hands_le_isReply (items : List Inbound) :
    items.countP Inbound.hands ≤ items.countP Inbound.isReply := by
  refine List.countP_mono_left fun item _ h => ?_
  cases item with
  | reply reply => rfl
  | call nested => cases h

theorem eq_none_of_toNat {α : Type} {o : Option α} (h : o.isSome.toNat = 0) : o = none := by
  cases o with
  | none => rfl
  | some a => cases h

namespace Ok

variable {v : View}

theorem arrived_eq_zero (h : v.Ok) (hunsent : v.call.at_.unsent = true) : v.arrived = 0 := by
  by_contra harrived
  have hsent := h.sent (Nat.pos_of_ne_zero harrived)
  rw [h.unsent hunsent] at hsent
  cases hsent

theorem nowhere (h : v.Ok) (hzero : v.arrived = 0) :
    v.replying = none ∧ v.call.items.countP Inbound.hands = 0 ∧ v.call.at_.took = 0 := by
  have hreplies := h.replies
  have hle := hands_le_isReply v.call.items
  exact ⟨eq_none_of_toNat (by omega), by omega, by omega⟩

theorem not_slot (h : v.Ok) (hlate : v.call.at_.late = false) {P : Slot → Prop} :
    ∀ slot, v.cancelled = some slot → P slot := by
  intro slot hslot
  have hlate' := (h.slots slot hslot).1
  rw [hlate] at hlate'
  cases hlate'

theorem not_replying (h : v.Ok) (hreads : v.call.at_.reads = false) {P : Prop} :
    ∀ reply ∈ v.replying, reply.object.isSome = true → P := by
  intro reply hreply hobject
  have hreads' := h.replying reply hreply hobject
  rw [hreads] at hreads'
  cases hreads'

theorem begin (h : v.Ok) (hat : v.call.at_ = .idle) (slot : Option Slot) :
    Ok { v with call := ⟨.building, [], slot, .unsent⟩, registered := true } := by
  have hzero := h.arrived_eq_zero (by rw [hat]; rfl)
  obtain ⟨hnone, -, -⟩ := h.nowhere hzero
  have haccount := h.account
  simp only [hand, hat] at haccount
  refine ⟨rfl, fun _ => rfl, ?_, h.once, ?_, nofun, ?_, ?_, h.settling, ?_⟩
  · intro harrived
    exact absurd hzero harrived.ne'
  · simp [hnone]
  · exact h.not_slot (by rw [hat]; rfl)
  · simp [hnone]
  · simpa [hand] using haccount

theorem queue (h : v.Ok) (hat : v.call.at_ = .building) :
    Ok { v with call := { v.call with at_ := .waiting, wire := .queued } } := by
  have hzero := h.arrived_eq_zero (by rw [hat]; rfl)
  obtain ⟨hnone, -, -⟩ := h.nowhere hzero
  have haccount := h.account
  have hreplies := h.replies
  simp only [hand, hat, Waiter.took] at haccount hreplies
  refine ⟨?_, nofun, ?_, h.once, hreplies, nofun, ?_, fun _ _ _ => rfl, h.settling, haccount⟩
  · rw [h.registered, hat]
    rfl
  · intro harrived
    exact absurd hzero harrived.ne'
  · exact h.not_slot (by rw [hat]; rfl)

theorem abandon (h : v.Ok) (hat : v.call.at_ = .building) :
    Ok { v with call := { v.call with at_ := .leaving .unsent }, registered := false } := by
  have hzero := h.arrived_eq_zero (by rw [hat]; rfl)
  obtain ⟨hnone, hitems, -⟩ := h.nowhere hzero
  have haccount := h.account
  have hreplies := h.replies
  simp only [hand, hat, Waiter.took, Waiter.reads, if_true, hitems]
    at haccount hreplies
  refine ⟨rfl, fun _ => ?_, h.sent, h.once, hreplies, nofun, ?_, ?_, h.settling, haccount⟩
  · exact h.unsent (by rw [hat]; rfl)
  · exact h.not_slot (by rw [hat]; rfl)
  · simp [hnone]

theorem send (h : v.Ok) (hwire : v.call.wire = .queued) :
    Ok { v with call := { v.call with wire := .sent } } := by
  refine ⟨h.registered, fun hunsent => ?_, fun _ => rfl, h.once, h.replies, h.remembered, h.slots,
    h.replying, h.settling, h.account⟩
  have hnot := h.unsent hunsent
  rw [hwire] at hnot
  cases hnot

variable {reply : Reply}

theorem receive_reply (h : v.Ok) {items : List Inbound} (hat : v.call.at_ = .waiting)
    (hitems : v.call.items = .reply reply :: items) :
    Ok { v with call := { v.call with at_ := .replied reply, items } } := by
  have haccount := h.account
  have hreplies := h.replies
  have honce := h.once
  have hle := hands_le_isReply items
  simp only [hand, hat, Waiter.took, Waiter.reads, if_true, hitems, List.countP_cons,
    Inbound.isReply, Inbound.hands, Waiter.has] at haccount hreplies
  have hrest : items.countP Inbound.hands = 0 := by omega
  have hnone : v.replying = none := eq_none_of_toNat (by omega)
  refine ⟨?_, nofun, h.sent, h.once, ?_, nofun, ?_, ?_, h.settling, ?_⟩
  · rw [h.registered, hat]
    rfl
  · simp only [Waiter.took]
    omega
  · exact h.not_slot (by rw [hat]; rfl)
  · simp [hnone]
  · simp only [hand, Waiter.reads, Waiter.has, Bool.false_eq_true, if_false]
    cases hobject : reply.object <;> simp_all

theorem receive_call (h : v.Ok) {nested : Nested} {items : List Inbound}
    (hat : v.call.at_ = .waiting) (hitems : v.call.items = .call nested :: items) :
    Ok { v with call := { v.call with at_ := .running nested, items } } := by
  have haccount := h.account
  have hreplies := h.replies
  simp only [hand, hat, Waiter.took, Waiter.reads, if_true, hitems, List.countP_cons,
    Inbound.isReply, Inbound.hands, Waiter.has, Bool.false_eq_true, if_false, Nat.add_zero]
    at haccount hreplies
  refine ⟨?_, nofun, h.sent, h.once, hreplies, nofun, ?_, fun _ _ _ => rfl, h.settling, haccount⟩
  · rw [h.registered, hat]
    rfl
  · exact h.not_slot (by rw [hat]; rfl)

theorem finish (h : v.Ok) {nested : Nested} (hat : v.call.at_ = .running nested) :
    Ok { v with call := { v.call with at_ := .waiting } } := by
  have haccount := h.account
  have hreplies := h.replies
  simp only [hand, hat, Waiter.took] at haccount hreplies
  refine ⟨?_, nofun, h.sent, h.once, hreplies, nofun, ?_, fun _ _ _ => rfl, h.settling, haccount⟩
  · rw [h.registered, hat]
    rfl
  · exact h.not_slot (by rw [hat]; rfl)

theorem timeOut (h : v.Ok) (hat : v.call.at_ = .waiting) (hitems : v.call.items = [])
    (hnone : v.replying.any (·.object.isSome) = false) :
    Ok { v with call := { v.call with at_ := .timedOut } } := by
  have haccount := h.account
  have hreplies := h.replies
  simp only [hand, hat, Waiter.took, Waiter.reads, if_true, hitems, List.countP_nil]
    at haccount hreplies
  refine ⟨?_, nofun, h.sent, h.once, ?_, nofun, ?_, ?_, h.settling, haccount⟩
  · rw [h.registered, hat]
    rfl
  · simpa [hitems] using hreplies
  · exact h.not_slot (by rw [hat]; rfl)
  · intro reply hreply hobject
    rw [hreply] at hnone
    simp [hobject] at hnone

theorem cancel (h : v.Ok) (hat : v.call.at_ = .timedOut) :
    Ok { v with
      call := { v.call with at_ := .cancelling }
      registered := false
      cancelled := v.call.slot } := by
  have haccount := h.account
  have hreplies := h.replies
  simp only [hand, hat, Waiter.took, Waiter.reads, Waiter.has] at haccount hreplies
  refine ⟨rfl, nofun, h.sent, h.once, hreplies, fun _ slot hslot _ => hslot,
    fun slot hslot => ⟨rfl, hslot⟩, ?_, h.settling, haccount⟩
  exact h.not_replying (by rw [hat]; rfl)

theorem retract (h : v.Ok) (hat : v.call.at_ = .cancelling) :
    Ok { v with call := { v.call with
      at_ := .leaving .cancelled
      wire := if v.call.wire = .queued then .retracted else v.call.wire } } := by
  have haccount := h.account
  have hreplies := h.replies
  simp only [hand, hat, Waiter.took, Waiter.reads, Waiter.has] at haccount hreplies
  refine ⟨?_, nofun, fun harrived => ?_, h.once, hreplies, fun _ => h.remembered (by rw [hat]; rfl),
    fun slot hslot => ⟨rfl, (h.slots slot hslot).2⟩, ?_, h.settling, haccount⟩
  · rw [h.registered, hat]
    rfl
  · simp only [h.sent harrived, reduceCtorEq, if_false]
  · exact h.not_replying (by rw [hat]; rfl)

theorem unregister (h : v.Ok) (hat : v.call.at_ = .replied reply) :
    Ok { v with call := { v.call with at_ := .decoding reply }, registered := false } := by
  have haccount := h.account
  have hreplies := h.replies
  simp only [hand, hat, Waiter.took] at haccount hreplies
  refine ⟨rfl, nofun, h.sent, h.once, hreplies, nofun, ?_, ?_, h.settling, haccount⟩
  · exact h.not_slot (by rw [hat]; rfl)
  · exact h.not_replying (by rw [hat]; rfl)

theorem decode (h : v.Ok) (ok : Bool) (hat : v.call.at_ = .decoding reply)
    (hok : reply.object.isSome = true → ok = true) :
    Ok { v with
      call := { v.call with at_ := .leaving .answered }
      taken := v.taken + if reply.object.isSome ∧ ok then 1 else 0 } := by
  have haccount := h.account
  have hreplies := h.replies
  simp only [hand, hat, Waiter.took, Waiter.reads, Waiter.has, Bool.false_eq_true,
    if_false] at haccount hreplies
  refine ⟨?_, nofun, h.sent, h.once, hreplies, nofun, ?_, ?_, h.settling, ?_⟩
  · rw [h.registered, hat]
    rfl
  · exact h.not_slot (by rw [hat]; rfl)
  · exact h.not_replying (by rw [hat]; rfl)
  · simp only [hand, Waiter.reads, Waiter.has, Bool.false_eq_true, if_false]
    cases hobject : reply.object.isSome with
    | false =>
      rw [hobject] at haccount
      simpa using haccount
    | true =>
      rw [hobject, Bool.toNat_true] at haccount
      simp only [hok hobject, and_self, if_true]
      omega

theorem leave (h : v.Ok) {how : Ended} (hat : v.call.at_ = .leaving how) :
    Ok { v with call := { v.call with at_ := .done how, items := [] } } := by
  have haccount := h.account
  have hreplies := h.replies
  have hslots := h.slots
  have hremembered := h.remembered
  simp only [hand, hat, Waiter.reads, Waiter.has] at haccount hslots hreplies hremembered
  refine ⟨?_, fun hunsent => h.unsent ?_, h.sent, h.once, ?_, ?_, ?_, ?_, h.settling, haccount⟩
  · rw [h.registered, hat]
    rfl
  · rw [hat]
    cases how <;> first | rfl | cases hunsent
  · cases how <;> simp only [Waiter.took, List.countP_nil] at hreplies ⊢ <;> omega
  · cases how with
    | cancelled => exact hremembered
    | _ => nofun
  · intro slot hslot
    obtain ⟨hlate, heq⟩ := hslots slot hslot
    refine ⟨?_, heq⟩
    cases how <;> first | rfl | cases hlate
  · exact h.not_replying (by rw [hat]; rfl)

theorem reply_waiting (h : v.Ok) (hreg : v.registered = true)
    (hzero : v.arrived = 0) (hwire : v.call.wire = .sent) (hsettling : v.settling = none)
    (hobject : reply.object.isSome = true → v.call.at_ ≠ .timedOut) :
    Ok { v with
      replying := some reply
      arrived := v.arrived + 1
      given := v.given + reply.object.isSome.toNat } := by
  obtain ⟨hnone, hitems, htook⟩ := h.nowhere hzero
  have haccount := h.account
  have hreplies := h.replies
  simp only [hand, hnone, hsettling, hitems, Option.any_none, Bool.toNat_false, ite_self] at haccount
  rw [h.registered] at hreg
  refine ⟨h.registered, h.unsent, fun _ => hwire, by simp only; omega, ?_, ?_, h.slots, ?_, h.settling,
    ?_⟩
  · simp only [Option.isSome_some, Bool.toNat_true]
    omega
  · intro hlate
    revert hreg
    cases hat : v.call.at_ <;> simp_all
  · intro r hr hisSome
    cases hr
    have hnot := hobject hisSome
    have hunsent := h.unsent
    revert hreg
    cases hat : v.call.at_ <;> simp_all
  · simp only [hand, hsettling, hitems, Option.any_some, Option.any_none, Bool.toNat_false, ite_self]
    omega

theorem reply_late (h : v.Ok) {slot : Slot} (hslot : v.cancelled = some slot)
    (hzero : v.arrived = 0) (hwire : v.call.wire = .sent) (hsettling : v.settling = none)
    (hobject : reply.object.isSome = true → (v.call.slot.any (·.answersObject)) = true) :
    Ok { v with
      cancelled := none
      settling := some (slot, reply)
      arrived := v.arrived + 1
      given := v.given + reply.object.isSome.toNat } := by
  obtain ⟨hnone, hitems, htook⟩ := h.nowhere hzero
  have haccount := h.account
  have hreplies := h.replies
  simp only [hand, hnone, hsettling, hitems, Option.any_none, Bool.toNat_false, ite_self] at haccount
  refine ⟨h.registered, h.unsent, fun _ => hwire, by simp only; omega, by simp only; omega, ?_, nofun,
    h.replying, ?_, ?_⟩
  · intro _ _ _ hzero'
    cases hzero'
  · intro late hlate hisSome
    cases hlate
    have hany := hobject hisSome
    rw [(h.slots slot hslot).2] at hany
    exact hany
  · simp only [hand, hnone, hitems, Option.any_some, Option.any_none, Bool.toNat_false, ite_self]
    omega

/-- A reply comes, and finds no call. It hands nothing over: a call that could be answered with an
object is waiting or is remembered. -/
theorem reply_nobody (h : v.Ok) (hreg : v.registered = false)
    (hnone : v.cancelled = none) (hzero : v.arrived = 0) (hwire : v.call.wire = .sent)
    (hobject : reply.object.isSome = true → (v.call.slot.any (·.answersObject)) = true) :
    Ok { v with arrived := v.arrived + 1, given := v.given + reply.object.isSome.toNat } := by
  obtain ⟨-, -, htook⟩ := h.nowhere hzero
  have hreplies := h.replies
  have hnot : reply.object.isSome = false := by
    rw [Bool.eq_false_iff]
    intro hisSome
    have hany := hobject hisSome
    have hunsent := h.unsent
    have hremembered := h.remembered
    rw [h.registered] at hreg
    cases hslot : v.call.slot with
    | none =>
      rw [hslot] at hany
      cases hany
    | some slot =>
      have hlate : v.call.at_.late = true := by
        revert hreg hunsent htook
        cases hat : v.call.at_ with
        | leaving how | done how => cases how <;> simp_all
        | _ => simp_all
      rw [hremembered hlate slot hslot hzero] at hnone
      cases hnone
  rw [hnot, Bool.toNat_false, Nat.add_zero]
  refine ⟨h.registered, h.unsent, fun _ => hwire, by simp only; omega, by simp only; omega, ?_,
    h.slots, h.replying, h.settling, h.account⟩
  intro _ _ _ hzero'
  cases hzero'

theorem put_reply (h : v.Ok) (hreply : v.replying = some reply) :
    Ok { v with
      call := { v.call with items := v.call.items ++ [.reply reply] }
      replying := none } := by
  have haccount := h.account
  have hreplies := h.replies
  have hreads := h.replying reply hreply
  simp only [hand, hreply, Option.any_some] at haccount
  simp only [hreply, Option.isSome_some, Bool.toNat_true] at hreplies
  refine ⟨h.registered, h.unsent, h.sent, h.once, ?_, h.remembered, h.slots, nofun, h.settling, ?_⟩
  · simp only [Option.isSome_none, Bool.toNat_false, List.countP_append, List.countP_singleton,
      Inbound.isReply, if_true]
    omega
  · simp only [hand, Option.any_none, Bool.toNat_false, List.countP_append, List.countP_singleton,
      Inbound.hands]
    by_cases hobject : reply.object.isSome = true
    · rw [hobject, hreads hobject, Bool.toNat_true, if_pos rfl] at haccount
      simp only [hreads hobject, hobject, if_true]
      omega
    · rw [Bool.not_eq_true] at hobject
      rw [hobject, Bool.toNat_false] at haccount
      simp only [hobject, Bool.false_eq_true, if_false, Nat.add_zero]
      exact haccount

theorem put_nowhere (h : v.Ok) {how : Ended} (hreply : v.replying = some reply)
    (hat : v.call.at_ = .done how) : Ok { v with replying := none } := by
  have haccount := h.account
  have hreplies := h.replies
  have hnot : reply.object.isSome = false := by
    rw [Bool.eq_false_iff]
    intro hobject
    have hreads := h.replying reply hreply hobject
    rw [hat] at hreads
    cases hreads
  simp only [hand, hreply, Option.any_some, hnot, Bool.toNat_false] at haccount
  simp only [hreply, Option.isSome_some, Bool.toNat_true] at hreplies
  refine ⟨h.registered, h.unsent, h.sent, h.once, ?_, h.remembered, h.slots, nofun, h.settling, ?_⟩
  · simp only [Option.isSome_none, Bool.toNat_false]
    omega
  · simpa only [hand, Option.any_none, Bool.toNat_false] using haccount

theorem settle (h : v.Ok) {slot : Slot} (hsettling : v.settling = some (slot, reply)) :
    Ok { v with
      settling := none
      released := v.released + (slot.answersObject && reply.object.isSome).toNat } := by
  have haccount := h.account
  have hanswers : reply.object.isSome = true → slot.answersObject = true :=
    h.settling (slot, reply) hsettling
  simp only [hand, hsettling, Option.any_some] at haccount
  refine ⟨h.registered, h.unsent, h.sent, h.once, h.replies, h.remembered, h.slots, h.replying, nofun,
    ?_⟩
  simp only [hand, Option.any_none, Bool.toNat_false]
  cases hobject : reply.object.isSome with
  | false =>
    rw [hobject] at haccount
    simpa using haccount
  | true =>
    rw [hobject, Bool.toNat_true] at haccount
    simp only [hanswers hobject, Bool.and_self, Bool.toNat_true]
    omega

theorem put_call (h : v.Ok) (nested : Nested) :
    Ok { v with call := { v.call with items := v.call.items ++ [.call nested] } } := by
  have haccount := h.account
  have hreplies := h.replies
  have hcount : (v.call.items ++ [Inbound.call nested]).countP Inbound.isReply =
      v.call.items.countP Inbound.isReply := by
    simp [Inbound.isReply]
  have hcount' : (v.call.items ++ [Inbound.call nested]).countP Inbound.hands =
      v.call.items.countP Inbound.hands := by
    simp [Inbound.hands]
  refine ⟨h.registered, h.unsent, h.sent, h.once, ?_, h.remembered, h.slots, h.replying, h.settling, ?_⟩
  · simpa only [hcount] using hreplies
  · simpa only [hand, hcount'] using haccount

end Ok

end View

namespace Calls

/-- What there is of one call. -/
def view (s : Calls) (id : ℕ) : View :=
  ⟨s.call id, (s.link.calls.get id).isSome, s.link.cancelled.get id, s.reader.replyingTo id,
    s.reader.settlingFor id, s.arrived.count id, s.given.count id, s.taken.count id,
    s.released.count id⟩

/-- What a step may not do, or an answer's object is lost: a waiter gives up while the reader has an
object on the way to its mailbox; the reader looks a call up, with an object for it, whose waiter
has given up and not yet cancelled; too many cancelled calls are remembered; the caller can make no
proxy of the object. -/
def settlesLate (s : Calls) : CallsAct → Bool
  | .timeOut id => !(s.reader.replyingTo id).any (·.object.isSome)
  | .reply id reply => !(reply.object.isSome && (s.call id).at_ = .timedOut)
  | .cancel _ => s.link.cancelled.entries.length < cancelledMax
  | .decode id ok =>
    match (s.call id).at_ with
    | .decoding reply => !reply.object.isSome || ok
    | _ => true
  | _ => true

/-- What holds between any two steps, where all that was done was settled. -/
structure Late (s : Calls) : Prop where
  alive : s.link.alive = true
  ok : ∀ id, (s.view id).Ok

theorem late_start : Late start where
  alive := rfl
  ok id := by
    refine ⟨rfl, fun _ => rfl, ?_, ?_, ?_, ?_, ?_, ?_, ?_, ?_⟩ <;> simp [view, start, State.new, View.hand]

variable {s s' : Calls} {id : ℕ}

theorem Late.moved (h : s.Late) (id : ℕ) (halive : s'.link.alive = true)
    (hothers : ∀ j, j ≠ id → s'.view j = s.view j) (hok : (s'.view id).Ok) : s'.Late where
  alive := halive
  ok j := by
    by_cases hji : j = id
    · rw [hji]
      exact hok
    · rw [hothers j hji]
      exact h.ok j

theorem view_set_of_ne {call : Call} {j : ℕ} (hj : j ≠ id) : (s.set id call).view j = s.view j := by
  simp only [view, set, Function.update_of_ne hj]

theorem view_set {call : Call} : (s.set id call).view id = { s.view id with call } := by
  simp only [view, set, Function.update_self]

theorem Late.put (h : s.Late) {call : Call} (hok : View.Ok { s.view id with call }) :
    (s.set id call).Late := by
  refine h.moved id h.alive (fun j hj => view_set_of_ne hj) ?_
  rwa [view_set]

theorem view_idle (hidle : s.reader = .idle) :
    (s.view id).replying = none ∧ (s.view id).settling = none := by
  simp only [view, hidle, Reader.replyingTo, Reader.settlingFor, and_self]

theorem late_takeReply (h : s.Late) {reply : Reply} (hstep : s.takeReply id reply = some s')
    (hsettled : reply.object.isSome = true → (s.call id).at_ ≠ .timedOut) : s'.Late := by
  simp only [takeReply] at hstep
  split at hstep
  · next hguard =>
    obtain ⟨hidle, hwire, hnew, hobject⟩ := hguard
    have hzero : (s.view id).arrived = 0 := List.count_eq_zero.mpr hnew
    have hsettling : (s.view id).settling = none := (view_idle hidle).2
    have hgiven := count_concat_if s.given id reply.object.isSome
    have harrived := count_concat_if s.arrived id true
    simp only [if_true, Bool.toNat_true] at harrived
    cases hstep
    cases hcalls : s.link.calls.get id with
    | some mailbox =>
      have hreg : (s.view id).registered = true := by
        simp only [view, hcalls, Option.isSome_some]
      have hok := (h.ok id).reply_waiting hreg hzero hwire hsettling hsettled
      refine ⟨by simpa only [State.routeReply, hcalls] using h.alive, fun j => ?_⟩
      by_cases hj : j = id
      · rw [hj]
        simp only [view, State.routeReply, hcalls, harrived, hgiven, if_true, Reader.replyingTo,
          Reader.settlingFor, hidle] at hok ⊢
        exact hok
      · have hne : id ≠ j := fun heq => hj heq.symm
        have hsame := h.ok j
        simp only [view, State.routeReply, hcalls, harrived, hgiven, hj, hne, if_false, Nat.add_zero,
          Reader.replyingTo, Reader.settlingFor, hidle] at hsame ⊢
        exact hsame
    | none =>
      have hreg : (s.view id).registered = false := by
        simp only [view, hcalls, Option.isSome_none]
      cases hslot : s.link.cancelled.get id with
      | some slot =>
        have hok := (h.ok id).reply_late hslot hzero hwire hsettling hobject
        refine ⟨by simpa only [State.routeReply, hcalls, hslot] using h.alive, fun j => ?_⟩
        by_cases hj : j = id
        · rw [hj]
          simp only [view, State.routeReply, hcalls, hslot, harrived, hgiven, if_true,
            Reader.replyingTo, Reader.settlingFor, hidle, SortedMap.get_remove_self] at hok ⊢
          exact hok
        · have hne : id ≠ j := fun heq => hj heq.symm
          have hsame := h.ok j
          simp only [view, State.routeReply, hcalls, hslot, harrived, hgiven, hj, hne, if_false,
            Nat.add_zero, Reader.replyingTo, Reader.settlingFor, hidle,
            SortedMap.get_remove_of_ne hj] at hsame ⊢
          exact hsame
      | none =>
        have hok := (h.ok id).reply_nobody hreg hslot hzero hwire hobject
        refine ⟨by simpa only [State.routeReply, hcalls, hslot] using h.alive, fun j => ?_⟩
        by_cases hj : j = id
        · rw [hj]
          simp only [view, State.routeReply, hcalls, hslot, harrived, hgiven, if_true,
            Reader.replyingTo, Reader.settlingFor, hidle] at hok ⊢
          exact hok
        · have hsame := h.ok j
          simp only [view, State.routeReply, hcalls, hslot, harrived, hgiven, hj, if_false,
            Nat.add_zero, Reader.replyingTo, Reader.settlingFor, hidle] at hsame ⊢
          exact hsame
  · cases hstep

/-- The reader finishes what it has looked up. -/
theorem late_read (h : s.Late) (hstep : s.read = some s') : s'.Late := by
  cases hreader : s.reader with
  | idle =>
    simp only [Calls.read, hreader, reduceCtorEq] at hstep
  | replying id reply =>
    have hreply : (s.view id).replying = some reply := by
      simp only [view, hreader, Reader.replyingTo, if_true]
    simp only [Calls.read, hreader] at hstep
    split at hstep
    · next how hat =>
      cases hstep
      have hok := (h.ok id).put_nowhere hreply hat
      refine h.moved id h.alive (fun j hj => ?_) ?_
      · have hne : id ≠ j := fun heq => hj heq.symm
        simp only [view, hreader, Reader.replyingTo, Reader.settlingFor, if_neg hne]
      · simpa only [view, hreader, Reader.replyingTo, Reader.settlingFor] using hok
    · cases hstep
      have hok := (h.ok id).put_reply hreply
      refine h.moved id h.alive (fun j hj => ?_) ?_
      · have hne : id ≠ j := fun heq => hj heq.symm
        simp only [view, Calls.set, Function.update_of_ne hj, hreader, Reader.replyingTo,
          Reader.settlingFor, if_neg hne]
      · simpa only [view, Calls.set, Function.update_self, hreader, Reader.replyingTo,
          Reader.settlingFor] using hok
  | settling id slot reply =>
    have hsettling : (s.view id).settling = some (slot, reply) := by
      simp only [view, hreader, Reader.settlingFor, if_true]
    have hok := (h.ok id).settle hsettling
    simp only [Calls.read, hreader] at hstep
    have hreleased := count_concat_if s.released id
      (slot.answersObject && reply.object.isSome)
    have heq : s' = { s with
        reader := .idle
        released := if slot.answersObject && reply.object.isSome then s.released ++ [id]
          else s.released } := by
      split at hstep <;> next hcond =>
        cases hstep
        simp only [hcond, if_true, Bool.false_eq_true, if_false]
    rw [heq]
    refine h.moved id h.alive (fun j hj => ?_) ?_
    · have hne : id ≠ j := fun heq => hj heq.symm
      simp only [view, hreader, Reader.replyingTo, Reader.settlingFor, hreleased, if_neg hne,
        if_neg hj, Nat.add_zero]
    · simpa only [view, hreader, Reader.replyingTo, Reader.settlingFor, hreleased, if_true] using hok
  | calling nested =>
    simp only [Calls.read, hreader] at hstep
    have hlaid : Late { s with reader := .idle } := by
      refine ⟨h.alive, fun j => ?_⟩
      have hok := h.ok j
      simp only [view, hreader, Reader.replyingTo, Reader.settlingFor] at hok ⊢
      exact hok
    split at hstep
    · cases hstep
      exact ⟨hlaid.alive, hlaid.ok⟩
    · split at hstep
      · cases hstep
        exact ⟨hlaid.alive, hlaid.ok⟩
      · cases hstep
        have hok := (hlaid.ok nested.parent).put_call nested
        refine hlaid.moved nested.parent h.alive (fun j hj => ?_) ?_
        · simp only [view, Calls.set, Function.update_of_ne hj]
        · simpa only [view, Calls.set, Function.update_self] using hok

theorem Late.begin (h : s.Late) (hfresh : s.Fresh) {slot : Option Slot}
    (hstep : step s (.begin slot) = some s') : s'.Late := by
  simp only [step, State.register, h.alive, if_true, Option.map_some, Option.some.injEq] at hstep
  rw [← hstep]
  have hat := hfresh s.nextCall (Nat.le_refl _)
  refine h.moved s.nextCall rfl (fun j hj => ?_) ?_
  · simp only [view, set, Function.update_of_ne hj, SortedMap.get_insert_of_ne hj]
  · have hok := (h.ok s.nextCall).begin hat slot
    simpa only [view, set, Function.update_self, SortedMap.get_insert_self, Option.isSome_some]
      using hok

theorem Late.queue (h : s.Late) (hstep : step s (.queue id) = some s') : s'.Late := by
  simp only [step] at hstep
  split at hstep
  · next hat =>
    cases hstep
    exact h.put ((h.ok id).queue hat)
  · cases hstep

theorem Late.abandon (h : s.Late) (hstep : step s (.abandon id) = some s') : s'.Late := by
  simp only [step] at hstep
  split at hstep
  · next hat =>
    cases hstep
    refine h.moved id h.alive (fun j hj => ?_) ?_
    · simp only [view, set, State.forget, Function.update_of_ne hj, SortedMap.get_remove_of_ne hj]
    · have hok := (h.ok id).abandon hat
      simpa only [view, set, State.forget, Function.update_self, SortedMap.get_remove_self,
        Option.isSome_none] using hok
  · cases hstep

theorem Late.send (h : s.Late) (hstep : step s (.send id) = some s') : s'.Late := by
  simp only [step] at hstep
  split at hstep
  · next hwire =>
    cases hstep
    exact h.put ((h.ok id).send hwire)
  · cases hstep

theorem Late.receive (h : s.Late) (hstep : step s (.receive id) = some s') : s'.Late := by
  simp only [step] at hstep
  split at hstep
  · next hat hitems =>
    cases hstep
    exact h.put ((h.ok id).receive_reply hat hitems)
  · next hat hitems =>
    cases hstep
    exact h.put ((h.ok id).receive_call hat hitems)
  · cases hstep

theorem Late.finish (h : s.Late) {answered : Bool}
    (hstep : step s (.finish id answered) = some s') : s'.Late := by
  simp only [step] at hstep
  split at hstep
  · next hat =>
    split at hstep
    · cases hstep
      have hput := h.put ((h.ok id).finish hat)
      exact ⟨hput.alive, hput.ok⟩
    · cases hstep
  · cases hstep

theorem Late.timeOut (h : s.Late) (hsettled : s.settlesLate (.timeOut id) = true)
    (hstep : step s (.timeOut id) = some s') : s'.Late := by
  simp only [step] at hstep
  split at hstep
  · next hat =>
    cases hstep
    simp only [settlesLate, Bool.not_eq_true'] at hsettled
    exact h.put ((h.ok id).timeOut hat.1 hat.2 hsettled)
  · cases hstep

theorem Late.cancel (h : s.Late) (hsettled : s.settlesLate (.cancel id) = true)
    (hstep : step s (.cancel id) = some s') : s'.Late := by
  simp only [step] at hstep
  split at hstep
  · next hat =>
    cases hstep
    have hroom : ¬ cancelledMax ≤ s.link.cancelled.entries.length := by
      simpa [settlesLate] using hsettled
    refine h.moved id ?_ (fun j hj => ?_) ?_
    · cases hslot : (s.call id).slot <;> exact h.alive
    · cases hslot : (s.call id).slot <;>
        simp only [view, set, State.cancel, State.forget, hroom, if_false, Function.update_of_ne hj,
          SortedMap.get_remove_of_ne hj, SortedMap.get_insert_of_ne hj]
    · have hok := (h.ok id).cancel hat
      cases hslot : (s.call id).slot with
      | none =>
        have hnone : s.link.cancelled.get id = none := by
          cases hget : s.link.cancelled.get id with
          | none => rfl
          | some slot =>
            have hlate := ((h.ok id).slots slot hget).1
            simp only [view, hat] at hlate
            cases hlate
        simpa only [view, set, State.cancel, State.forget, Function.update_self,
          SortedMap.get_remove_self, Option.isSome_none, hslot, hnone] using hok
      | some slot =>
        simpa only [view, set, State.cancel, State.forget, hroom, if_false, Function.update_self,
          SortedMap.get_remove_self, SortedMap.get_insert_self, Option.isSome_none, hslot] using hok
  · cases hstep

theorem Late.retract (h : s.Late) (hstep : step s (.retract id) = some s') : s'.Late := by
  simp only [step] at hstep
  split at hstep
  · next hat =>
    cases hstep
    exact h.put ((h.ok id).retract hat)
  · cases hstep

theorem Late.unregister (h : s.Late) (hstep : step s (.unregister id) = some s') : s'.Late := by
  simp only [step] at hstep
  split at hstep
  · next hat =>
    cases hstep
    refine h.moved id h.alive (fun j hj => ?_) ?_
    · simp only [view, set, State.forget, Function.update_of_ne hj, SortedMap.get_remove_of_ne hj]
    · have hok := (h.ok id).unregister hat
      simpa only [view, set, State.forget, Function.update_self, SortedMap.get_remove_self,
        Option.isSome_none] using hok
  · cases hstep

theorem Late.decode (h : s.Late) {ok : Bool} (hsettled : s.settlesLate (.decode id ok) = true)
    (hstep : step s (.decode id ok) = some s') : s'.Late := by
  simp only [step] at hstep
  split at hstep
  · next reply hat =>
    cases hstep
    refine h.moved id h.alive (fun j hj => ?_) ?_
    · simp only [view, set, Function.update_of_ne hj]
      split
      · rw [List.count_append, List.count_singleton, beq_eq_false_iff_ne.mpr hj.symm]
        rfl
      · rfl
    · have hok := (h.ok id).decode ok hat fun hobject => by
        simpa [settlesLate, hat, hobject] using hsettled
      simp only [view, set, Function.update_self] at hok ⊢
      split
      · next hboth =>
        rw [List.count_append, List.count_singleton_self]
        rw [if_pos hboth] at hok
        exact hok
      · next hnot =>
        rw [if_neg hnot] at hok
        exact hok
  · cases hstep

theorem Late.leave (h : s.Late) (hstep : step s (.leave id) = some s') : s'.Late := by
  simp only [step] at hstep
  split at hstep
  · next hat =>
    cases hstep
    exact h.put ((h.ok id).leave hat)
  · cases hstep

theorem Late.peerCancel (h : s.Late) (hstep : step s (.peerCancel id) = some s') : s'.Late := by
  simp only [step] at hstep
  split at hstep
  · split at hstep
    · cases hstep
      exact ⟨h.alive, h.ok⟩
    · cases hstep
  · cases hstep

theorem Late.nested (h : s.Late) {nested : Nested}
    (hstep : step s (.nested nested) = some s') : s'.Late := by
  simp only [step, takeCall] at hstep
  split at hstep
  · next hguard =>
    split at hstep
    · cases hstep
      exact ⟨h.alive, h.ok⟩
    · cases hstep
      refine ⟨h.alive, fun j => ?_⟩
      have hok := h.ok j
      simp only [view, hguard.1, Reader.replyingTo, Reader.settlingFor] at hok ⊢
      exact hok
  · cases hstep

theorem late_step : Kept (only (fun s a => s.settlesLate a = true) step) fun s => s.Fresh ∧ s.Late := by
  refine (fresh_step.only _).and ?_
  intro s act s' hfresh h hstep
  obtain ⟨hsettled, hstep⟩ := only_eq_some.mp hstep
  cases act with
  | begin slot => exact h.begin hfresh hstep
  | queue id => exact h.queue hstep
  | abandon id => exact h.abandon hstep
  | send id => exact h.send hstep
  | receive id => exact h.receive hstep
  | finish id answered => exact h.finish hstep
  | timeOut id => exact h.timeOut hsettled hstep
  | cancel id => exact h.cancel hsettled hstep
  | retract id => exact h.retract hstep
  | unregister id => exact h.unregister hstep
  | decode id ok => exact h.decode hsettled hstep
  | leave id => exact h.leave hstep
  | peerCancel id => exact h.peerCancel hstep
  | reply id reply =>
    exact late_takeReply h hstep fun hobject hat => by simp [settlesLate, hobject, hat] at hsettled
  | nested nested => exact h.nested hstep
  | read => exact late_read h hstep

/-- Whether a call's thread and the reader are done with it. -/
def rests (s : Calls) (id : ℕ) : Bool :=
  match (s.call id).at_ with
  | .done _ => (s.reader.replyingTo id).isNone && (s.reader.settlingFor id).isNone
  | _ => false

/-- The objects of a call's answer are settled once each, where the call is done with. -/
def SettlesLate (s : Calls) : Prop :=
  ∀ id, s.given.count id ≤ 1 ∧ s.taken.count id + s.released.count id ≤ s.given.count id ∧
    (s.rests id = true → s.taken.count id + s.released.count id = s.given.count id)

theorem hand_eq_zero (hrests : s.rests id = true) : (s.view id).hand = 0 := by
  unfold rests at hrests
  split at hrests
  · next how hat =>
    simp only [Bool.and_eq_true, Option.isNone_iff_eq_none] at hrests
    simp only [View.hand, view, hrests.1, hrests.2, hat, Waiter.reads, Waiter.has, Option.any_none,
      Bool.toNat_false, Bool.false_eq_true, if_false]
  · cases hrests

theorem step_given {act : CallsAct} (hstep : step s act = some s') :
    (s'.given = s.given ∧ s'.arrived = s.arrived) ∨
      ∃ id reply, act = .reply id reply ∧ s.takeReply id reply = some s' := by
  cases act with
  | reply id reply => exact .inr ⟨id, reply, rfl, hstep⟩
  | begin slot =>
    obtain ⟨link, -, heq⟩ := Option.map_eq_some_iff.mp hstep
    rw [← heq]
    exact .inl ⟨rfl, rfl⟩
  | nested nested =>
    simp only [step, takeCall] at hstep
    split at hstep
    · split at hstep <;>
        · cases hstep
          exact .inl ⟨rfl, rfl⟩
    · cases hstep
  | read =>
    simp only [step, Calls.read] at hstep
    repeat' split at hstep
    all_goals
      cases hstep
      try exact .inl ⟨rfl, rfl⟩
  | queue id | abandon id | send id | receive id | finish id | timeOut id | cancel id | retract id
  | unregister id | decode id | leave id | peerCancel id =>
    simp only [step] at hstep
    repeat' split at hstep
    all_goals
      cases hstep
      try exact .inl ⟨rfl, rfl⟩

theorem given_kept : Kept step fun s => ∀ id, s.given.count id ≤ s.arrived.count id := by
  intro s act s' h hstep j
  rcases step_given hstep with ⟨hgiven, harrived⟩ | ⟨id, reply, -, htake⟩
  · rw [hgiven, harrived]
    exact h j
  · have hle := h j
    have hgiven := count_concat_if s.given id reply.object.isSome j
    have harrived := count_concat_if s.arrived id true j
    have hobject := Bool.toNat_le reply.object.isSome
    simp only [if_true, Bool.toNat_true] at harrived
    simp only [takeReply] at htake
    split at htake
    · cases htake
      simp only [hgiven, harrived]
      split <;> omega
    · cases htake

theorem Late.settles (h : s.Late) (hgiven : ∀ id, s.given.count id ≤ s.arrived.count id) :
    s.SettlesLate := by
  intro id
  have honce := (h.ok id).once
  have haccount := (h.ok id).account
  simp only [view] at honce haccount
  refine ⟨(hgiven id).trans honce, by omega, fun hrests => ?_⟩
  have hzero := hand_eq_zero hrests
  simp only [view] at hzero
  omega

/-- An answer's object is settled exactly once, in every order of the call's end and the answer's
arrival that takes no step `settlesLate` rules out. -/
theorem late_settles {acts : List CallsAct}
    (hrun : run (only (fun s a => s.settlesLate a = true) step) start acts = some s) :
    s.SettlesLate := by
  have hlate := (late_step.run ⟨fresh_start, late_start⟩ hrun).2
  have hgiven := (given_kept.only _).run (fun _ => Nat.le_refl _) hrun
  exact hlate.settles hgiven

/-- A call times out and is cancelled, and its answer comes late. -/
def answeredLate : List CallsAct :=
  [.begin (some ⟨true⟩), .queue 1, .send 1, .timeOut 1, .cancel 1, .reply 1 ⟨some (.senders 7)⟩,
    .retract 1, .read, .leave 1]

theorem late_settles_answeredLate : ∃ s,
    run (only (fun s a => s.settlesLate a = true) step) start answeredLate = some s ∧
      s.released = [1] ∧ s.SettlesLate := by
  obtain ⟨s, hrun⟩ : ∃ s, run (only (fun s a => s.settlesLate a = true) step) start answeredLate =
      some s := ⟨_, rfl⟩
  have hreleased : s.released = [1] := by
    cases hrun
    rfl
  exact ⟨s, hrun, hreleased, late_settles hrun⟩

/-- A reader finds a call waiting, whose waiter gives up before the answer is in its mailbox: the
mailbox goes with the answer in it, and its object is neither taken nor let go. -/
theorem late_lost : ∃ s,
    run step start
      [.begin (some ⟨true⟩), .queue 1, .send 1, .reply 1 ⟨some (.senders 7)⟩, .timeOut 1, .read,
        .cancel 1, .retract 1, .leave 1] = some s ∧
    s.link.alive = true ∧ s.link.cancelled.entries.length < cancelledMax ∧ s.rests 1 = true ∧
    1 ∈ s.given ∧ 1 ∉ s.taken ∧ 1 ∉ s.released ∧ ¬ s.SettlesLate := by
  obtain ⟨s, hrun⟩ : ∃ s, run step start
      [.begin (some ⟨true⟩), .queue 1, .send 1, .reply 1 ⟨some (.senders 7)⟩, .timeOut 1, .read,
        .cancel 1, .retract 1, .leave 1] = some s := ⟨_, rfl⟩
  have hlink : s.link.alive = true ∧ s.link.cancelled.entries.length < cancelledMax := by
    cases hrun
    decide
  have hrests : s.rests 1 = true := by
    cases hrun
    rfl
  have hgiven : s.given = [1] ∧ s.taken = [] ∧ s.released = [] := by
    cases hrun
    exact ⟨rfl, rfl, rfl⟩
  obtain ⟨hgiven, htaken, hreleased⟩ := hgiven
  refine ⟨s, hrun, hlink.1, hlink.2, hrests, ?_, ?_, ?_, fun h => ?_⟩
  · rw [hgiven]
    exact List.mem_singleton_self 1
  · rw [htaken]
    exact List.not_mem_nil
  · rw [hreleased]
    exact List.not_mem_nil
  · have hsettled := (h 1).2.2 hrests
    rw [hgiven, htaken, hreleased] at hsettled
    cases hsettled

end Calls

end Guatiao.Link
