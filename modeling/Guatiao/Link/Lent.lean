import Guatiao.Link.State
import Guatiao.Lib.Machine
import Mathlib.Logic.Function.Basic
import Mathlib.Data.List.Nodup

/-!
# Objects lent for a call

A call shares the objects it lends one inside the other, exports each, and takes each out
of the table again on its way back. Meanwhile the peer calls them, and may try to hand one
over or to give one back as if it were this side's to take. What an owned object holds is
left out here, and with it the calls on one.
-/

namespace Guatiao.Link

open Lib

/-- What an id was given to. -/
inductive Given (Obj : Type)
  | owned
  /-- An object lent for one of this side's calls. -/
  | lent (call : ℕ) (object : Obj)
  deriving DecidableEq

/-- How the table holds it. -/
def Given.entry {Obj : Type} : Given Obj → Export Unit
  | .owned => .owned
  | .lent _ _ => .lent ()

/-- Where a call's thread is in `lending`. -/
inductive LendAt
  | idle
  /-- At the next object to lend, or past the last. -/
  | lending
  /-- In `exchange`. -/
  | exchanging
  /-- Back from what ran while the innermost object was lent. -/
  | returning
  /-- In `share`, the object no longer exported; its lend ends when no call is inside it. -/
  | ending (id : ℕ)
  | done
  deriving DecidableEq

/-- One of this side's calls. -/
structure LendingCall (Obj : Type) where
  at_ : LendAt
  /-- The objects still to lend, the next first. -/
  lent : List Obj
  /-- The objects shared and exported, the innermost first. -/
  shared : List (ℕ × Obj)

/-- Whether the call is still to return: its answer has not come. -/
def LendingCall.lasts {Obj : Type} (call : LendingCall Obj) : Bool :=
  call.at_ = .lending ∨ call.at_ = .exchanging

/-- What names one of this side's objects as its own to take: a call's argument, an answer, or a
late answer. -/
inductive GivenBack
  | argument
  | answer
  | late
  deriving DecidableEq

/-- A link and the calls that lend over it, with what has come of each id. -/
structure Lending (Obj : Type) where
  link : State Unit Unit Unit
  /-- What the handle exported under an id leads to, until the lend ends. -/
  cell : ℕ → Option Obj
  calls : ℕ → LendingCall Obj
  nextCall : ℕ
  /-- The peer's calls that have found a lent object, by its id. -/
  looked : List ℕ
  /-- The peer's calls inside a lent object. -/
  inside : List ℕ
  given : ℕ → Option (Given Obj)
  /-- The ids under which an object was taken. -/
  taken : List ℕ
  /-- The ids that a RELEASE of the peer's took out of the table. -/
  released : List ℕ
  /-- The calls that reached a lent object. -/
  reached : List (ℕ × Obj)
  /-- The calls on an object found that were answered `GUATIAO_ERR_GONE`. -/
  gone : List ℕ

/-- What can happen. -/
inductive LendingAct (Obj : Type)
  /-- A call begins, with the objects it is to lend. -/
  | begin (lent : List Obj)
  /-- Its thread goes on. -/
  | next (call : ℕ)
  /-- The kind of the object it is to lend is not known on this link. -/
  | unknown (call : ℕ)
  /-- An object is handed over or answered. -/
  | own
  /-- A RELEASE of the peer's; or an object handed over in a call that was never sent. -/
  | unexport (id : ℕ)
  | letGo (id : ℕ)
  /-- A CALL on an object finds it. -/
  | look (id : ℕ)
  /-- That call is made, on the handle it found. -/
  | enter (id : ℕ)
  | leave (id : ℕ)
  | takeExport (by_ : GivenBack) (id : ℕ)
  /-- The link ends. -/
  | finish
  deriving DecidableEq

namespace Lending

variable {Obj : Type}

/-- A link that has just started. -/
def start : Lending Obj :=
  ⟨.new, fun _ => none, fun _ => ⟨.idle, [], []⟩, 0, [], [], fun _ => none, [], [], [], []⟩

/-- A call goes on. -/
def set (s : Lending Obj) (c : ℕ) (call : LendingCall Obj) : Lending Obj :=
  { s with calls := Function.update s.calls c call }

/-- `export`, noting what the id was given to. -/
def «export» (s : Lending Obj) (given : Given Obj) : Option (ℕ × Lending Obj) :=
  (s.link.export given.entry).map fun (id, link) =>
    (id, { s with link, given := Function.update s.given id (some given) })

def unexport (s : Lending Obj) (id : ℕ) : Lending Obj := { s with link := (s.link.unexport id).2 }

/-- `unexport` for the peer, noting what it lets go. -/
def release (s : Lending Obj) (id : ℕ) : Lending Obj :=
  { s.unexport id with
    released := if (s.link.unexport id).1.isSome then id :: s.released else s.released }

/-- `take_export`. What was exported leaves the table before it is told apart. -/
def takeExport (s : Lending Obj) (id : ℕ) : Lending Obj :=
  match s.link.unexport id with
  | (some .owned, link) => { s with link, taken := s.taken ++ [id] }
  | (_, link) => { s with link }

/-- Whether an id is that of an object lent for a call still to return, which no RELEASE has
named. -/
def lentNow (s : Lending Obj) (id : ℕ) : Bool :=
  match s.given id with
  | some (.lent c _) => (s.calls c).lasts && !decide (id ∈ s.released)
  | _ => false

/-- A call's thread goes on in `lending`. -/
def next (s : Lending Obj) (c : ℕ) : Option (Lending Obj) :=
  let call := s.calls c
  match call.at_, call.lent, call.shared with
  | .lending, [], _ => some (s.set c { call with at_ := .exchanging })
  | .lending, object :: lent, shared =>
    match s.export (.lent c object) with
    | none => some (s.set c { call with at_ := .returning })
    | some (id, s) =>
      some { s.set c { call with lent, shared := (id, object) :: shared } with
        cell := Function.update s.cell id (some object) }
  | .exchanging, _, _ => some (s.set c { call with at_ := .returning })
  | .returning, _, [] => some (s.set c { call with at_ := .done })
  | .returning, _, (id, _) :: shared =>
    some ((s.unexport id).set c { call with at_ := .ending id, shared })
  | .ending id, _, _ =>
    if id ∈ s.inside then none
    else
      some { s.set c { call with at_ := .returning } with cell := Function.update s.cell id none }
  | _, _, _ => none

def step (s : Lending Obj) : LendingAct Obj → Option (Lending Obj)
  | .begin lent =>
    some { s.set s.nextCall ⟨.lending, lent, []⟩ with nextCall := s.nextCall + 1 }
  | .next c => s.next c
  | .unknown c =>
    let call := s.calls c
    if call.at_ = .lending ∧ call.lent ≠ [] then some (s.set c { call with at_ := .returning })
    else none
  | .own => (s.export .owned).map Prod.snd
  | .unexport id => some (s.release id)
  | .letGo id => some { s with link := s.link.letGo id }
  | .look id =>
    match s.link.exports.get id with
    | some (.lent ()) => some { s with looked := id :: s.looked }
    | _ => none
  | .enter id =>
    if id ∈ s.looked then
      match s.cell id with
      | some object =>
        some { s with
          looked := s.looked.erase id
          inside := id :: s.inside
          reached := s.reached ++ [(id, object)] }
      | none => some { s with looked := s.looked.erase id, gone := s.gone ++ [id] }
    else none
  | .leave id => if id ∈ s.inside then some { s with inside := s.inside.erase id } else none
  | .takeExport _ id => some (s.takeExport id)
  | .finish => some { s with link := s.link.finish }

/-- An object lent is there exactly for the call it was lent for. -/
structure LentRight (s : Lending Obj) : Prop where
  /-- Until the call returns its id is exported, and a call on it reaches the object, unless a
  RELEASE has named it. -/
  there : s.link.alive → ∀ id c object, id ∉ s.released → s.given id = some (.lent c object) →
    (s.calls c).lasts → s.link.exports.get id = some (.lent ()) ∧ s.cell id = some object
  /-- Once it has returned, no call finds the object, and one that had found it is answered
  `GUATIAO_ERR_GONE`. -/
  gone : ∀ id c object, s.given id = some (.lent c object) → (s.calls c).at_ = .done →
    s.link.exports.get id = none ∧ s.cell id = none
  /-- It is never taken. -/
  refused : ∀ id ∈ s.taken, s.given id = some .owned

/-- What holds between any two steps. -/
structure Kempt (s : Lending Obj) : Prop where
  given_le : ∀ id g, s.given id = some g → id ≤ s.link.nextExport
  began : ∀ c, s.nextCall ≤ c → (s.calls c).at_ = .idle
  idle : ∀ c, (s.calls c).at_ = .idle →
    (s.calls c).shared = [] ∧ ∀ id object, s.given id ≠ some (.lent c object)
  /-- What a call has shared was given to it, and its handle leads to the object. -/
  shared : ∀ c p, p ∈ (s.calls c).shared → s.given p.1 = some (.lent c p.2) ∧ s.cell p.1 = some p.2
  /-- Nothing a call shared has ended before the call returns. -/
  lasts : ∀ id c object, s.given id = some (.lent c object) → (s.calls c).lasts →
    (id, object) ∈ (s.calls c).shared
  /-- What the table holds as lent is shared. -/
  table : ∀ id, s.link.exports.get id = some (.lent ()) →
    ∃ c object, (id, object) ∈ (s.calls c).shared
  owned : ∀ id, s.link.exports.get id = some .owned → s.given id = some .owned
  /-- Where a handle leads to an object, the lend has not ended. -/
  cell : ∀ id object, s.cell id = some object →
    ∃ c, s.given id = some (.lent c object) ∧
      ((id, object) ∈ (s.calls c).shared ∨ (s.calls c).at_ = .ending id)
  nodup : ∀ c, ((s.calls c).shared.map Prod.fst).Nodup
  ending : ∀ c id, (s.calls c).at_ = .ending id →
    id ∉ (s.calls c).shared.map Prod.fst ∧ ∃ object, s.given id = some (.lent c object)
  done : ∀ c, (s.calls c).at_ = .done → (s.calls c).shared = []
  taken : ∀ id ∈ s.taken, s.given id = some .owned

theorem kempt_start : Kempt (start : Lending Obj) where
  given_le := nofun
  began := fun _ _ => rfl
  idle := fun _ _ => ⟨rfl, nofun⟩
  shared := nofun
  lasts := nofun
  table := nofun
  owned := nofun
  cell := nofun
  nodup := fun _ => .nil
  ending := nofun
  done := nofun
  taken := nofun

variable {s s' : Lending Obj}

theorem Kempt.shrink (h : Kempt s) {link : State Unit Unit Unit} {taken released : List ℕ}
    (hnext : link.nextExport = s.link.nextExport)
    (hsub : ∀ id e, link.exports.get id = some e → s.link.exports.get id = some e)
    (htaken : ∀ id ∈ taken, s.given id = some .owned) : Kempt { s with link, taken, released } where
  given_le := fun id g hg => by
    rw [hnext]
    exact h.given_le id g hg
  began := h.began
  idle := h.idle
  shared := h.shared
  lasts := h.lasts
  table := fun id hid => h.table id (hsub id _ hid)
  owned := fun id hid => h.owned id (hsub id _ hid)
  cell := h.cell
  nodup := h.nodup
  ending := h.ending
  done := h.done
  taken := htaken

variable {id k c : ℕ} {e : Export Unit}

theorem get_unexport (hget : (s.link.unexport id).2.exports.get k = some e) :
    k ≠ id ∧ s.link.exports.get k = some e := by
  simp only [State.unexport, SortedMap.get_remove] at hget
  split at hget
  · cases hget
  · next hne => exact ⟨hne, hget⟩

theorem Kempt.unexport (h : Kempt s) (id : ℕ) : Kempt (s.unexport id) :=
  h.shrink rfl (fun _ _ hget => (get_unexport hget).2) h.taken

theorem Kempt.release (h : Kempt s) (id : ℕ) : Kempt (s.release id) :=
  h.shrink rfl (fun _ _ hget => (get_unexport hget).2) h.taken

theorem Kempt.peer (h : Kempt s) (looked inside gone : List ℕ) (reached : List (ℕ × Obj)) :
    Kempt { s with looked, inside, reached, gone } :=
  ⟨h.given_le, h.began, h.idle, h.shared, h.lasts, h.table, h.owned, h.cell, h.nodup, h.ending,
    h.done, h.taken⟩

theorem set_self (c : ℕ) (call : LendingCall Obj) : (s.set c call).calls c = call := by
  simp [set]

theorem set_of_ne {c' : ℕ} (hne : c' ≠ c) (call : LendingCall Obj) :
    (s.set c call).calls c' = s.calls c' := by
  simp [set, hne]

/-- What a call keeps to by itself, whatever the others do. -/
structure Keeps (given : ℕ → Option (Given Obj)) (cell : ℕ → Option Obj) (c : ℕ)
    (call : LendingCall Obj) : Prop where
  idle : call.at_ = .idle → call.shared = [] ∧ ∀ id object, given id ≠ some (.lent c object)
  shared : ∀ p ∈ call.shared, given p.1 = some (.lent c p.2) ∧ cell p.1 = some p.2
  lasts : ∀ id object, given id = some (.lent c object) → call.lasts → (id, object) ∈ call.shared
  nodup : (call.shared.map Prod.fst).Nodup
  ending : ∀ id, call.at_ = .ending id →
    id ∉ call.shared.map Prod.fst ∧ ∃ object, given id = some (.lent c object)
  done : call.at_ = .done → call.shared = []

theorem Kempt.keeps (h : Kempt s) (c : ℕ) : Keeps s.given s.cell c (s.calls c) :=
  ⟨h.idle c, h.shared c, fun id => h.lasts id c, h.nodup c, h.ending c, h.done c⟩

theorem Keeps.mono {given given' : ℕ → Option (Given Obj)} {cell cell' : ℕ → Option Obj}
    {call : LendingCall Obj} (h : Keeps given cell c call)
    (hgiven : ∀ id object, given' id = some (.lent c object) ↔ given id = some (.lent c object))
    (hcell : ∀ p ∈ call.shared, cell' p.1 = cell p.1) : Keeps given' cell' c call where
  idle hidle := ⟨(h.idle hidle).1, fun id object hid => (h.idle hidle).2 id object ((hgiven ..).mp hid)⟩
  shared p hp := ⟨(hgiven ..).mpr (h.shared p hp).1, (hcell p hp).trans (h.shared p hp).2⟩
  lasts id object hid := h.lasts id object ((hgiven ..).mp hid)
  nodup := h.nodup
  ending id hid := ⟨(h.ending id hid).1, (h.ending id hid).2.imp fun _ => (hgiven ..).mpr⟩
  done := h.done

/-- Whether a handle leads to an object through the call. -/
def Leads (call : LendingCall Obj) (id : ℕ) (object : Obj) : Prop :=
  (id, object) ∈ call.shared ∨ call.at_ = .ending id

/-- One call goes on: the others keep to what they did. -/
theorem Kempt.moved (h : Kempt s) {call : LendingCall Obj}
    (hcalls : s'.calls = Function.update s.calls c call) (hcall : Keeps s'.given s'.cell c call)
    (hothers : ∀ c', c' ≠ c → Keeps s'.given s'.cell c' (s.calls c'))
    (hle : ∀ id g, s'.given id = some g → id ≤ s'.link.nextExport)
    (hbegan : ∀ c', s'.nextCall ≤ c' → s.nextCall ≤ c' ∧ c' ≠ c)
    (htable : ∀ id, s'.link.exports.get id = some (.lent ()) →
      (∃ object, (id, object) ∈ call.shared) ∨ s.link.exports.get id = some (.lent ()) ∧
        ∀ object, (id, object) ∈ (s.calls c).shared → (id, object) ∈ call.shared)
    (howned : ∀ id, s'.link.exports.get id = some .owned → s'.given id = some .owned)
    (hcell : ∀ id object, s'.cell id = some object →
      (s'.given id = some (.lent c object) ∧ Leads call id object) ∨
        s.cell id = some object ∧ (∀ g, s.given id = some g → s'.given id = some g) ∧
          (Leads (s.calls c) id object → Leads call id object))
    (htaken : ∀ id ∈ s'.taken, s'.given id = some .owned) : Kempt s' := by
  have hself : s'.calls c = call := by rw [hcalls, Function.update_self]
  have hother : ∀ c', c' ≠ c → s'.calls c' = s.calls c' := fun c' hne => by
    rw [hcalls, Function.update_of_ne hne]
  have hkeeps : ∀ c', Keeps s'.given s'.cell c' (s'.calls c') := by
    intro c'
    by_cases hc : c' = c
    · rw [hc, hself]
      exact hcall
    · rw [hother c' hc]
      exact hothers c' hc
  refine ⟨hle, fun c' hc' => ?_, fun c' => (hkeeps c').idle, fun c' => (hkeeps c').shared,
    fun id c' => (hkeeps c').lasts id, fun id hid => ?_, howned, fun id object hid => ?_,
    fun c' => (hkeeps c').nodup, fun c' => (hkeeps c').ending, fun c' => (hkeeps c').done, htaken⟩
  · obtain ⟨hlater, hne⟩ := hbegan c' hc'
    rw [hother c' hne]
    exact h.began c' hlater
  · rcases htable id hid with ⟨object, hin⟩ | ⟨hold, hstays⟩
    · exact ⟨c, object, by rwa [hself]⟩
    · obtain ⟨c', object, hin⟩ := h.table id hold
      refine ⟨c', object, ?_⟩
      by_cases hc : c' = c
      · rw [hc, hself]
        exact hstays object (hc ▸ hin)
      · rwa [hother c' hc]
  · rcases hcell id object hid with ⟨hgiven, hleads⟩ | ⟨hold, hgiven, hleads⟩
    · exact ⟨c, hgiven, by rwa [hself]⟩
    · obtain ⟨c', hid, hleads'⟩ := h.cell id object hold
      refine ⟨c', hgiven _ hid, ?_⟩
      by_cases hc : c' = c
      · rw [hc, hself]
        exact hleads (hc ▸ hleads')
      · rwa [hother c' hc]

theorem Kempt.ne_of_began (h : Kempt s) (hbegun : (s.calls c).at_ ≠ .idle) (c' : ℕ)
    (hc' : s.nextCall ≤ c') : s.nextCall ≤ c' ∧ c' ≠ c :=
  ⟨hc', fun heq => hbegun (h.began c (heq ▸ hc'))⟩

/-- A call goes on by itself, with what it shares. -/
structure GoesOn (before call : LendingCall Obj) : Prop where
  shared : call.shared = before.shared
  idle : call.at_ ≠ .idle
  begun : before.at_ ≠ .idle
  lasts : call.lasts → before.lasts
  stays : ∀ id, call.at_ = .ending id ↔ before.at_ = .ending id
  done : call.at_ = .done → call.shared = []

theorem Kempt.goOn (h : Kempt s) {call : LendingCall Obj} (hgoes : GoesOn (s.calls c) call) :
    Kempt (s.set c call) := by
  have hkeeps := h.keeps c
  have hshared := hgoes.shared
  refine h.moved rfl ?_ (fun c' _ => h.keeps c') h.given_le (h.ne_of_began hgoes.begun)
    (fun id hid => .inr ⟨hid, fun object hin => hshared ▸ hin⟩) h.owned
    (fun id object hid => .inr ⟨hid, fun _ hg => hg, fun hleads => ?_⟩) h.taken
  · exact ⟨fun heq => absurd heq hgoes.idle, hshared ▸ hkeeps.shared,
      fun id object hid hcall => hshared ▸ hkeeps.lasts id object hid (hgoes.lasts hcall),
      hshared ▸ hkeeps.nodup, fun id hid => hshared ▸ hkeeps.ending id ((hgoes.stays id).mp hid),
      hgoes.done⟩
  · rwa [Leads, hshared, hgoes.stays]

theorem Kempt.begin (h : Kempt s) (lent : List Obj) :
    Kempt { s.set s.nextCall ⟨.lending, lent, []⟩ with nextCall := s.nextCall + 1 } := by
  have hidle := h.began s.nextCall le_rfl
  obtain ⟨hnone, hnot⟩ := h.idle s.nextCall hidle
  refine h.moved rfl ?_ (fun c' _ => h.keeps c') h.given_le (fun c' hc' => ?_)
    (fun id hid => .inr ⟨hid, fun object hin => by rwa [hnone] at hin⟩) h.owned
    (fun id object hid => .inr ⟨hid, fun _ hg => hg, fun hleads => ?_⟩) h.taken
  · exact ⟨nofun, nofun, fun id object hid => absurd hid (hnot id object), .nil, nofun, nofun⟩
  · have hlater : s.nextCall + 1 ≤ c' := hc'
    omega
  · rw [Leads, hnone, hidle] at hleads
    rcases hleads with hin | hat <;> contradiction

theorem export_eq_some {given : Given Obj} (hexport : s.export given = some (id, s')) :
    id = s.link.nextExport + 1 ∧ s'.given = Function.update s.given id (some given) ∧
      s'.link.nextExport = s.link.nextExport + 1 ∧ s'.link.alive = s.link.alive ∧
      (∀ k, s'.link.exports.get k =
        if k = id then some given.entry else s.link.exports.get k) ∧
      s' = { s with link := s'.link, given := s'.given } := by
  obtain ⟨⟨k, link⟩, hlink, heq⟩ := Option.map_eq_some_iff.mp hexport
  simp only [State.export, Option.ite_none_right_eq_some, Option.some.injEq, Prod.mk.injEq] at hlink
  obtain ⟨-, rfl, rfl⟩ := hlink
  simp only [Prod.mk.injEq] at heq
  obtain ⟨rfl, rfl⟩ := heq
  exact ⟨rfl, rfl, rfl, rfl, fun k => SortedMap.get_insert .., rfl⟩

theorem Kempt.given_next (h : Kempt s) : s.given (s.link.nextExport + 1) = none := by
  by_contra hsome
  obtain ⟨g, hg⟩ := Option.ne_none_iff_exists'.mp hsome
  have := h.given_le _ g hg
  omega

theorem Kempt.given_export (h : Kempt s) {given : Given Obj} (hexport : s.export given = some (id, s')) :
    s.given id = none ∧ s'.given id = some given ∧ (∀ k, k ≠ id → s'.given k = s.given k) ∧
      ∀ k g, s'.given k = some g → k ≤ s'.link.nextExport := by
  obtain ⟨rfl, hgiven, hnext, -, -, -⟩ := export_eq_some hexport
  have hother : ∀ k, k ≠ s.link.nextExport + 1 → s'.given k = s.given k := fun k hne => by
    rw [hgiven, Function.update_of_ne hne]
  refine ⟨h.given_next, by rw [hgiven, Function.update_self], hother, fun k g hk => ?_⟩
  by_cases hne : k = s.link.nextExport + 1
  · omega
  · have hle := h.given_le k g (hother k hne ▸ hk)
    omega

theorem Kempt.own (h : Kempt s) (hexport : s.export .owned = some (id, s')) : Kempt s' := by
  obtain ⟨hnone, hself, hother, hle⟩ := h.given_export hexport
  obtain ⟨-, -, -, -, hget, heq⟩ := export_eq_some hexport
  have hcell : s'.cell = s.cell := by rw [heq]
  have hkeep : ∀ k g, s.given k = some g → s'.given k = some g := fun k g hk => by
    rwa [hother k fun hid => by rw [hid, hnone] at hk; cases hk]
  have hkeeps : ∀ c, Keeps s'.given s'.cell c (s.calls c) := fun c => by
    refine (h.keeps c).mono (fun k object => ⟨fun hk => ?_, hkeep k _⟩) fun p _ => by rw [hcell]
    rwa [← hother k fun hid => by rw [hid, hself] at hk; cases hk]
  have hcalls : s'.calls = s.calls := by rw [heq]
  refine ⟨hle, by rw [heq]; exact h.began, fun c => hcalls ▸ (hkeeps c).idle, fun c => hcalls ▸ (hkeeps c).shared,
    fun k c => hcalls ▸ (hkeeps c).lasts k, fun k hk => ?_, fun k hk => ?_, fun k object hk => ?_,
    fun c => hcalls ▸ (hkeeps c).nodup, fun c => hcalls ▸ (hkeeps c).ending, fun c => hcalls ▸ (hkeeps c).done,
    fun k hk => ?_⟩
  · rw [hget] at hk
    split at hk
    · cases hk
    · exact hcalls ▸ h.table k hk
  · rw [hget] at hk
    split at hk
    · next hid => exact hid ▸ hself
    · exact hkeep k _ (h.owned k hk)
  · obtain ⟨c, hc, hmem⟩ := h.cell k object (hcell ▸ hk)
    exact ⟨c, hkeep k _ hc, hcalls ▸ hmem⟩
  · rw [heq] at hk
    exact hkeep k _ (h.taken k hk)

/-- The next object of a call is shared and exported. -/
theorem Kempt.lend (h : Kempt s) {object : Obj} (lent : List Obj)
    (hat : (s.calls c).at_ = .lending) (hexport : s.export (.lent c object) = some (id, s')) :
    Kempt { s'.set c { s.calls c with lent, shared := (id, object) :: (s.calls c).shared } with
      cell := Function.update s'.cell id (some object) } := by
  obtain ⟨hnone, hself, hother, hle⟩ := h.given_export hexport
  obtain ⟨-, -, -, -, hget, heq⟩ := export_eq_some hexport
  have hcell : s'.cell = s.cell := by rw [heq]
  have hkeep : ∀ k g, s.given k = some g → k ≠ id ∧ s'.given k = some g := fun k g hk => by
    have hne : k ≠ id := fun hid => by
      rw [hid, hnone] at hk
      cases hk
    exact ⟨hne, by rwa [hother k hne]⟩
  have hcells : ∀ c', ∀ p ∈ (s.calls c').shared,
      p.1 ≠ id ∧ Function.update s'.cell id (some object) p.1 = s.cell p.1 := fun c' p hp => by
    have hne := (hkeep p.1 _ (h.shared c' p hp).1).1
    exact ⟨hne, by rw [Function.update_of_ne hne, hcell]⟩
  have hkeeps := h.keeps c
  refine h.moved (c := c) (by rw [heq]; rfl) ⟨?_, ?_, ?_, ?_, ?_, ?_⟩ (fun c' hne => ?_) hle ?_
    (fun k hk => ?_) (fun k hk => ?_) (fun k object' hk => ?_) fun k hk => (hkeep k _ (h.taken k ?_)).2
  · simp [hat]
  · rintro p (_ | ⟨_, hp⟩)
    · exact ⟨hself, Function.update_self ..⟩
    · exact ⟨(hkeep _ _ (hkeeps.shared p hp).1).2, (hcells c p hp).2.trans (hkeeps.shared p hp).2⟩
  · intro k object' hk _
    by_cases hid : k = id
    · subst hid
      cases hself.symm.trans hk
      exact List.mem_cons_self
    · refine List.mem_cons_of_mem _ (hkeeps.lasts k object' ?_ (by simp [LendingCall.lasts, hat]))
      rwa [← hother k hid]
  · refine List.nodup_cons.mpr ⟨fun hmem => ?_, hkeeps.nodup⟩
    obtain ⟨p, hp, hp'⟩ := List.mem_map.mp hmem
    exact (hcells c p hp).1 hp'
  · simp [hat]
  · simp [hat]
  · refine (h.keeps c').mono (fun k object' => ⟨fun hk => ?_, fun hk => (hkeep k _ hk).2⟩)
      fun p hp => (hcells c' p hp).2
    rwa [← hother k fun hid => ?_]
    subst hid
    cases hself.symm.trans hk
    exact hne rfl
  · rw [heq]
    exact h.ne_of_began (by simp [hat])
  · replace hk := (hget k).symm.trans hk
    split at hk
    · next hid => exact .inl ⟨object, hid ▸ List.mem_cons_self⟩
    · exact .inr ⟨hk, fun _ => List.mem_cons_of_mem _⟩
  · replace hk := (hget k).symm.trans hk
    split at hk
    · cases hk
    · exact (hkeep k _ (h.owned k hk)).2
  · by_cases hid : k = id
    · subst hid
      cases (Function.update_self ..).symm.trans hk
      exact .inl ⟨hself, .inl List.mem_cons_self⟩
    · refine .inr ⟨?_, fun g hg => (hkeep k g hg).2, .imp (List.mem_cons_of_mem _) fun heq => ?_⟩
      · rw [← hcell]
        exact (Function.update_of_ne hid ..).symm.trans hk
      · rw [hat] at heq
        cases heq
  · rw [heq] at hk
    exact hk

theorem Kempt.back (h : Kempt s) {object : Obj} {shared : List (ℕ × Obj)}
    (hat : (s.calls c).at_ = .returning) (hshared : (s.calls c).shared = (id, object) :: shared) :
    Kempt ((s.unexport id).set c { s.calls c with at_ := .ending id, shared }) := by
  have hkeeps := h.keeps c
  obtain ⟨hgiven, -⟩ := hkeeps.shared (id, object) (hshared ▸ List.mem_cons_self)
  have hnodup := hkeeps.nodup
  rw [hshared, List.map_cons, List.nodup_cons] at hnodup
  refine @Kempt.moved _ s ((s.unexport id).set c _) c h _ rfl ⟨nofun, fun p hp => ?_, ?_, hnodup.2, ?_, nofun⟩
    (fun c' _ => h.keeps c') h.given_le (h.ne_of_began (by simp [hat])) (fun k hk => ?_)
    (fun k hk => h.owned k (get_unexport hk).2) (fun k object' hk => ?_) h.taken
  · exact hkeeps.shared p (hshared ▸ List.mem_cons_of_mem _ hp)
  · exact fun _ _ _ hlasts => by simp [LendingCall.lasts] at hlasts
  · intro k hk
    obtain rfl : id = k := LendAt.ending.inj hk
    exact ⟨hnodup.1, object, hgiven⟩
  · obtain ⟨hne, hk⟩ := get_unexport hk
    refine .inr ⟨hk, fun object' hin => ?_⟩
    rw [hshared] at hin
    exact (List.mem_cons.mp hin).resolve_left fun heq => hne (congrArg Prod.fst heq)
  · refine .inr ⟨hk, fun _ hg => hg, ?_⟩
    rw [Leads, hshared, hat]
    rintro (hin | hin)
    · rcases List.mem_cons.mp hin with heq | hin
      · exact .inr (congrArg LendAt.ending (congrArg Prod.fst heq).symm)
      · exact .inl hin
    · cases hin

theorem Kempt.ended (h : Kempt s) (hat : (s.calls c).at_ = .ending id) :
    Kempt { s.set c { s.calls c with at_ := .returning } with
      cell := Function.update s.cell id none } := by
  have hkeeps := h.keeps c
  obtain ⟨hnot, object, hgiven⟩ := hkeeps.ending id hat
  have hcells : ∀ c', ∀ p ∈ (s.calls c').shared, Function.update s.cell id none p.1 = s.cell p.1 := by
    refine fun c' p hp => Function.update_of_ne (fun heq => hnot ?_) ..
    have hk := (h.shared c' p hp).1
    rw [heq, hgiven, Option.some.injEq, Given.lent.injEq] at hk
    rw [hk.1, ← heq]
    exact List.mem_map_of_mem hp
  refine h.moved (c := c) rfl ⟨nofun, fun p hp => ?_, ?_, hkeeps.nodup, nofun, nofun⟩
    (fun c' _ => (h.keeps c').mono (fun _ _ => .rfl) (hcells c')) h.given_le (h.ne_of_began (by simp [hat]))
    (fun k hk => .inr ⟨hk, fun _ hin => hin⟩) h.owned (fun k object' hk => ?_) h.taken
  · exact ⟨(hkeeps.shared p hp).1, (hcells c p hp).trans (hkeeps.shared p hp).2⟩
  · exact fun _ _ _ hlasts => by simp [LendingCall.lasts] at hlasts
  · by_cases hid : k = id
    · subst hid
      cases hk.symm.trans (Function.update_self ..)
    · refine .inr ⟨(Function.update_of_ne hid ..).symm.trans hk, fun _ hg => hg, .imp_right fun heq => ?_⟩
      rw [hat] at heq
      cases heq
      exact absurd rfl hid

theorem Kempt.takeExport (h : Kempt s) (id : ℕ) : Kempt (s.takeExport id) := by
  have hleft := h.unexport id
  unfold Lending.takeExport
  cases he : s.link.exports.get id with
  | none =>
    simp only [State.unexport, he]
    exact hleft
  | some e =>
    cases e with
    | lent handle =>
      simp only [State.unexport, he]
      exact hleft
    | owned =>
      simp only [State.unexport, he]
      refine h.shrink rfl (fun _ _ hget => (get_unexport hget).2) fun k hk => ?_
      rcases List.mem_append.mp hk with hk | hk
      · exact h.taken k hk
      · rw [List.mem_singleton.mp hk]
        exact h.owned id he

theorem get_letGo (hget : (s.link.letGo id).exports.get k = some e) :
    s.link.exports.get k = some e := by
  unfold State.letGo at hget
  split at hget
  · exact (get_unexport hget).2
  · exact hget

theorem get_finish (hget : s.link.finish.exports.get k = some e) :
    s.link.exports.get k = some e := by
  unfold State.finish at hget
  split at hget
  · cases hget
  · exact hget

theorem nextExport_letGo (id : ℕ) : (s.link.letGo id).nextExport = s.link.nextExport := by
  unfold State.letGo
  split <;> rfl

theorem nextExport_finish : s.link.finish.nextExport = s.link.nextExport := by
  unfold State.finish
  split <;> rfl

/-- Where a call's thread goes next. -/
inductive Next (s : Lending Obj) (c : ℕ) : Lending Obj → Prop
  | goOn {call : LendingCall Obj} (hgoes : GoesOn (s.calls c) call) : Next s c (s.set c call)
  | lend {id : ℕ} {object : Obj} {lent : List Obj} {s' : Lending Obj}
      (hat : (s.calls c).at_ = .lending) (hlent : (s.calls c).lent = object :: lent)
      (hexport : s.export (.lent c object) = some (id, s')) :
      Next s c { s'.set c { s.calls c with lent, shared := (id, object) :: (s.calls c).shared } with
        cell := Function.update s'.cell id (some object) }
  | back {id : ℕ} {object : Obj} {shared : List (ℕ × Obj)} (hat : (s.calls c).at_ = .returning)
      (hshared : (s.calls c).shared = (id, object) :: shared) :
      Next s c ((s.unexport id).set c { s.calls c with at_ := .ending id, shared })
  | ended {id : ℕ} (hat : (s.calls c).at_ = .ending id) (hout : id ∉ s.inside) :
      Next s c { s.set c { s.calls c with at_ := .returning } with
        cell := Function.update s.cell id none }

theorem next_cases (hnext : s.next c = some s') : Next s c s' := by
  unfold Lending.next at hnext
  cases hat : (s.calls c).at_ with
  | lending =>
    cases hlent : (s.calls c).lent with
    | nil =>
      simp only [hat, hlent, Option.some.injEq] at hnext
      rw [← hnext]
      exact .goOn ⟨rfl, by simp, by simp [hat], by simp [LendingCall.lasts, hat], by simp [hat], by simp⟩
    | cons object lent =>
      simp only [hat, hlent] at hnext
      cases hexport : s.export (.lent c object) with
      | none =>
        simp only [hexport, Option.some.injEq] at hnext
        rw [← hnext]
        exact .goOn ⟨rfl, by simp, by simp [hat], by simp [LendingCall.lasts], by simp [hat], by simp⟩
      | some p =>
        simp only [hexport, Option.some.injEq] at hnext
        rw [← hnext]
        simpa only [hat] using Next.lend hat hlent hexport
  | exchanging =>
    simp only [hat, Option.some.injEq] at hnext
    rw [← hnext]
    exact .goOn ⟨rfl, by simp, by simp [hat], by simp [LendingCall.lasts], by simp [hat], by simp⟩
  | returning =>
    cases hshared : (s.calls c).shared with
    | nil =>
      simp only [hat, hshared, Option.some.injEq] at hnext
      rw [← hnext]
      exact .goOn ⟨hshared.symm, by simp, by simp [hat], by simp [LendingCall.lasts], by simp [hat],
        by simp⟩
    | cons p shared =>
      simp only [hat, hshared, Option.some.injEq] at hnext
      rw [← hnext]
      exact .back hat hshared
  | ending id =>
    simp only [hat, Option.ite_none_left_eq_some, Option.some.injEq] at hnext
    rw [← hnext.2]
    exact .ended hat hnext.1
  | idle =>
    simp only [hat] at hnext
    cases hnext
  | done =>
    simp only [hat] at hnext
    cases hnext

/-- A call's thread keeps it. -/
theorem Kempt.next (h : Kempt s) (hnext : s.next c = some s') : Kempt s' := by
  cases next_cases hnext with
  | goOn hgoes => exact h.goOn hgoes
  | lend hat _ hexport => exact h.lend _ hat hexport
  | back hat hshared => exact h.back hat hshared
  | ended hat => exact h.ended hat

theorem kempt_step : Kept step fun s : Lending Obj => Kempt s := by
  intro s act s' h hstep
  cases act with
  | begin lent =>
    rw [← Option.some.inj hstep]
    exact h.begin lent
  | next c => exact h.next hstep
  | unknown c =>
    simp only [step, Option.ite_none_right_eq_some, Option.some.injEq] at hstep
    obtain ⟨⟨hat, -⟩, hstep⟩ := hstep
    rw [← hstep]
    exact h.goOn ⟨rfl, by simp, by simp [hat], by simp [LendingCall.lasts], by simp [hat], by simp⟩
  | own =>
    obtain ⟨⟨id, s''⟩, hexport, rfl⟩ := Option.map_eq_some_iff.mp hstep
    exact h.own hexport
  | unexport id =>
    rw [← Option.some.inj hstep]
    exact h.release id
  | letGo id =>
    rw [← Option.some.inj hstep]
    exact h.shrink (nextExport_letGo id) (fun _ _ => get_letGo) h.taken
  | look id =>
    simp only [step] at hstep
    split at hstep
    · rw [← Option.some.inj hstep]
      exact h.peer ..
    · cases hstep
  | enter id =>
    simp only [step, Option.ite_none_right_eq_some] at hstep
    obtain ⟨-, hstep⟩ := hstep
    split at hstep
    · rw [← Option.some.inj hstep]
      exact h.peer ..
    · rw [← Option.some.inj hstep]
      exact h.peer ..
  | leave id =>
    simp only [step, Option.ite_none_right_eq_some, Option.some.injEq] at hstep
    rw [← hstep.2]
    exact h.peer ..
  | takeExport by_ id =>
    rw [← Option.some.inj hstep]
    exact h.takeExport id
  | finish =>
    rw [← Option.some.inj hstep]
    exact h.shrink nextExport_finish (fun _ _ => get_finish) h.taken

/-- While a call lasts, what it lent is exported, but for what a RELEASE has named. -/
def There (s : Lending Obj) : Prop :=
  s.link.alive → ∀ id c object, id ∉ s.released → s.given id = some (.lent c object) →
    (s.calls c).lasts → s.link.exports.get id = some (.lent ())

theorem Kempt.right_iff (h : Kempt s) : LentRight s ↔ There s := by
  constructor
  · intro hright halive id c object hkept hgiven hlasts
    exact (hright.there halive id c object hkept hgiven hlasts).1
  · intro hthere
    refine ⟨fun halive id c object hkept hgiven hlasts => ?_, fun id c object hgiven hdone => ⟨?_, ?_⟩,
      h.taken⟩
    · have hmem := h.lasts id c object hgiven hlasts
      exact ⟨hthere halive id c object hkept hgiven hlasts, (h.shared c _ hmem).2⟩
    · cases hget : s.link.exports.get id with
      | none => rfl
      | some e =>
        cases e with
        | owned =>
          have howned := h.owned id hget
          rw [hgiven] at howned
          cases howned
        | lent handle =>
          obtain ⟨c', object', hmem⟩ := h.table id hget
          have hgiven' := (h.shared c' _ hmem).1
          rw [hgiven, Option.some.injEq, Given.lent.injEq] at hgiven'
          rw [← hgiven'.1, h.done c hdone] at hmem
          cases hmem
    · cases hcell : s.cell id with
      | none => rfl
      | some object' =>
        obtain ⟨c', hgiven', hmem⟩ := h.cell id object' hcell
        rw [hgiven, Option.some.injEq, Given.lent.injEq] at hgiven'
        rw [← hgiven'.1, h.done c hdone, hdone] at hmem
        rcases hmem with hmem | hmem <;> cases hmem

theorem lentNow_iff :
    s.lentNow id ↔ id ∉ s.released ∧
      ∃ c object, s.given id = some (.lent c object) ∧ (s.calls c).lasts := by
  unfold lentNow
  split
  · next c object hgiven =>
    rw [Bool.and_eq_true, Bool.not_eq_true', decide_eq_false_iff_not, and_comm]
    refine and_congr_right fun _ => ?_
    constructor
    · exact fun hlasts => ⟨c, object, hgiven, hlasts⟩
    · rintro ⟨c', object', hgiven', hlasts⟩
      rw [hgiven, Option.some.injEq, Given.lent.injEq] at hgiven'
      rwa [hgiven'.1]
  · next hnot =>
    constructor
    · intro hfalse
      cases hfalse
    · rintro ⟨-, c, object, hgiven, -⟩
      exact absurd hgiven (hnot c object)

/-- Nothing is lost where no call is lent more, and what is lent now stays in the table. -/
theorem There.mono (h : There s) (halive : s'.link.alive → s.link.alive)
    (hreleased : s'.released = s.released)
    (hlent : ∀ id c object, s'.given id = some (.lent c object) → (s'.calls c).lasts →
      s.given id = some (.lent c object) ∧ (s.calls c).lasts)
    (hget : ∀ id, s.lentNow id → s.link.exports.get id = some (.lent ()) →
      s'.link.exports.get id = some (.lent ())) : There s' := by
  intro halive' id c object hkept hgiven' hlasts'
  rw [hreleased] at hkept
  obtain ⟨hgiven, hlasts⟩ := hlent id c object hgiven' hlasts'
  apply hget id (lentNow_iff.mpr ⟨hkept, c, object, hgiven, hlasts⟩)
  exact h (halive halive') id c object hkept hgiven hlasts

theorem There.goOn (h : There s) {call : LendingCall Obj}
    (hlasts : call.lasts → (s.calls c).lasts) : There (s.set c call) := by
  refine h.mono (fun halive => halive) rfl (fun id c' object hgiven hc' => ⟨hgiven, ?_⟩)
    (fun _ _ hget => hget)
  by_cases hne : c' = c
  · rw [hne, set_self] at hc'
    rw [hne]
    exact hlasts hc'
  · rwa [set_of_ne hne] at hc'

theorem get_unexport_of_ne (hne : k ≠ id) :
    (s.unexport id).link.exports.get k = s.link.exports.get k :=
  SortedMap.get_remove_of_ne hne s.link.exports

theorem There.unexport (h : There s) (hid : s.lentNow id = false) :
    There (s.unexport id) := by
  refine h.mono (fun halive => halive) rfl (fun _ _ _ hgiven hlasts => ⟨hgiven, hlasts⟩)
    fun k hk hget => ?_
  rw [get_unexport_of_ne, hget]
  rintro rfl
  rw [hid] at hk
  cases hk

theorem There.release (h : There s) (id : ℕ) : There (s.release id) := by
  intro halive k c object hkept hgiven hlasts
  have hnew : (s.link.exports.get id).isSome → k ≠ id := by
    rintro hsome rfl
    exact hkept (by simp [Lending.release, State.unexport, hsome])
  have hold : k ∉ s.released := by
    intro hmem
    apply hkept
    unfold Lending.release
    dsimp only
    split
    · exact List.mem_cons_of_mem _ hmem
    · exact hmem
  have hget := h halive k c object hold hgiven hlasts
  have hne : k ≠ id := by
    rintro rfl
    exact hnew (by rw [hget]; rfl) rfl
  exact (get_unexport_of_ne hne).trans hget

theorem There.export (h : There s) {given : Given Obj}
    (hexport : s.export given = some (id, s')) : There s' := by
  obtain ⟨hid, hgiven, -, halive, hget, heq⟩ := export_eq_some hexport
  have hcalls : s'.calls = s.calls := by rw [heq]
  have hreleased : s'.released = s.released := by rw [heq]
  intro halive' k c object hkept hk hlasts
  rw [hget]
  by_cases hne : k = id
  · rw [hne, hgiven, Function.update_self, Option.some.injEq] at hk
    rw [if_pos hne, hk]
    rfl
  · rw [hgiven, Function.update_of_ne hne] at hk
    rw [if_neg hne]
    exact h (halive ▸ halive') k c object (hreleased ▸ hkept) hk (hcalls ▸ hlasts)

theorem There.next (h : There s) (hkempt : Kempt s) (hnext : s.next c = some s') :
    There s' := by
  cases next_cases hnext with
  | goOn hgoes => exact h.goOn hgoes.lasts
  | lend hat _ hexport =>
    have hcalls := congrArg calls (export_eq_some hexport).2.2.2.2.2
    exact (h.export hexport).goOn fun _ => hcalls ▸ by simp [LendingCall.lasts, hat]
  | @back id object _ hat hshared =>
    have hgiven := (hkempt.shared c (id, object) (hshared ▸ List.mem_cons_self)).1
    have hnot : s.lentNow id = false := by
      rw [lentNow, hgiven]
      simp [LendingCall.lasts, hat]
    exact (h.unexport hnot).goOn fun hlasts => by simp [LendingCall.lasts] at hlasts
  | ended =>
    exact (h.goOn fun hlasts => by simp [LendingCall.lasts] at hlasts :
      There (s.set c { s.calls c with at_ := .returning }))

/-- Whether a step is other than one that takes an object lent for a call still to return, which no
RELEASE has named. -/
def spares (s : Lending Obj) : LendingAct Obj → Bool
  | .takeExport _ id => !(s.link.alive && s.lentNow id)
  | _ => true

theorem link_takeExport (id : ℕ) : (s.takeExport id).link = (s.unexport id).link := by
  unfold takeExport
  split
  · next hlink => exact (congrArg Prod.snd hlink).symm
  · next hlink => exact (congrArg Prod.snd hlink).symm

theorem takeExport_eq (id : ℕ) :
    s.takeExport id =
      { s with link := (s.unexport id).link, taken := (s.takeExport id).taken } := by
  rw [← link_takeExport]
  unfold takeExport
  split <;> rfl

/-- An object is taken, or refused: either way it leaves the table, and what was lent is lost exactly
where it was that. -/
theorem There.takeExport_iff (h : There s) :
    There (s.takeExport id) ↔ ¬ (s.link.alive ∧ s.lentNow id) := by
  constructor
  · rintro hthere ⟨halive, hlent⟩
    obtain ⟨hkept, c, object, hgiven, hlasts⟩ := lentNow_iff.mp hlent
    rw [takeExport_eq] at hthere
    have hget := hthere halive id c object hkept hgiven hlasts
    exact (get_unexport hget).1 rfl
  · intro hnot
    rw [takeExport_eq]
    by_cases halive : s.link.alive
    · have hid : s.lentNow id = false := by
        by_contra hlent
        exact hnot ⟨halive, by simpa using hlent⟩
      exact (h.unexport hid : There (s.unexport id))
    · exact fun halive' => absurd halive' halive

/-- A step loses what is lent exactly where it takes it. -/
theorem There.step_iff (h : There s) (hkempt : Kempt s) {act : LendingAct Obj}
    (hstep : step s act = some s') : There s' ↔ s.spares act := by
  cases act with
  | takeExport by_ id =>
    rw [← Option.some.inj hstep, h.takeExport_iff]
    simp [spares, imp_iff_not_or]
  | begin lent =>
    rw [← Option.some.inj hstep]
    refine iff_of_true ?_ rfl
    refine h.mono (fun halive => halive) rfl (fun id c object hgiven hc => ⟨hgiven, ?_⟩)
      (fun _ _ hget => hget)
    change ((s.set _ _).calls c).lasts = _ at hc
    by_cases hne : c = s.nextCall
    · rw [hne] at hgiven
      exact absurd hgiven ((hkempt.idle _ (hkempt.began _ le_rfl)).2 id object)
    · rwa [set_of_ne hne] at hc
  | next c => exact iff_of_true (h.next hkempt hstep) rfl
  | unknown c =>
    simp only [step, Option.ite_none_right_eq_some, Option.some.injEq] at hstep
    rw [← hstep.2]
    exact iff_of_true (h.goOn fun hlasts => by simp [LendingCall.lasts] at hlasts) rfl
  | own =>
    obtain ⟨⟨id, s''⟩, hexport, rfl⟩ := Option.map_eq_some_iff.mp hstep
    exact iff_of_true (h.export hexport) rfl
  | unexport id =>
    rw [← Option.some.inj hstep]
    exact iff_of_true (h.release id) rfl
  | letGo id =>
    rw [← Option.some.inj hstep]
    refine iff_of_true (h.mono ?_ rfl (fun _ _ _ hgiven hlasts => ⟨hgiven, hlasts⟩)
      fun k hk hget => ?_) rfl
    · intro halive
      unfold State.letGo at halive
      split at halive
      · exact halive
      · exact halive
    · change (s.link.letGo id).exports.get k = _
      unfold State.letGo
      split
      · next howned =>
        have hne : k ≠ id := by
          rintro rfl
          rw [hget] at howned
          cases howned
        rw [State.unexport, SortedMap.get_remove_of_ne hne, hget]
      · exact hget
  | look id =>
    simp only [step] at hstep
    split at hstep
    · rw [← Option.some.inj hstep]
      exact iff_of_true h rfl
    · cases hstep
  | enter id =>
    simp only [step, Option.ite_none_right_eq_some] at hstep
    obtain ⟨-, hstep⟩ := hstep
    split at hstep
    · rw [← Option.some.inj hstep]
      exact iff_of_true h rfl
    · rw [← Option.some.inj hstep]
      exact iff_of_true h rfl
  | leave id =>
    simp only [step, Option.ite_none_right_eq_some, Option.some.injEq] at hstep
    rw [← hstep.2]
    exact iff_of_true h rfl
  | finish =>
    rw [← Option.some.inj hstep]
    refine iff_of_true (fun halive => ?_) rfl
    change s.link.finish.alive = _ at halive
    unfold State.finish at halive
    split at halive
    · cases halive
    · next hdead => exact absurd halive hdead

/-- In a run, an object is there exactly for the call it was lent for, unless a RELEASE names it, as
long as nothing of the peer's hands it over, or gives it back, while it is lent. -/
theorem lentRight_iff {acts : List (LendingAct Obj)} (h : run step start acts = some s) :
    (∀ before after m, acts = before ++ after → run step start before = some m → LentRight m) ↔
      run (only (fun s act => s.spares act = true) step) start acts = some s := by
  have hthere : There (start : Lending Obj) := by
    intro _ id c object _ hgiven
    cases hgiven
  rw [← all_prefixes_iff (P := fun s => Kempt s ∧ There s)
    (fun s act s' hs hstep => ?_) ⟨kempt_start, hthere⟩ h]
  · constructor
    · intro hall before after m hacts hbefore
      have hkempt := kempt_step.run kempt_start hbefore
      exact ⟨hkempt, hkempt.right_iff.mp (hall before after m hacts hbefore)⟩
    · intro hall before after m hacts hbefore
      obtain ⟨hkempt, hm⟩ := hall before after m hacts hbefore
      exact hkempt.right_iff.mpr hm
  · rw [← hs.2.step_iff hs.1 hstep]
    exact and_iff_right (kempt_step s act s' hs.1 hstep)

/-- Two objects are lent for a call. A RELEASE names one, the other is called, a handed over object is
given back, and both are gone once the call has returned. -/
theorem lentRight_iff_two :
    ∃ (acts : List (LendingAct Bool)) (s : Lending Bool), run step start acts = some s ∧
      s.reached = [(2, true)] ∧ s.gone = [2] ∧ s.taken = [3] ∧ (s.calls 0).at_ = .done ∧
      ∀ before after m, acts = before ++ after → run step start before = some m → LentRight m := by
  refine ⟨[.begin [false, true], .next 0, .next 0, .next 0, .look 2, .look 2, .unexport 1, .enter 2,
    .own, .takeExport .argument 3, .leave 2, .next 0, .next 0, .next 0, .next 0, .next 0, .next 0,
    .enter 2],
    _, rfl, rfl, rfl, rfl, rfl, ?_⟩
  exact (lentRight_iff rfl).mpr rfl

/-- A call of the peer's hands over the object lent to it. It is refused, and the object has left the
table: the call it was lent for has yet to return, and no call finds it. -/
theorem handed_over_gone :
    ∃ (acts : List (LendingAct Bool)) (s : Lending Bool), run step start acts = some s ∧
      s.link.alive ∧ (s.calls 0).at_ = .exchanging ∧ (s.calls 0).shared = [(1, true)] ∧
      s.taken = [] ∧ step s (.look 1) = none ∧ ¬ LentRight s := by
  refine ⟨[.begin [true], .next 0, .next 0, .takeExport .argument 1], _, rfl, rfl, rfl, rfl, rfl, rfl,
    fun hright => ?_⟩
  have hget := (hright.there rfl 1 0 true List.not_mem_nil rfl rfl).1
  cases hget

end Lending

end Guatiao.Link
