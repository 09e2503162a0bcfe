import Guatiao.Link.Handing

/-!
# Frames that never left

What was exported for a frame that never reached the peer is out of the table again, and
what the frame gave back is released. An id out of the table does not come back, so a call
keeps what it undid whatever the others do.
-/

namespace Guatiao.Link

open Lib

theorem mem_backs {remote : ℕ} {args : List ObjectArg} : remote ∈ backs args ↔ .back remote ∈ args := by
  induction args with
  | nil => simp [backs]
  | cons arg args ih => cases arg <;> simp [backs, ih]

/-- What a call handed over is out of the table, and what it gave back released. -/
structure Outgoing.Undone (call : Outgoing) (out released : ℕ → Prop) : Prop where
  wire : call.wire ≠ .queued
  handed : ∀ object ∈ call.handed, out object
  given : ∀ remote ∈ backs call.args, released remote

/-- Where what a call did stands, by where the call is. -/
def Outgoing.Placed (call : Outgoing) (out released : ℕ → Prop) : Prop :=
  match call.at_ with
  | .idle => call.wire = .unsent
  | .begun => call.wire = .unsent ∧ call.handed = [] ∧ call.given = [] ∧ call.lent = []
  | .handing args _ =>
    call.wire = .unsent ∧ call.lent = [] ∧ backs call.args = call.given ++ backs args
  | .lending _ | .building => call.wire = .unsent ∧ backs call.args = call.given
  | .waiting => (call.wire = .queued ∨ call.wire = .sent) ∧ backs call.args = call.given
  | .dropping left =>
    call.wire = .unsent ∧ (∀ object ∈ call.handed, object ∈ left ∨ out object) ∧
      ∀ remote ∈ backs call.args, released remote
  | .returning => call.Undone out released ∨ call.wire = .sent
  | .done => call.lent = [] ∧ (call.Undone out released ∨ call.wire = .sent)

variable {call : Outgoing} {out released : ℕ → Prop}

theorem Outgoing.Undone.mono {out' released' : ℕ → Prop}
    (h : call.Undone out released) (hout : ∀ object ∈ call.handed, out object → out' object)
    (hreleased : ∀ remote, released remote → released' remote) : call.Undone out' released' where
  wire := h.wire
  handed object hin := hout object hin (h.handed object hin)
  given remote hin := hreleased remote (h.given remote hin)

theorem Outgoing.Undone.of_nil (hwire : call.wire ≠ .queued)
    (hhanded : call.handed = []) (hgiven : ∀ remote ∈ backs call.args, released remote) :
    call.Undone out released := by
  refine ⟨hwire, fun object hin => ?_, hgiven⟩
  rw [hhanded] at hin
  cases hin

theorem released_of_nil {given args : List ℕ} (hbacks : args = given)
    (hgiven : given = []) : ∀ remote ∈ args, released remote := by
  intro remote hin
  rw [hbacks, hgiven] at hin
  cases hin

theorem Outgoing.Placed.mono {out' released' : ℕ → Prop}
    (h : call.Placed out released) (hout : ∀ object ∈ call.handed, out object → out' object)
    (hreleased : ∀ remote, released remote → released' remote) : call.Placed out' released' := by
  unfold Outgoing.Placed at h ⊢
  cases hat : call.at_ with
  | dropping left =>
    rw [hat] at h
    obtain ⟨hwire, hhanded, hgiven⟩ := h
    refine ⟨hwire, fun object hin => ?_, fun remote hin => hreleased remote (hgiven remote hin)⟩
    exact (hhanded object hin).imp_right (hout object hin)
  | returning =>
    rw [hat] at h
    exact h.imp_left fun hundone => hundone.mono hout hreleased
  | done =>
    rw [hat] at h
    exact ⟨h.1, h.2.imp_left fun hundone => hundone.mono hout hreleased⟩
  | idle | begun | handing _ _ | lending _ | building | waiting =>
    rw [hat] at h
    exact h

namespace Handing

/-- The link's table and what was released, as a call leaves them to the others: an id out of the
table stays out, and what is released is released for good. -/
structure Later (s s' : Handing) : Prop where
  alive : s'.link.alive = s.link.alive
  next : s.link.nextExport ≤ s'.link.nextExport
  out : ∀ id ≤ s.link.nextExport, s.link.exports.get id = none → s'.link.exports.get id = none
  released : ∀ release ∈ s.released, release ∈ s'.released

/-- A call that fails now leaves nothing behind: it has handed nothing over and given nothing back. -/
def clean (s : Handing) (id : ℕ) : Bool :=
  (s.call id).handed.isEmpty && (s.call id).given.isEmpty

/-- What a step may not do, or an object is held that the other side was never told of. -/
def settlesHanded (s : Handing) : HandingAct → Bool
  | .hand id =>
    match (s.call id).at_ with
    | .handing (.owned .unknown :: _) _ => s.clean id
    | .handing (.owned .uncallable :: _) _ => (s.call id).given.isEmpty
    | _ => true
  | .lend id =>
    match (s.call id).at_ with
    | .lending lend => lend.getLast?.all (· = .callable) || s.clean id
    | _ => true
  | .build id built => built = .queued || (s.call id).given.isEmpty
  | .timeOut id => (s.call id).wire ≠ .queued || s.clean id
  | .encode served ok => ok || (s.answer served = .building none)
  | _ => true

/-- What a frame that never left exported is out of the table, and what it gave back is released; what
was exported for an answer refused is out of the table. -/
def SettlesHanded (s : Handing) : Prop :=
  (∀ id, (s.call id).at_ = .done → (s.call id).wire ≠ .sent →
    (∀ object ∈ (s.call id).exported, s.link.exports.get object = none) ∧
      ∀ remote, .back remote ∈ (s.call id).args → (id, remote) ∈ s.released) ∧
  ∀ served object, s.answer served = .refused (some object) → s.link.exports.get object = none

/-- What holds of a call between any two steps. -/
structure CallOk (s : Handing) (id : ℕ) (call : Outgoing) : Prop where
  known : ∀ object ∈ call.exported, object ≤ s.link.nextExport
  /-- What it exported it has handed over, lends, or has taken out again. -/
  exported : ∀ object ∈ call.exported,
    object ∈ call.handed ∨ object ∈ call.lent ∨ s.link.exports.get object = none
  handed : ∀ object ∈ call.handed, object ∈ call.exported
  placed : call.Placed (fun object => s.link.exports.get object = none)
    (fun remote => (id, remote) ∈ s.released)

/-- What holds between any two steps. -/
structure Sound (s : Handing) : Prop where
  alive : s.link.alive = true
  calls : ∀ id, s.CallOk id (s.call id)
  answers : ∀ served object, s.answer served = .refused object → object = none

theorem sound_start : Sound start where
  alive := rfl
  calls _ := by
    refine ⟨?_, ?_, ?_, rfl⟩ <;> exact fun _ hin => absurd hin List.not_mem_nil
  answers _ _ hrefused := by
    cases hrefused

variable {s s' : Handing} {id : ℕ} {call : Outgoing}

theorem CallOk.later (h : s.CallOk id call) (hlater : Later s s') : s'.CallOk id call where
  known object hin := (h.known object hin).trans hlater.next
  exported object hin := by
    have hout := hlater.out object (h.known object hin)
    exact (h.exported object hin).imp_right (Or.imp_right hout)
  handed := h.handed
  placed := by
    refine h.placed.mono (fun object hin => ?_) fun remote => hlater.released _
    exact hlater.out object (h.known object (h.handed object hin))

theorem Later.of_eq (hlink : s'.link = s.link) (hreleased : s'.released = s.released) :
    Later s s' := by
  refine ⟨by rw [hlink], by rw [hlink], fun object _ hout => ?_, fun release hin => ?_⟩
  · rw [hlink]
    exact hout
  · rw [hreleased]
    exact hin

theorem Later.release (hlink : s'.link = s.link) (more : List (ℕ × ℕ))
    (hreleased : s'.released = s.released ++ more) : Later s s' := by
  refine ⟨by rw [hlink], by rw [hlink], fun object _ hout => ?_, fun release hin => ?_⟩
  · rw [hlink]
    exact hout
  · rw [hreleased]
    exact List.mem_append_left _ hin

variable {object : ℕ} {e : Export Unit} {link : State Unit Unit Unit} {call' : Outgoing}

theorem Later.unexport (hlink : s'.link = (s.link.unexport object).2)
    (hreleased : s'.released = s.released) : Later s s' := by
  refine ⟨by rw [hlink]; rfl, by rw [hlink]; rfl, fun other _ hout => ?_, fun release hin => ?_⟩
  · rw [hlink]
    simp only [State.unexport, SortedMap.get_remove, hout, ite_self]
  · rw [hreleased]
    exact hin

theorem Later.export (hexport : s.link.export e = some (object, link)) (hlink : s'.link = link)
    (hreleased : s'.released = s.released) :
    Later s s' ∧ object = s.link.nextExport + 1 ∧ s'.link.nextExport = object := by
  unfold State.export at hexport
  split at hexport
  · cases hexport
    refine ⟨⟨by rw [hlink], ?_, fun other hle hout => ?_, fun release hin => ?_⟩, rfl, by rw [hlink]⟩
    · rw [hlink]
      exact Nat.le_succ _
    · rw [hlink]
      have hne : other ≠ s.link.nextExport + 1 := (Nat.lt_succ_of_le hle).ne
      rw [SortedMap.get_insert_of_ne hne]
      exact hout
    · rw [hreleased]
      exact hin
  · cases hexport

theorem Sound.moved (h : s.Sound) (hlater : Later s s') (hanswer : s'.answer = s.answer)
    (id : ℕ) (call : Outgoing) (hcall : s'.call = Function.update s.call id call)
    (hok : s'.CallOk id call) : s'.Sound where
  alive := by
    rw [hlater.alive]
    exact h.alive
  calls j := by
    rw [hcall]
    by_cases hj : j = id
    · rw [hj, Function.update_self]
      exact hok
    · rw [Function.update_of_ne hj]
      exact (h.calls j).later hlater
  answers := by
    rw [hanswer]
    exact h.answers

theorem CallOk.goes (h : s.CallOk id call) (hexported : call'.exported = call.exported)
    (hhanded : call'.handed = call.handed) (hlent : call'.lent = call.lent)
    (hplaced : call'.Placed (fun object => s.link.exports.get object = none)
      fun remote => (id, remote) ∈ s.released) : s.CallOk id call' := by
  refine ⟨?_, ?_, ?_, hplaced⟩
  · rw [hexported]
    exact h.known
  · rw [hexported, hhanded, hlent]
    exact h.exported
  · rw [hexported, hhanded]
    exact h.handed

theorem Sound.set (h : s.Sound) (hexported : call'.exported = (s.call id).exported)
    (hhanded : call'.handed = (s.call id).handed) (hlent : call'.lent = (s.call id).lent)
    (hplaced : call'.Placed (fun object => s.link.exports.get object = none)
      fun remote => (id, remote) ∈ s.released) : (s.set id call').Sound := by
  have hlater : Later s (s.set id call') := .of_eq rfl rfl
  have hok := (h.calls id).goes hexported hhanded hlent hplaced
  exact h.moved hlater rfl id call' rfl (hok.later hlater)

theorem Sound.release (h : s.Sound) {args : List ObjectArg}
    (hexported : call'.exported = (s.call id).exported) (hhanded : call'.handed = (s.call id).handed)
    (hlent : call'.lent = (s.call id).lent)
    (hplaced : call'.Placed (fun object => s.link.exports.get object = none)
      fun remote => (id, remote) ∈ s.released ++ (backs args).map fun remote => (id, remote)) :
    ((s.set id call').release id args).Sound := by
  have hlater : Later s ((s.set id call').release id args) :=
    Later.release rfl ((backs args).map fun remote => (id, remote)) rfl
  exact h.moved hlater rfl id call' rfl (((h.calls id).later hlater).goes hexported hhanded hlent hplaced)

theorem CallOk.exports (h : s.CallOk id call) (hexport : s.link.export e = some (object, link))
    (hlink : s'.link = link) (hreleased : s'.released = s.released)
    (hexported : call'.exported = call.exported ++ [object])
    (hkept : (call'.handed = call.handed ++ [object] ∧ call'.lent = call.lent) ∨
      (call'.handed = call.handed ∧ call'.lent = object :: call.lent))
    (hplaced : call'.Placed (fun object => s'.link.exports.get object = none)
      fun remote => (id, remote) ∈ s'.released) : s'.CallOk id call' := by
  obtain ⟨hlater, -, hnext⟩ := Later.export hexport hlink hreleased
  have hok := h.later hlater
  refine ⟨fun other hin => ?_, fun other hin => ?_, fun other hin => ?_, hplaced⟩
  · rw [hexported] at hin
    rcases List.mem_append.mp hin with hin | hin
    · exact hok.known other hin
    · rw [List.mem_singleton.mp hin, hnext]
  · rw [hexported] at hin
    rcases List.mem_append.mp hin with hin | hin
    · have hold := hok.exported other hin
      rcases hkept with ⟨hhanded, hlent⟩ | ⟨hhanded, hlent⟩
      · rw [hhanded, hlent]
        exact hold.imp_left (List.mem_append_left _)
      · rw [hhanded, hlent]
        exact hold.imp_right (Or.imp_left (List.mem_cons_of_mem _))
    · rw [List.mem_singleton.mp hin]
      rcases hkept with ⟨hhanded, -⟩ | ⟨-, hlent⟩
      · rw [hhanded]
        exact .inl (List.mem_append_right _ (List.mem_singleton_self _))
      · rw [hlent]
        exact .inr (.inl (List.mem_cons_self ..))
  · rw [hexported]
    rcases hkept with ⟨hhanded, -⟩ | ⟨hhanded, -⟩
    · rw [hhanded] at hin
      rcases List.mem_append.mp hin with hin | hin
      · exact List.mem_append_left _ (h.handed other hin)
      · exact List.mem_append_right _ hin
    · rw [hhanded] at hin
      exact List.mem_append_left _ (h.handed other hin)

theorem Sound.exports (h : s.Sound) (hexport : s.link.export e = some (object, link))
    (hexported : call'.exported = (s.call id).exported ++ [object])
    (hkept : (call'.handed = (s.call id).handed ++ [object] ∧ call'.lent = (s.call id).lent) ∨
      (call'.handed = (s.call id).handed ∧ call'.lent = object :: (s.call id).lent))
    (hplaced : call'.Placed (fun object => link.exports.get object = none)
      fun remote => (id, remote) ∈ s.released) : Sound { s.set id call' with link } := by
  have hok : CallOk { s.set id call' with link } id call' :=
    (h.calls id).exports hexport rfl rfl hexported hkept hplaced
  obtain ⟨hlater, -, -⟩ : Later s { s.set id call' with link } ∧ _ ∧ _ := Later.export hexport rfl rfl
  exact h.moved hlater rfl id call' rfl hok

theorem Sound.export_ne (h : s.Sound) (e : Export Unit) : s.link.export e ≠ none := by
  simp only [State.export, h.alive, if_true, ne_eq, reduceCtorEq, not_false_eq_true]

/-- What a call's failing in the loop over its arguments releases: all it was given of the peer's, where
it has given none back. -/
theorem released_of_given {args : List ObjectArg} (hbacks : backs call.args = call.given ++ backs args)
    (hgiven : call.given = []) :
    ∀ remote ∈ backs call.args,
      (id, remote) ∈ s.released ++ (backs args).map fun remote => (id, remote) := by
  intro remote hin
  rw [hbacks, hgiven, List.nil_append] at hin
  exact List.mem_append_right _ (List.mem_map_of_mem hin)

theorem clean_iff : s.clean id = true ↔ (s.call id).handed = [] ∧ (s.call id).given = [] := by
  simp only [clean, Bool.and_eq_true, List.isEmpty_iff]

/-- A turn of the loop over the arguments. -/
theorem Sound.hand (h : s.Sound) (hsettled : s.settlesHanded (.hand id) = true)
    (hstep : s.hand id = some s') : s'.Sound := by
  have hplaced := (h.calls id).placed
  unfold Outgoing.Placed at hplaced
  simp only [Handing.hand] at hstep
  simp only [settlesHanded] at hsettled
  split at hstep
  case h_1 lend hat =>
    simp only [hat] at hplaced
    obtain ⟨hwire, -, hbacks⟩ := hplaced
    cases hstep
    refine h.set rfl rfl rfl ⟨hwire, ?_⟩
    rw [hbacks, backs, List.append_nil]
  case h_2 args lend hat =>
    simp only [hat] at hplaced hsettled
    obtain ⟨hwire, hlent, hbacks⟩ := hplaced
    obtain ⟨hhanded, hgiven⟩ := clean_iff.mp hsettled
    cases hstep
    refine h.release rfl rfl rfl ⟨hlent, .inl (.of_nil ?_ hhanded ?_)⟩
    · simp [hwire]
    · exact released_of_given hbacks hgiven
  case h_3 args lend hat =>
    simp only [hat] at hplaced hsettled
    obtain ⟨hwire, hlent, hbacks⟩ := hplaced
    cases hstep
    refine h.release rfl rfl rfl ⟨hwire, fun object hin => .inl hin, ?_⟩
    exact released_of_given hbacks (List.isEmpty_iff.mp hsettled)
  case h_4 args lend hat =>
    simp only [hat] at hplaced
    obtain ⟨hwire, hlent, hbacks⟩ := hplaced
    split at hstep
    · next hexport => exact absurd hexport (h.export_ne _)
    · next object link hexport =>
      cases hstep
      exact h.exports hexport rfl (.inl ⟨rfl, rfl⟩) ⟨hwire, hlent, hbacks⟩
  case h_5 remote args lend hat =>
    simp only [hat] at hplaced
    obtain ⟨hwire, hlent, hbacks⟩ := hplaced
    cases hstep
    refine h.set rfl rfl rfl ⟨hwire, hlent, ?_⟩
    rw [hbacks, backs, List.append_assoc]
    rfl
  case h_6 kind args lend hat =>
    simp only [hat] at hplaced
    cases hstep
    exact h.set rfl rfl rfl hplaced
  case h_7 args lend hat =>
    simp only [hat] at hplaced
    cases hstep
    exact h.set rfl rfl rfl hplaced
  case h_8 => cases hstep

theorem Sound.lend (h : s.Sound) (hsettled : s.settlesHanded (.lend id) = true)
    (hstep : s.lend id = some s') : s'.Sound := by
  have hplaced := (h.calls id).placed
  unfold Outgoing.Placed at hplaced
  simp only [Handing.lend] at hstep
  simp only [settlesHanded] at hsettled
  split at hstep
  case h_1 lend hat =>
    simp only [hat] at hplaced hsettled
    obtain ⟨hwire, hbacks⟩ := hplaced
    split at hstep
    · cases hstep
      exact h.set rfl rfl rfl ⟨hwire, hbacks⟩
    · split at hstep
      · next hexport => exact absurd hexport (h.export_ne _)
      · next object link hexport =>
        cases hstep
        exact h.exports hexport rfl (.inr ⟨rfl, rfl⟩) ⟨hwire, hbacks⟩
    · next kind hne hlast =>
      have hboth : kind = .callable ∨ s.clean id = true := by
        simpa [hlast] using hsettled
      obtain ⟨hhanded, hgiven⟩ := clean_iff.mp (hboth.resolve_left hne)
      cases hstep
      refine h.set rfl rfl rfl (.inl (.of_nil ?_ hhanded (released_of_nil hbacks hgiven)))
      simp [hwire]
  case h_2 => cases hstep

theorem Sound.unexport (h : s.Sound) (object : ℕ) :
    Sound { s with link := (s.link.unexport object).2 } where
  alive := h.alive
  calls j := (h.calls j).later (.unexport rfl rfl)
  answers := h.answers

theorem get_unexport_self (link : State Unit Unit Unit) (object : ℕ) :
    (link.unexport object).2.exports.get object = none := by
  simp only [State.unexport, SortedMap.get_remove_self]

theorem Sound.unexports (h : s.Sound) (object : ℕ)
    (hexported : call'.exported = (s.call id).exported) (hhanded : call'.handed = (s.call id).handed)
    (hlent : ∀ other ∈ (s.call id).lent, other = object ∨ other ∈ call'.lent)
    (hplaced : call'.Placed (fun other => (s.link.unexport object).2.exports.get other = none)
      fun remote => (id, remote) ∈ s.released) :
    Sound { s.set id call' with link := (s.link.unexport object).2 } := by
  have hlater : Later s { s.set id call' with link := (s.link.unexport object).2 } :=
    .unexport rfl rfl
  have hok := (h.calls id).later hlater
  refine h.moved hlater rfl id call' rfl ⟨?_, fun other hin => ?_, ?_, hplaced⟩
  · rw [hexported]
    exact hok.known
  · rw [hexported] at hin
    rw [hhanded]
    refine (hok.exported other hin).imp_right fun hrest => ?_
    rcases hrest with hin | hout
    · rcases hlent other hin with heq | hin
      · rw [heq]
        exact .inr (get_unexport_self _ object)
      · exact .inl hin
    · exact .inr hout
  · rw [hexported, hhanded]
    exact hok.handed

theorem Sound.answers_set (h : s.Sound) {served : ℕ} {answered : Answered} (hlater : Later s s')
    (hcall : s'.call = s.call) (hanswer : s'.answer = Function.update s.answer served answered)
    (hrefused : ∀ object, answered = .refused object → object = none) : s'.Sound where
  alive := by
    rw [hlater.alive]
    exact h.alive
  calls j := by
    rw [hcall]
    exact (h.calls j).later hlater
  answers other object hother := by
    rw [hanswer] at hother
    by_cases heq : other = served
    · rw [heq, Function.update_self] at hother
      exact hrefused object hother
    · rw [Function.update_of_ne heq] at hother
      exact h.answers other object hother

theorem Sound.begin (h : s.Sound) {args : List ObjectArg}
    (hstep : step s (.begin id args) = some s') : s'.Sound := by
  simp only [step] at hstep
  split at hstep
  · cases hstep
    have hnone : ∀ object, object ∉ ([] : List ℕ) := fun _ => List.not_mem_nil
    refine h.moved (.of_eq rfl rfl) rfl id _ rfl ⟨?_, ?_, ?_, rfl, rfl, rfl, rfl⟩ <;>
      exact fun object hin => absurd hin (hnone object)
  · cases hstep

theorem Sound.permit (h : s.Sound) {acquired : Bool}
    (hstep : step s (.permit id acquired) = some s') : s'.Sound := by
  have hplaced := (h.calls id).placed
  unfold Outgoing.Placed at hplaced
  simp only [step] at hstep
  split at hstep
  · next hat =>
    simp only [hat] at hplaced
    obtain ⟨hwire, hhanded, hgiven, hlent⟩ := hplaced
    split at hstep
    · cases hstep
      refine h.set rfl rfl rfl ⟨hwire, hlent, ?_⟩
      rw [hgiven, List.nil_append]
    · cases hstep
      refine h.release rfl rfl rfl ⟨hlent, .inl (.of_nil ?_ hhanded fun remote hin => ?_)⟩
      · simp [hwire]
      · exact List.mem_append_right _ (List.mem_map_of_mem hin)
  · cases hstep

theorem Sound.build (h : s.Sound) {built : Built}
    (hsettled : s.settlesHanded (.build id built) = true)
    (hstep : step s (.build id built) = some s') : s'.Sound := by
  have hplaced := (h.calls id).placed
  unfold Outgoing.Placed at hplaced
  simp only [step] at hstep
  split at hstep
  · next hat =>
    simp only [hat] at hplaced
    obtain ⟨hwire, hbacks⟩ := hplaced
    split at hstep
    · cases hstep
      exact h.set rfl rfl rfl ⟨.inl rfl, hbacks⟩
    · next hne =>
      have hboth : built = .queued ∨ (s.call id).given = [] := by
        simpa [settlesHanded] using hsettled
      have hgiven := hboth.resolve_left hne
      cases hstep
      exact h.set rfl rfl rfl
        ⟨hwire, fun object hin => .inl hin, released_of_nil hbacks hgiven⟩
  · cases hstep

theorem Sound.write (h : s.Sound) (hstep : step s (.write id) = some s') : s'.Sound := by
  have hplaced := (h.calls id).placed
  unfold Outgoing.Placed at hplaced
  simp only [step] at hstep
  split at hstep
  · next hwire =>
    cases hstep
    refine h.set rfl rfl rfl ?_
    unfold Outgoing.Placed
    cases hat : (s.call id).at_ <;> simp only [hat, hwire] at hplaced ⊢
    all_goals simp_all
  · cases hstep

theorem Sound.reply (h : s.Sound) (hstep : step s (.reply id) = some s') : s'.Sound := by
  simp only [step] at hstep
  split at hstep
  · next hguard =>
    cases hstep
    exact h.set rfl rfl rfl (.inr hguard.2)
  · cases hstep

theorem Sound.timeOut (h : s.Sound) (hsettled : s.settlesHanded (.timeOut id) = true)
    (hstep : step s (.timeOut id) = some s') : s'.Sound := by
  have hplaced := (h.calls id).placed
  unfold Outgoing.Placed at hplaced
  simp only [step] at hstep
  split at hstep
  · next hat =>
    simp only [hat] at hplaced
    obtain ⟨hwire, hbacks⟩ := hplaced
    cases hstep
    refine h.set rfl rfl rfl ?_
    rcases hwire with hwire | hwire
    · have hclean : s.clean id = true := by
        simpa [settlesHanded, hwire] using hsettled
      obtain ⟨hhanded, hgiven⟩ := clean_iff.mp hclean
      refine .inl (.of_nil ?_ hhanded (released_of_nil hbacks hgiven))
      simp only [hwire, if_true, ne_eq, reduceCtorEq, not_false_eq_true]
    · refine .inr ?_
      simp only [hwire, reduceCtorEq, if_false]
  · cases hstep

theorem Sound.drop (h : s.Sound) (hstep : step s (.drop id) = some s') : s'.Sound := by
  have hplaced := (h.calls id).placed
  unfold Outgoing.Placed at hplaced
  simp only [step] at hstep
  split at hstep
  · next object left hat =>
    simp only [hat] at hplaced
    obtain ⟨hwire, hhanded, hreleased⟩ := hplaced
    cases hstep
    refine h.unexports object rfl rfl (fun _ hin => .inr hin) ⟨hwire, fun other hin => ?_, hreleased⟩
    rcases hhanded other hin with hleft | hout
    · rcases List.mem_cons.mp hleft with heq | hleft
      · rw [heq]
        exact .inr (get_unexport_self _ object)
      · exact .inl hleft
    · refine .inr ?_
      simp only [State.unexport, SortedMap.get_remove, hout, ite_self]
  · next hat =>
    simp only [hat] at hplaced
    obtain ⟨hwire, hhanded, hreleased⟩ := hplaced
    cases hstep
    refine h.set rfl rfl rfl (.inl ⟨?_, fun object hin => ?_, hreleased⟩)
    · simp [hwire]
    · exact (hhanded object hin).resolve_left List.not_mem_nil
  · cases hstep

theorem Sound.unlend (h : s.Sound) (hstep : step s (.unlend id) = some s') : s'.Sound := by
  have hplaced := (h.calls id).placed
  unfold Outgoing.Placed at hplaced
  simp only [step] at hstep
  split at hstep
  · next hat =>
    simp only [hat] at hplaced
    split at hstep
    · next object lent hlent =>
      have hlater : Later s { s with link := (s.link.unexport object).2 } := .unexport rfl rfl
      have hokay := (h.calls id).later hlater
      cases hstep
      refine h.unexports object rfl rfl (fun other hin => ?_) ?_
      · rw [hlent] at hin
        exact List.mem_cons.mp hin
      · have hlater' := hokay.placed
        unfold Outgoing.Placed at hlater' ⊢
        simp only [hat] at hlater' ⊢
        exact hlater'.imp_left fun hundone => ⟨hundone.wire, hundone.handed, hundone.given⟩
    · next hlent =>
      cases hstep
      refine h.set rfl rfl rfl ⟨hlent, ?_⟩
      exact hplaced.imp_left fun hundone => ⟨hundone.wire, hundone.handed, hundone.given⟩
  · cases hstep

theorem Sound.answer (h : s.Sound) {served : ℕ} {object : Option Described}
    (hstep : step s (.answer served object) = some s') : s'.Sound := by
  simp only [step] at hstep
  split at hstep
  · split at hstep
    · cases hstep
      exact h.answers_set (.of_eq rfl rfl) rfl rfl (fun _ heq => by cases heq)
    · split at hstep
      · next hexport => exact absurd hexport (h.export_ne _)
      · next id link hexport =>
        cases hstep
        obtain ⟨hlater, -, -⟩ : Later s { s with
            link, answer := Function.update s.answer served (.building (some id)) } ∧ _ ∧ _ :=
          Later.export hexport rfl rfl
        exact h.answers_set hlater rfl rfl (fun _ heq => by cases heq)
    · cases hstep
      refine h.answers_set (.of_eq rfl rfl) rfl rfl (fun object heq => ?_)
      cases heq
      rfl
  · cases hstep

theorem Sound.encode (h : s.Sound) {served : ℕ} {ok : Bool}
    (hsettled : s.settlesHanded (.encode served ok) = true)
    (hstep : step s (.encode served ok) = some s') : s'.Sound := by
  simp only [step] at hstep
  split at hstep
  · next object hanswer =>
    have hboth : ok = true ∨ object = none := by
      simpa [settlesHanded, hanswer] using hsettled
    cases hstep
    refine h.answers_set (.of_eq rfl rfl) rfl rfl (fun other heq => ?_)
    rcases hboth with hok | hnone
    · rw [if_pos hok] at heq
      cases heq
    · rw [hnone] at heq
      split at heq
      · cases heq
      · cases heq
        rfl
  · cases hstep

theorem sound_step : Kept (only (fun s a => s.settlesHanded a = true) step) Sound := by
  intro s act s' h hstep
  obtain ⟨hsettled, hstep⟩ := only_eq_some.mp hstep
  cases act with
  | begin id args => exact h.begin hstep
  | permit id acquired => exact h.permit hstep
  | hand id => exact h.hand hsettled hstep
  | lend id => exact h.lend hsettled hstep
  | build id built => exact h.build hsettled hstep
  | write id => exact h.write hstep
  | reply id => exact h.reply hstep
  | timeOut id => exact h.timeOut hsettled hstep
  | drop id => exact h.drop hstep
  | unlend id => exact h.unlend hstep
  | peer id =>
    cases hstep
    exact h.unexport id
  | answer served object => exact h.answer hstep
  | encode served ok => exact h.encode hsettled hstep

/-- What a frame that never left handed over is let go, in every order of calls, timeouts and writes
that takes no step `settlesHanded` rules out. -/
theorem unsent_let_go {acts : List HandingAct}
    (hrun : run (only (fun s a => s.settlesHanded a = true) step) start acts = some s) :
    s.SettlesHanded := by
  have hsound := sound_step.run sound_start hrun
  refine ⟨fun id hat hwire => ?_, fun served object hrefused => ?_⟩
  · have hok := hsound.calls id
    have hplaced := hok.placed
    unfold Outgoing.Placed at hplaced
    simp only [hat] at hplaced
    obtain ⟨hlent, hundone⟩ := hplaced
    have hundone := hundone.resolve_right hwire
    refine ⟨fun object hin => ?_, fun remote hin => hundone.given remote (mem_backs.mpr hin)⟩
    rcases hok.exported object hin with hhanded | hlends | hout
    · exact hundone.handed object hhanded
    · rw [hlent] at hlends
      cases hlends
    · exact hout
  · cases hsound.answers served (some object) hrefused

/-- A call hands one object over and lends another, and its arguments cannot be encoded. -/
def unencodable : List HandingAct :=
  [.begin 1 [.owned .callable, .lent .callable], .permit 1 true, .hand 1, .hand 1, .hand 1, .lend 1,
    .lend 1, .build 1 .unencodable, .drop 1, .drop 1, .unlend 1, .unlend 1]

theorem unsent_let_go_unencodable : ∃ s,
    run (only (fun s a => s.settlesHanded a = true) step) start unencodable = some s ∧
      (s.call 1).at_ = .done ∧ (s.call 1).exported = [1, 2] ∧ s.SettlesHanded := by
  obtain ⟨s, hrun⟩ : ∃ s, run (only (fun s a => s.settlesHanded a = true) step) start unencodable =
      some s := ⟨_, rfl⟩
  have hcall : (s.call 1).at_ = .done ∧ (s.call 1).exported = [1, 2] := by
    cases hrun
    exact ⟨rfl, rfl⟩
  exact ⟨s, hrun, hcall.1, hcall.2, unsent_let_go hrun⟩

/-- A call hands an object over and gives one of the peer's back, and its frame is retracted; a served
call answers with an object, and its reply is refused. Both objects stay in the table, and the one
given back is not released. -/
theorem retracted_held : ∃ s,
    run step start
      [.begin 1 [.owned .callable, .back 7], .permit 1 true, .hand 1, .hand 1, .hand 1, .lend 1,
        .build 1 .queued, .timeOut 1, .unlend 1, .answer 5 (some .callable), .encode 5 false] = some s ∧
    (s.call 1).at_ = .done ∧ (s.call 1).wire = .retracted ∧ (s.call 1).exported = [1] ∧
      s.link.exports.get 1 = some .owned ∧ s.released = [] ∧ s.answer 5 = .refused (some 2) ∧
      s.link.exports.get 2 = some .owned ∧ ¬ s.SettlesHanded := by
  obtain ⟨s, hrun⟩ : ∃ s, run step start
      [.begin 1 [.owned .callable, .back 7], .permit 1 true, .hand 1, .hand 1, .hand 1, .lend 1,
        .build 1 .queued, .timeOut 1, .unlend 1, .answer 5 (some .callable), .encode 5 false] =
      some s := ⟨_, rfl⟩
  have hcall : (s.call 1).at_ = .done ∧ (s.call 1).wire = .retracted ∧ (s.call 1).exported = [1] := by
    cases hrun
    exact ⟨rfl, rfl, rfl⟩
  have hlink : s.link.exports.get 1 = some .owned ∧ s.released = [] ∧
      s.answer 5 = .refused (some 2) ∧ s.link.exports.get 2 = some .owned := by
    cases hrun
    exact ⟨rfl, rfl, rfl, rfl⟩
  obtain ⟨hat, hwire, hexported⟩ := hcall
  obtain ⟨hheld, hreleased, hanswer, hheld'⟩ := hlink
  refine ⟨s, hrun, hat, hwire, hexported, hheld, hreleased, hanswer, hheld', fun h => ?_⟩
  have hout := h.2 5 2 hanswer
  rw [hheld'] at hout
  cases hout

end Handing

end Guatiao.Link
