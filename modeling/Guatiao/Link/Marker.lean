import Guatiao.Link.Entry

/-!
# What the marker of an object says

Between any two accesses a thread has the locks of the objects it entered. While no thread
takes a lock whose marker is yet to be cleared, and none leaves `serve` early with an object
entered, the marker names just the thread that is inside.
-/

namespace Guatiao.Link

open Lib

/-- The object whose lock a call has besides its arguments'. -/
def Serving.held {Obj : Type} : Serving Obj → List Obj
  | .marking object | .markingCallee object | .running (some object) => [object]
  | _ => []

/-- The object whose marker a call has set besides its arguments'. -/
def Serving.marked {Obj : Type} : Serving Obj → List Obj
  | .running (some object) | .clearing object | .clearingCallee object => [object]
  | _ => []

/-- The object whose lock a call has given up and whose marker it is about to clear. -/
def Serving.clears {Obj : Type} : Serving Obj → List Obj
  | .clearing object | .clearingCallee object => [object]
  | _ => []

/-- The object whose lock a call waits for. -/
def Serving.waits {Obj : Type} : Serving Obj → Option Obj
  | .locking object | .lockingCallee object => some object
  | _ => none

/-- The object whose lock a call has taken and whose marker it is about to set. -/
def Serving.marks {Obj : Type} : Serving Obj → Option Obj
  | .marking object | .markingCallee object => some object
  | _ => none

namespace Serve

variable {Obj : Type}

def held (f : Serve Obj) : List Obj := f.guards ++ f.at_.held

def marked (f : Serve Obj) : List Obj := f.guards ++ f.at_.marked

/-- The object a call is about to enter. -/
def about (f : Serve Obj) : Option Obj :=
  match f.at_, f.ownLent, f.callee with
  | .entering, .owned object :: _, _ => some object
  | .calling, _, .owned object => some object
  | _, _, _ => none

end Serve

namespace Entry

variable {Tid Obj : Type} [DecidableEq Tid] [DecidableEq Obj] {s s' : Entry Tid Obj} {t : Tid}

/-- The locks a thread has. -/
def held (s : Entry Tid Obj) (t : Tid) : List Obj := (s.stack t).flatMap Serve.held

/-- The markers a thread has set. -/
def marked (s : Entry Tid Obj) (t : Tid) : List Obj := (s.stack t).flatMap Serve.marked

/-- The locks a thread has given up, whose markers it has not cleared. -/
def clears (s : Entry Tid Obj) (t : Tid) : List Obj := (s.stack t).flatMap (·.at_.clears)

/-- No lock is taken whose marker is yet to be cleared; `serve` does not return early, nor unwind,
with an object entered. -/
def settled (s : Entry Tid Obj) : Act Tid Obj → Bool
  | .next t =>
    match s.stack t with
    | [] => true
    | f :: _ => (f.at_.waits.all fun object => s.inside object = none) &&
        (!s.fails t f || f.guards.isEmpty)
  | .panics t =>
    match s.stack t with
    | [] => true
    | f :: _ => f.guards.isEmpty && f.at_ = .running none
  | _ => true

/-- What holds between any two accesses, where all that was done was settled. -/
structure Sound (s : Entry Tid Obj) : Prop where
  locks : Held s.holder s.held
  markers : Held s.inside s.marked
  /-- A lock whose marker is yet to be cleared is free. -/
  clears : ∀ t, ∀ object ∈ s.clears t, s.holder object = none
  /-- A call that returns early has nothing entered. -/
  failing : ∀ t, ∀ f ∈ s.stack t, f.at_ = .failing → f.guards = []
  /-- All calls of a thread but the innermost are in the callee's code. -/
  outer : ∀ t, ∀ f ∈ (s.stack t).tail, ∃ entered, f.at_ = .running entered
  /-- A thread waits for no lock whose marker names it. -/
  waits : ∀ t, ∀ f ∈ s.stack t, ∀ object ∈ f.at_.waits, s.inside object ≠ some t

omit [DecidableEq Tid] [DecidableEq Obj] in
theorem sound_start : Sound (start : Entry Tid Obj) where
  locks := Held.start
  markers := Held.start
  clears _ _ h := by cases h
  failing _ _ h := by cases h
  outer _ _ h := by cases h
  waits _ _ h := by cases h

/-- What a thread's calls have to meet, given who has each lock and what each marker says. -/
structure Fits (holder inside : Obj → Option Tid) (t : Tid) (fs : List (Serve Obj)) : Prop where
  clears : ∀ object ∈ fs.flatMap (·.at_.clears), holder object = none
  failing : ∀ f ∈ fs, f.at_ = .failing → f.guards = []
  outer : ∀ f ∈ fs.tail, ∃ entered, f.at_ = .running entered
  waits : ∀ f ∈ fs, ∀ object ∈ f.at_.waits, inside object ≠ some t

omit [DecidableEq Tid] [DecidableEq Obj] in
theorem Sound.fits (h : s.Sound) (t : Tid) : Fits s.holder s.inside t (s.stack t) :=
  ⟨h.clears t, h.failing t, h.outer t, h.waits t⟩

variable {holder inside : Obj → Option Tid} {rest fs : List (Serve Obj)} {f : Serve Obj} {object : Obj}

omit [DecidableEq Tid] [DecidableEq Obj] in
theorem fits_running (h : ∀ f ∈ rest, ∃ entered, f.at_ = .running entered) : Fits holder inside t rest where
  clears object hobject := by
    obtain ⟨f, hf, hin⟩ := List.mem_flatMap.mp hobject
    obtain ⟨entered, hat⟩ := h f hf
    rw [hat] at hin
    cases hin
  failing f hf hfailing := by
    obtain ⟨entered, hat⟩ := h f hf
    rw [hat] at hfailing
    cases hfailing
  outer f hf := h f (List.mem_of_mem_tail hf)
  waits f hf object hobject := by
    obtain ⟨entered, hat⟩ := h f hf
    rw [hat] at hobject
    cases hobject

omit [DecidableEq Tid] [DecidableEq Obj] in
theorem fits_cons (h : ∀ f ∈ rest, ∃ entered, f.at_ = .running entered)
    (hclears : ∀ object ∈ f.at_.clears, holder object = none) (hfailing : f.at_ = .failing → f.guards = [])
    (hwaits : ∀ object ∈ f.at_.waits, inside object ≠ some t) :
    Fits holder inside t (f :: rest) := by
  have hrest : Fits holder inside t rest := fits_running h
  refine ⟨fun object hobject => ?_, ?_, h, ?_⟩
  · rcases List.mem_append.mp hobject with hin | hin
    · exact hclears object hin
    · exact hrest.clears object hin
  · exact List.forall_mem_cons.mpr ⟨hfailing, hrest.failing⟩
  · exact List.forall_mem_cons.mpr ⟨hwaits, hrest.waits⟩

omit [DecidableEq Tid] [DecidableEq Obj] in
theorem mem_marked_of_clears (h : object ∈ s.clears t) : object ∈ s.marked t := by
  obtain ⟨f, hf, hin⟩ := List.mem_flatMap.mp h
  refine List.mem_flatMap.mpr ⟨f, hf, List.mem_append_right _ ?_⟩
  revert hin
  cases f.at_ <;> simp [Serving.clears, Serving.marked]

omit [DecidableEq Obj] in
theorem sound_update {present : Obj → Bool}
    (hlocks : Held holder (Function.update s.held t (fs.flatMap Serve.held)))
    (hmarkers : Held inside (Function.update s.marked t (fs.flatMap Serve.marked)))
    (hfits : Fits holder inside t fs) (hothers : ∀ u, u ≠ t → Fits holder inside u (s.stack u)) :
    Sound ⟨holder, inside, present, Function.update s.stack t fs⟩ := by
  have hall : ∀ u, Fits holder inside u (Function.update s.stack t fs u) := by
    intro u
    by_cases hut : u = t
    · rw [hut, Function.update_self]
      exact hfits
    · rw [Function.update_of_ne hut]
      exact hothers u hut
  have hcomp : ∀ g : List (Serve Obj) → List Obj,
      (fun u => g (Function.update s.stack t fs u)) = Function.update (fun u => g (s.stack u)) t (g fs) :=
    fun g => Function.comp_update g s.stack t fs
  refine ⟨?_, ?_, fun u => (hall u).clears, fun u => (hall u).failing, fun u => (hall u).outer,
    fun u => (hall u).waits⟩
  · change Held holder fun u => (Function.update s.stack t fs u).flatMap Serve.held
    rw [hcomp (·.flatMap Serve.held)]
    exact hlocks
  · change Held inside fun u => (Function.update s.stack t fs u).flatMap Serve.marked
    rw [hcomp (·.flatMap Serve.marked)]
    exact hmarkers

omit [DecidableEq Obj] in
theorem Sound.move (h : s.Sound) {present : Obj → Bool} (hheld : (fs.flatMap Serve.held).Perm (s.held t))
    (hmarked : (fs.flatMap Serve.marked).Perm (s.marked t)) (hfits : Fits s.holder s.inside t fs) :
    Sound { s with present, stack := Function.update s.stack t fs } :=
  sound_update (h.locks.move hheld) (h.markers.move hmarked) hfits fun u _ => h.fits u

theorem Sound.takeLock (h : s.Sound) (hfree : s.holder object = none) (hclear : s.inside object = none)
    (hheld : (fs.flatMap Serve.held).Perm (object :: s.held t))
    (hmarked : (fs.flatMap Serve.marked).Perm (s.marked t))
    (hfits : Fits s.holder s.inside t fs) (hnot : object ∉ fs.flatMap (·.at_.clears)) :
    Sound { s with
      holder := Function.update s.holder object (some t)
      stack := Function.update s.stack t fs } := by
  refine sound_update (h.locks.take hfree hheld) (h.markers.move hmarked)
    ⟨fun o ho => ?_, hfits.failing, hfits.outer, hfits.waits⟩
    fun u _ => ⟨fun o ho => ?_, h.failing u, h.outer u, h.waits u⟩
  · have hne : o ≠ object := fun heq => hnot (heq ▸ ho)
    rw [Function.update_of_ne hne]
    exact hfits.clears o ho
  · have hne : o ≠ object := by
      rintro rfl
      have hin := mem_marked_of_clears ho
      rw [h.markers.holds, hclear] at hin
      cases hin
    rw [Function.update_of_ne hne]
    exact h.clears u o ho

theorem Sound.giveLock (h : s.Sound) (hheld : (s.held t).Perm (object :: fs.flatMap Serve.held))
    (hmarked : (fs.flatMap Serve.marked).Perm (s.marked t))
    (hfits : Fits (Function.update s.holder object none) s.inside t fs) :
    Sound { s with
      holder := Function.update s.holder object none
      stack := Function.update s.stack t fs } := by
  refine sound_update (h.locks.give hheld) (h.markers.move hmarked) hfits
    fun u _ => ⟨fun o ho => ?_, h.failing u, h.outer u, h.waits u⟩
  by_cases heq : o = object
  · rw [heq, Function.update_self]
  · rw [Function.update_of_ne heq]
    exact h.clears u o ho

theorem Sound.setMark (h : s.Sound)
    (hclear : s.inside object = none) (hheld : (fs.flatMap Serve.held).Perm (s.held t))
    (hmarked : (fs.flatMap Serve.marked).Perm (object :: s.marked t))
    (hfits : Fits s.holder (Function.update s.inside object (some t)) t fs) :
    Sound { s with
      inside := Function.update s.inside object (some t)
      stack := Function.update s.stack t fs } := by
  refine sound_update (h.locks.move hheld) (h.markers.take hclear hmarked) hfits
    fun u hut => ⟨h.clears u, h.failing u, h.outer u, fun f hf o ho => ?_⟩
  by_cases heq : o = object
  · rw [heq, Function.update_self]
    exact fun hsome => hut (Option.some.inj hsome).symm
  · rw [Function.update_of_ne heq]
    exact h.waits u f hf o ho

theorem Sound.clearMark (h : s.Sound) (hheld : (fs.flatMap Serve.held).Perm (s.held t))
    (hmarked : (s.marked t).Perm (object :: fs.flatMap Serve.marked))
    (hfits : Fits s.holder (Function.update s.inside object none) t fs) :
    Sound { s with
      inside := Function.update s.inside object none
      stack := Function.update s.stack t fs } := by
  refine sound_update (h.locks.move hheld) (h.markers.give hmarked) hfits
    fun u _ => ⟨h.clears u, h.failing u, h.outer u, fun f hf o ho => ?_⟩
  by_cases heq : o = object
  · rw [heq, Function.update_self]
    nofun
  · rw [Function.update_of_ne heq]
    exact h.waits u f hf o ho

omit [DecidableEq Tid] [DecidableEq Obj] in
theorem held_eq (h : s.stack t = f :: rest) :
    s.held t = f.held ++ rest.flatMap Serve.held := by
  rw [held, h, List.flatMap_cons]

omit [DecidableEq Tid] [DecidableEq Obj] in
theorem marked_eq (h : s.stack t = f :: rest) :
    s.marked t = f.marked ++ rest.flatMap Serve.marked := by
  rw [marked, h, List.flatMap_cons]

omit [DecidableEq Tid] [DecidableEq Obj] in
theorem clears_running
    (h : ∀ f ∈ rest, ∃ entered, f.at_ = .running entered) : rest.flatMap (·.at_.clears) = [] := by
  rw [List.flatMap_eq_nil_iff]
  intro f hf
  obtain ⟨entered, hat⟩ := h f hf
  rw [hat]
  rfl

omit [DecidableEq Tid] [DecidableEq Obj] in
theorem held_or_clears (h : s.Sound) (hin : s.inside object = some t) :
    s.holder object = some t ∨ s.holder object = none := by
  rw [← h.markers.holds] at hin
  obtain ⟨f, hf, hin⟩ := List.mem_flatMap.mp hin
  have hheld : object ∈ f.held ∨ object ∈ f.at_.clears := by
    revert hin
    cases hat : f.at_ with
    | running entered =>
      cases entered <;>
        simp [Serve.marked, Serve.held, hat, Serving.marked, Serving.held, Serving.clears]
    | _ =>
      simp +contextual [Serve.marked, Serve.held, hat, Serving.marked, Serving.held, Serving.clears]
  refine hheld.imp (fun hin => ?_) fun hin => ?_
  · exact (h.locks.holds t object).mp (List.mem_flatMap.mpr ⟨f, hf, hin⟩)
  · exact h.clears t object (List.mem_flatMap.mpr ⟨f, hf, hin⟩)

omit [DecidableEq Tid] [DecidableEq Obj] in
/-- The marker of a lock that has just been taken is clear: whoever it named would have the lock,
or be about to clear the marker. -/
theorem Sound.clear (h : s.Sound) (hstack : s.stack t = f :: rest) (hmarks : object ∈ f.at_.marks) :
    s.inside object = none := by
  have hat : f.at_.held = [object] ∧ f.at_.marked = [] := by
    revert hmarks
    cases f.at_ <;> simp [Serving.marks, Serving.held, Serving.marked]
  have hnodup := h.locks.nodup t
  rw [held_eq hstack, Serve.held, hat.1] at hnodup
  have hmine : s.holder object = some t := by
    rw [← h.locks.holds, held_eq hstack, Serve.held, hat.1]
    simp
  rw [Option.eq_none_iff_forall_ne_some]
  intro u hin
  have hut : u = t := by
    rcases held_or_clears h hin with hheld | hfree
    · exact Option.some.inj (hheld.symm.trans hmine)
    · rw [hfree] at hmine
      cases hmine
  rw [hut, ← h.markers.holds, marked_eq hstack, Serve.marked, hat.2] at hin
  have hrest : ∀ g ∈ rest, g.marked = g.held := by
    intro g hg
    obtain ⟨entered, hrunning⟩ := h.outer t g (by rw [hstack]; exact hg)
    rw [Serve.marked, Serve.held, hrunning]
    cases entered <;> rfl
  rw [List.flatMap_congr hrest] at hin
  simp only [List.append_nil, List.mem_append] at hin
  simp only [List.append_assoc, List.nodup_append, List.mem_append, List.mem_singleton] at hnodup
  rcases hin with hin | hin
  · exact hnodup.2.2 object hin object (Or.inl rfl) rfl
  · exact hnodup.2.1.2.2 object rfl object hin rfl

/-- Every access that is settled keeps the locks and markers sound. -/
theorem sound_next (h : s.Sound)
    (hstack : s.stack t = f :: rest) (hwaits : ∀ object ∈ f.at_.waits, s.inside object = none)
    (hearly : s.fails t f = true → f.guards = []) (hnext : s.next t f rest = some s') : s'.Sound := by
  have hrest : ∀ g ∈ rest, ∃ entered, g.at_ = .running entered := by
    have houter := h.outer t
    rw [hstack] at houter
    exact houter
  have hheld := held_eq hstack
  have hmarked := marked_eq hstack
  obtain ⟨ownLent, guards, callee, at_⟩ := f
  cases at_ with
  | entering =>
    simp only [next] at hnext
    split at hnext
    · next hfails =>
      cases hnext
      refine h.move (hheld ▸ .refl _) (hmarked ▸ .refl _) (fits_cons hrest (by nofun) (fun _ => hearly hfails) (by nofun))
    · next hfails =>
      split at hnext
      · next object more =>
        cases hnext
        refine h.move (hheld ▸ .refl _) (hmarked ▸ .refl _) (fits_cons hrest (by nofun) (by nofun) fun o ho => ?_)
        · cases ho
          simpa [fails] using hfails
      · cases hnext
        refine h.move (hheld ▸ .refl _) (hmarked ▸ .refl _) (fits_cons hrest (by nofun) (by nofun) (by nofun))
  | locking object =>
    simp only [next] at hnext
    split at hnext
    · next hfree =>
      cases hnext
      refine h.takeLock hfree (hwaits object rfl) ?_ ?_
        (fits_cons hrest (by nofun) (by nofun) (by nofun)) ?_
      · rw [hheld]
        simp [Serve.held, Serving.held]
      · rw [hmarked]
        rfl
      · rw [List.flatMap_cons, clears_running hrest]
        nofun
    · cases hnext
  | marking object =>
    cases hnext
    refine h.setMark (h.clear hstack rfl) ?_ ?_ (fits_cons hrest (by nofun) (by nofun) (by nofun))
    · rw [hheld]
      simp [Serve.held, Serving.held]
    · rw [hmarked]
      simp [Serve.marked, Serving.marked]
  | calling =>
    simp only [next] at hnext
    split at hnext
    · next object hcallee =>
      split at hnext
      · cases hnext
        refine h.move (hheld ▸ .refl _) (hmarked ▸ .refl _) (fits_cons hrest (by nofun) (by nofun) (by nofun))
      · next hother =>
        cases hnext
        refine h.move (hheld ▸ .refl _) (hmarked ▸ .refl _) (fits_cons hrest (by nofun) (by nofun) fun o ho => ?_)
        · cases ho
          exact hother
    · cases hnext
      refine h.move (hheld ▸ .refl _) (hmarked ▸ .refl _) (fits_cons hrest (by nofun) (by nofun) (by nofun))
  | lockingCallee object =>
    simp only [next] at hnext
    split at hnext
    · next hfree =>
      cases hnext
      refine h.takeLock hfree (hwaits object rfl) ?_ ?_
        (fits_cons hrest (by nofun) (by nofun) (by nofun)) ?_
      · rw [hheld]
        simp [Serve.held, Serving.held]
      · rw [hmarked]
        rfl
      · rw [List.flatMap_cons, clears_running hrest]
        nofun
    · cases hnext
  | markingCallee object =>
    cases hnext
    refine h.setMark (h.clear hstack rfl) ?_ ?_ (fits_cons hrest (by nofun) (by nofun) (by nofun))
    · rw [hheld]
      rfl
    · rw [hmarked]
      simp [Serve.marked, Serving.marked]
  | running entered => cases hnext
  | clearingCallee object =>
    cases hnext
    refine h.clearMark ?_ ?_ (fits_cons hrest (by nofun) (by nofun) (by nofun))
    · rw [hheld]
      rfl
    · rw [hmarked]
      simp [Serve.marked, Serving.marked]
  | leaving =>
    simp only [next] at hnext
    split at hnext
    · cases hnext
      refine h.move (hheld ▸ .refl _) (hmarked ▸ .refl _) (fits_running hrest)
    · next object guards =>
      cases hnext
      refine h.giveLock ?_ ?_ (fits_cons hrest (fun o ho => ?_) (by nofun) (by nofun))
      · rw [hheld]
        rfl
      · rw [hmarked]
        simp [Serve.marked, Serving.marked]
      · rw [List.mem_singleton.mp ho, Function.update_self]
  | clearing object =>
    cases hnext
    refine h.clearMark ?_ ?_ (fits_cons hrest (by nofun) (by nofun) (by nofun))
    · rw [hheld]
      rfl
    · rw [hmarked]
      simp [Serve.marked, Serving.marked]
  | failing =>
    have hnone := h.failing t _ (hstack ▸ List.mem_cons_self ..) rfl
    cases hnone
    cases hnext
    refine h.move (hheld ▸ .refl _) (hmarked ▸ .refl _) (fits_running hrest)

theorem sound_returns (h : s.Sound) {entered : Option Obj}
    (hstack : s.stack t = f :: rest) (hat : f.at_ = .running entered) :
    (s.ends t f rest entered false).Sound := by
  have hrest : ∀ g ∈ rest, ∃ entered, g.at_ = .running entered := by
    have houter := h.outer t
    rw [hstack] at houter
    exact houter
  have hheld := held_eq hstack
  have hmarked := marked_eq hstack
  obtain ⟨ownLent, guards, callee, at_⟩ := f
  cases hat
  cases entered with
  | none =>
    exact h.move (hheld ▸ .refl _) (hmarked ▸ .refl _)
      (fits_cons hrest (by nofun) (by nofun) (by nofun))
  | some object =>
    refine h.giveLock ?_ (hmarked ▸ .refl _) (fits_cons hrest (fun o ho => ?_) (by nofun) (by nofun))
    · rw [hheld]
      simp [Serve.held, Serving.held]
    · rw [List.mem_singleton.mp ho, Function.update_self]

theorem sound_step : Kept (only (fun s a => s.settled a = true) step)
    (Sound : Entry Tid Obj → Prop) := by
  intro s act s' h hstep
  obtain ⟨hsettled, hstep⟩ := only_eq_some.mp hstep
  cases act with
  | serve t ownLent callee =>
    simp only [step] at hstep
    split at hstep
    · next hcan =>
      cases hstep
      have hrunning : ∀ f ∈ s.stack t, ∃ entered, f.at_ = .running entered := by
        have houter := h.outer t
        cases hstack : s.stack t with
        | nil => nofun
        | cons f rest =>
          rw [hstack] at hcan houter
          refine List.forall_mem_cons.mpr ⟨?_, houter⟩
          simp only [canServe] at hcan
          split at hcan
          · next hat => exact ⟨none, hat⟩
          · next object hat => exact ⟨some object, hat⟩
          · cases hcan
      exact h.move (.refl _) (.refl _) (fits_cons hrunning (by nofun) (by nofun) (by nofun))
    · cases hstep
  | next t =>
    simp only [step] at hstep
    cases hstack : s.stack t with
    | nil =>
      rw [hstack] at hstep
      cases hstep
    | cons f rest =>
      simp only [hstack] at hstep
      simp only [settled, hstack, Bool.and_eq_true, Bool.or_eq_true, Bool.not_eq_true',
        List.isEmpty_iff, Option.all_eq_true, decide_eq_true_eq] at hsettled
      exact sound_next h hstack hsettled.1
        (fun hfails => hsettled.2.resolve_left (by rw [hfails]; decide)) hstep
  | returns t =>
    simp only [step] at hstep
    split at hstep
    · next hstack =>
      cases hstep
      exact sound_returns h hstack rfl
    · cases hstep
  | panics t =>
    simp only [step] at hstep
    split at hstep
    · next hstack =>
      cases hstep
      simp only [settled, hstack, Bool.and_eq_true, List.isEmpty_iff, decide_eq_true_eq,
        Serving.running.injEq] at hsettled
      obtain ⟨rfl, rfl⟩ := hsettled
      have hrest := h.outer t
      rw [hstack] at hrest
      exact h.move (held_eq hstack ▸ .refl _) (marked_eq hstack ▸ .refl _)
        (fits_cons hrest (by nofun) (fun _ => rfl) (by nofun))
    · cases hstep
  | takeExport object =>
    simp only [step] at hstep
    split at hstep
    · cases hstep
      exact ⟨h.locks, h.markers, h.clears, h.failing, h.outer, h.waits⟩
    · cases hstep

/-- What a marker is for. -/
structure Exact (s : Entry Tid Obj) : Prop where
  /-- A marker names the thread that has the object's lock for a call, but while that thread is
  between its access to the one and its access to the other. -/
  names : ∀ t object, (∀ f ∈ s.stack t, object ∉ f.at_.marks ∧ object ∉ f.at_.clears) →
    (s.inside object = some t ↔ s.holder object = some t)
  /-- A thread about to enter an object is refused just where it has the object's lock. -/
  refused : ∀ t, ∀ f ∈ (s.stack t).head?, ∀ object ∈ f.about,
    (s.inside object = some t ↔ s.holder object = some t)
  /-- No thread waits for a lock it has. -/
  waits : ∀ t, ∀ f ∈ s.stack t, ∀ object ∈ f.at_.waits, s.holder object ≠ some t
  /-- A marker names a thread only for a call it is still serving, which entered the object. -/
  left : ∀ t object, s.inside object = some t → ∃ f ∈ s.stack t, object ∈ f.marked

omit [DecidableEq Tid] [DecidableEq Obj] in
theorem Sound.names (h : s.Sound)
    (hbetween : ∀ f ∈ s.stack t, object ∉ f.at_.marks ∧ object ∉ f.at_.clears) :
    s.inside object = some t ↔ s.holder object = some t := by
  rw [← h.markers.holds, ← h.locks.holds, marked, held, List.mem_flatMap, List.mem_flatMap]
  refine exists_congr fun f => and_congr_right fun hf => ?_
  obtain ⟨hmarks, hclears⟩ := hbetween f hf
  revert hmarks hclears
  rw [Serve.marked, Serve.held, List.mem_append, List.mem_append]
  cases f.at_ with
  | running entered => cases entered <;> simp [Serving.marked, Serving.held]
  | _ =>
    simp +contextual [Serving.marked, Serving.held, Serving.marks, Serving.clears, eq_comm]

omit [DecidableEq Tid] [DecidableEq Obj] in
theorem Sound.between (h : s.Sound)
    (hstack : s.stack t = f :: rest) (hmarks : object ∉ f.at_.marks) (hclears : object ∉ f.at_.clears) :
    ∀ g ∈ s.stack t, object ∉ g.at_.marks ∧ object ∉ g.at_.clears := by
  have houter := h.outer t
  rw [hstack] at houter ⊢
  refine List.forall_mem_cons.mpr ⟨⟨hmarks, hclears⟩, fun g hg => ?_⟩
  obtain ⟨entered, hat⟩ := houter g hg
  rw [hat]
  exact ⟨nofun, nofun⟩

omit [DecidableEq Tid] [DecidableEq Obj] in
theorem Sound.exact (h : s.Sound) : s.Exact where
  names t object hbetween := h.names hbetween
  refused t f hf object habout := by
    obtain ⟨rest, hstack⟩ := List.head?_eq_some_iff.mp hf
    have hat : object ∉ f.at_.marks ∧ object ∉ f.at_.clears := by
      revert habout
      unfold Serve.about
      cases f.at_ <;> simp [Serving.marks, Serving.clears]
    exact h.names (h.between hstack hat.1 hat.2)
  waits t f hf object hwaits hheld := by
    have hat : object ∉ f.at_.marks ∧ object ∉ f.at_.clears := by
      revert hwaits
      cases f.at_ <;> simp [Serving.waits, Serving.marks, Serving.clears]
    cases hstack : s.stack t with
    | nil =>
      rw [hstack] at hf
      cases hf
    | cons g rest =>
      have hhead : f = g := by
        rw [hstack] at hf
        rcases List.mem_cons.mp hf with heq | hin
        · exact heq
        · obtain ⟨entered, hrunning⟩ := h.outer t f (by rw [hstack]; exact hin)
          rw [hrunning] at hwaits
          cases hwaits
      have hin := (h.names (h.between hstack (hhead ▸ hat.1) (hhead ▸ hat.2))).mpr hheld
      exact h.waits t f hf object hwaits hin
  left t object hin := by
    rw [← h.markers.holds] at hin
    exact List.mem_flatMap.mp hin

/-- In every run in which no lock is taken whose marker is yet to be cleared, and no call returns
early or unwinds with an object entered, the markers are exact in every state it comes to. -/
theorem markers_exact {acts : List (Act Tid Obj)}
    (hrun : run (only (fun s a => s.settled a = true) step) start acts = some s) : s.Exact :=
  (sound_step.run sound_start hrun).exact

/-- A thread serves a call on an object, which calls itself: the second call is refused, and both
return. -/
def callsItself : List (Act Bool Unit) :=
  [.serve true [] (.owned ()), .next true, .next true, .next true, .next true,
    .serve true [] (.owned ()), .next true, .next true, .next true,
    .returns true, .next true, .next true]

theorem markers_exact_callsItself : ∃ s : Entry Bool Unit,
    run (only (fun s a => s.settled a = true) step) start callsItself = some s ∧ s.Exact := by
  obtain ⟨s, hrun⟩ : ∃ s, run (only (fun (s : Entry Bool Unit) a => s.settled a = true) step) start
      callsItself = some s := ⟨_, rfl⟩
  exact ⟨s, hrun, markers_exact hrun⟩

/-- A thread gives an object's lock up, another takes it and sets the marker, and the first one
clears it: the second is inside and not named, and waits for its own lock when it calls the object
again. -/
theorem marker_cleared_by_another : ∃ s : Entry Bool Unit,
    run step start
      [.serve true [] (.owned ()), .next true, .next true, .next true, .next true,
        .serve false [] (.owned ()), .next false, .next false,
        .returns true, .next false, .next false, .next true,
        .serve false [] (.owned ()), .next false, .next false] = some s ∧
    s.holder () = some false ∧ s.inside () = none ∧ ¬ s.Exact := by
  obtain ⟨s, hrun⟩ : ∃ s : Entry Bool Unit, run step start
      [.serve true [] (.owned ()), .next true, .next true, .next true, .next true,
        .serve false [] (.owned ()), .next false, .next false,
        .returns true, .next false, .next false, .next true,
        .serve false [] (.owned ()), .next false, .next false] = some s := ⟨_, rfl⟩
  have hholder : s.holder () = some false := by
    cases hrun
    rfl
  have hinside : s.inside () = none := by
    cases hrun
    rfl
  refine ⟨s, hrun, hholder, hinside, fun h => ?_⟩
  have hwaits : ∃ f ∈ s.stack false, () ∈ f.at_.waits := by
    cases hrun
    exact ⟨_, List.mem_cons_self .., rfl⟩
  obtain ⟨f, hf, hin⟩ := hwaits
  exact h.waits false f hf () hin hholder

end Entry

end Guatiao.Link
