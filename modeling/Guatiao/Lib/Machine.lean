import Mathlib.Algebra.Order.Group.Nat
import Mathlib.Logic.Function.Basic
import Mathlib.Order.Basic

/-!
# Machines that take steps

Many threads move one state; an action names who moves and settles whatever the step
leaves open. A machine is given by what one action does where it can happen, a run by
the actions taken. A property one action preserves holds along every run, also where
the actions are restricted to those that meet a condition.
-/

namespace Guatiao.Lib

variable {S A : Type*}

/-- The state a run of actions comes to, where every action can happen. -/
def run (step : S → A → Option S) : S → List A → Option S
  | s, [] => some s
  | s, a :: rest => (step s a).bind fun s' => run step s' rest

variable {step : S → A → Option S} {s s' : S} {a : A} {acts : List A}

@[simp] theorem run_nil : run step s [] = some s := rfl

theorem run_cons : run step s (a :: acts) = some s' ↔
    ∃ m, step s a = some m ∧ run step m acts = some s' := by
  simp only [run, Option.bind_eq_some_iff]

theorem run_append {more : List A} : run step s (acts ++ more) = some s' ↔
    ∃ m, run step s acts = some m ∧ run step m more = some s' := by
  induction acts generalizing s with
  | nil => simp only [List.nil_append, run_nil, Option.some.injEq, exists_eq_left']
  | cons a rest ih =>
    simp only [List.cons_append, run_cons, ih]
    constructor
    · rintro ⟨m, hstep, m', hrest, hmore⟩
      exact ⟨m', ⟨m, hstep, hrest⟩, hmore⟩
    · rintro ⟨m', ⟨m, hstep, hrest⟩, hmore⟩
      exact ⟨m, hstep, m', hrest, hmore⟩

/-- No action takes a state out of `P`. -/
def Kept (step : S → A → Option S) (P : S → Prop) : Prop :=
  ∀ s a s', P s → step s a = some s' → P s'

variable {P : S → Prop} {C : S → A → Prop}

theorem Kept.run (hkept : Kept step P) (hs : P s) (h : run step s acts = some s') : P s' := by
  induction acts generalizing s with
  | nil =>
    cases h
    exact hs
  | cons a rest ih =>
    obtain ⟨m, hstep, hrest⟩ := run_cons.mp h
    exact ih (hkept s a m hs hstep) hrest

theorem Kept.and {Q : S → Prop} (hkept : Kept step P)
    (h : ∀ s a s', P s → Q s → step s a = some s' → Q s') :
    Kept step fun s => P s ∧ Q s :=
  fun s a s' hs hstep => ⟨hkept s a s' hs.1 hstep, h s a s' hs.1 hs.2 hstep⟩

/-- The machine that takes only the actions meeting a condition where they are taken. -/
def only (C : S → A → Prop) [∀ s a, Decidable (C s a)] (step : S → A → Option S) (s : S) (a : A) :
    Option S :=
  if C s a then step s a else none

theorem only_eq_some [∀ s a, Decidable (C s a)] :
    only C step s a = some s' ↔ C s a ∧ step s a = some s' := by
  unfold only
  split
  · next h => simp only [h, true_and]
  · next h => simp only [h, false_and, reduceCtorEq]

theorem run_of_only [∀ s a, Decidable (C s a)]
    (h : run (only C step) s acts = some s') : run step s acts = some s' := by
  induction acts generalizing s with
  | nil => exact h
  | cons a rest ih =>
    obtain ⟨m, hstep, hrest⟩ := run_cons.mp h
    exact run_cons.mpr ⟨m, (only_eq_some.mp hstep).2, ih hrest⟩

theorem Kept.only (hkept : Kept step P) (C : S → A → Prop)
    [∀ s a, Decidable (C s a)] : Kept (only C step) P :=
  fun s a s' hs hstep => hkept s a s' hs (only_eq_some.mp hstep).2

/-- Where a property goes on holding exactly as a condition is met, it holds all along a run exactly
when every action of the run meets the condition. -/
theorem all_prefixes_iff [∀ s a, Decidable (C s a)]
    (hiff : ∀ s a s', P s → step s a = some s' → (P s' ↔ C s a)) (hs : P s)
    (h : run step s acts = some s') :
    (∀ before after m, acts = before ++ after → run step s before = some m → P m) ↔
      run (only C step) s acts = some s' := by
  induction acts generalizing s with
  | nil =>
    obtain rfl := Option.some.inj h
    simp only [run_nil, iff_true]
    intro before after m hacts hbefore
    obtain ⟨rfl, rfl⟩ := List.append_eq_nil_iff.mp hacts.symm
    obtain rfl := Option.some.inj hbefore
    exact hs
  | cons a rest ih =>
    obtain ⟨m, hstep, hrest⟩ := run_cons.mp h
    constructor
    · intro hall
      have hm : P m := hall [a] rest m rfl (run_cons.mpr ⟨m, hstep, rfl⟩)
      refine run_cons.mpr ⟨m, only_eq_some.mpr ⟨(hiff s a m hs hstep).mp hm, hstep⟩, ?_⟩
      apply (ih hm hrest).mp
      intro before after t hacts hbefore
      exact hall (a :: before) after t (by rw [hacts, List.cons_append])
        (run_cons.mpr ⟨m, hstep, hbefore⟩)
    · intro honly before after t hacts hbefore
      obtain ⟨m', hstep', hrest'⟩ := run_cons.mp honly
      obtain ⟨hC, hstep'⟩ := only_eq_some.mp hstep'
      obtain rfl := Option.some.inj (hstep.symm.trans hstep')
      cases before with
      | nil =>
        obtain rfl := Option.some.inj hbefore
        exact hs
      | cons b before =>
        obtain ⟨rfl, hrest''⟩ := List.cons.inj hacts
        obtain ⟨m', hstep', hbefore⟩ := run_cons.mp hbefore
        obtain rfl := Option.some.inj (hstep.symm.trans hstep')
        have hm := (hiff s a m hs hstep).mpr hC
        exact (ih hm hrest).mpr hrest' before after t hrest'' hbefore

section Answering

variable {T O : Type*}

/-- What a machine answers to one action after another. -/
def answers (step : S → A → O × S) : S → List A → List O
  | _, [] => []
  | s, a :: rest => (step s a).1 :: answers step (step s a).2 rest

/-- The state after some actions. -/
def after (step : S → A → O × S) (s : S) (acts : List A) : S :=
  acts.foldl (fun s a => (step s a).2) s

theorem answers_eq {step : S → A → O × S} {step' : T → A → O × T} {R : S → T → Prop}
    (h : ∀ s t a, R s t → (step s a).1 = (step' t a).1 ∧ R (step s a).2 (step' t a).2)
    {s : S} {t : T} (hR : R s t) (acts : List A) :
    answers step s acts = answers step' t acts ∧ R (after step s acts) (after step' t acts) := by
  induction acts generalizing s t with
  | nil => exact ⟨rfl, hR⟩
  | cons a rest ih =>
    obtain ⟨hanswer, hnext⟩ := h s t a hR
    obtain ⟨hrest, hafter⟩ := ih hnext
    exact ⟨by rw [answers, answers, hanswer, hrest], hafter⟩

end Answering

end Guatiao.Lib

/-!
## Executions that leave nobody waiting

An infinite execution of a machine whose actions are each a party's, or nobody's. It is
fair when no party that can always go on from some moment is passed over for ever. What
a party brings nearer with each of its steps, and no other party's step puts off, comes.
-/

namespace Guatiao.Lib

variable {S A W : Type*} {step : S → A → Option S} {states : ℕ → S} {acts : ℕ → A}

/-- The states an infinite sequence of actions goes through. -/
def Execution (step : S → A → Option S) (states : ℕ → S) (acts : ℕ → A) : Prop :=
  ∀ n, step (states n) (acts n) = some (states (n + 1))

theorem Execution.kept {P : S → Prop} (h : Execution step states acts) (hkept : Kept step P)
    (hstart : P (states 0)) (n : ℕ) : P (states n) := by
  induction n with
  | zero => exact hstart
  | succ n ih => exact hkept _ _ _ ih (h n)

/-- A party that can go on from some moment for ever goes on. -/
def Fair (goes : S → W → Prop) (owner : A → Option W) (states : ℕ → S) (acts : ℕ → A) : Prop :=
  ∀ w n, (∀ m, n ≤ m → goes (states m) w) → ∃ m, n ≤ m ∧ owner (acts m) = some w

variable {goes : S → W → Prop} {owner : A → Option W}

/-- Progress by steps of helping parties: `P r w s` says that `r` is left to do in `s` and
that `w` helps. Whoever else takes a step leaves that so or brings the goal nearer, and a
step of `w` brings it nearer. -/
theorem Fair.leads (hfair : Fair goes owner states acts) (h : Execution step states acts)
    {P : ℕ → W → S → Prop} {Q : S → Prop} (hgoes : ∀ r w s, P r w s → goes s w)
    (hother : ∀ r w s a s', P r w s → step s a = some s' → owner a ≠ some w →
      P r w s' ∨ Q s' ∨ ∃ r' w', r' < r ∧ P r' w' s')
    (hown : ∀ r w s a s', P r w s → step s a = some s' → owner a = some w →
      Q s' ∨ ∃ r' w', r' < r ∧ P r' w' s')
    {r : ℕ} {w : W} {n : ℕ} (hn : P r w (states n)) : ∃ m, n ≤ m ∧ Q (states m) := by
  induction r using Nat.strongRecOn generalizing w n with
  | ind r ih =>
    by_contra hnever
    have hlater : ∀ m, n ≤ m → ¬ (Q (states m) ∨ ∃ r' w', r' < r ∧ P r' w' (states m)) := by
      intro m hm
      rintro (hq | ⟨r', w', hr, hp⟩)
      · exact hnever ⟨m, hm, hq⟩
      · obtain ⟨m', hm', hq⟩ := ih r' hr hp
        exact hnever ⟨m', hm.trans hm', hq⟩
    have hstays : ∀ d, P r w (states (n + d)) := by
      intro d
      induction d with
      | zero => exact hn
      | succ d hd =>
        have hnot := hlater (n + (d + 1)) (by omega)
        by_cases hw : owner (acts (n + d)) = some w
        · exact absurd (hown r w _ _ _ hd (h (n + d)) hw) hnot
        · rcases hother r w _ _ _ hd (h (n + d)) hw with hp | hgoal
          · exact hp
          · exact absurd hgoal hnot
    obtain ⟨m, hm, hw⟩ := hfair w n fun m hm => by
      have := hstays (m - n)
      rw [Nat.add_sub_cancel' hm] at this
      exact hgoes r w _ this
    have hp := hstays (m - n)
    rw [Nat.add_sub_cancel' hm] at hp
    exact hlater (m + 1) (by omega) (hown r w _ _ _ hp (h m) hw)

end Guatiao.Lib
