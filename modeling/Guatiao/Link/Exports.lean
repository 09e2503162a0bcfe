import Guatiao.Link.State
import Guatiao.Lib.Machine

/-!
# The objects held for the peer

Any number of threads export objects, look them up for a call, let them go and take them
back, and the link may end between any two of their steps. An id names one object for
good: it is given once, and whoever still holds the object under it after it left the
table reaches that object and no other.
-/

namespace Guatiao.Link

open Lib

variable {Tid Obj : Type} [DecidableEq Tid]

/-- The table, the cells of the owned objects and the threads that use them, with what has
come of each id. -/
structure Holding (Tid Obj : Type) where
  state : State Unit Unit Obj
  /-- What the owned object exported under an id holds, wherever it is held. -/
  cell : ℕ → Option Obj
  /-- The exports a thread has looked up and not let go of. -/
  looked : Tid → List (ℕ × Export Obj)
  /-- The owned exports a thread has taken out of the table, with their cells to empty yet. -/
  taking : Tid → List ℕ
  /-- The ids given, and to what. -/
  given : List (ℕ × Obj)
  /-- The ids that have left the table. -/
  left : List ℕ
  /-- The calls made on an object under an id. -/
  called : List (ℕ × Obj)
  /-- The objects taken back under an id. -/
  taken : List (ℕ × Obj)

/-- A step of a thread at the table. -/
inductive HoldAct (Tid Obj : Type)
  /-- An object is handed over, answered, or lent for a call. -/
  | «export» (owned : Bool) (object : Obj)
  /-- A RELEASE of the peer's, or a clean-up of this side's. -/
  | unexport (id : ℕ)
  /-- An object handed over in a call that will not take it. -/
  | letGo (id : ℕ)
  /-- `take_export` up to the end of its lock section. -/
  | take (t : Tid) (id : ℕ)
  /-- `take_export` empties the cell. -/
  | takeCell (t : Tid) (id : ℕ)
  /-- A CALL, or an argument of one, finds the object. -/
  | look (t : Tid) (id : ℕ)
  /-- The object found is called. -/
  | call (t : Tid) (id : ℕ)
  /-- The thread is done with the object it found. -/
  | done (t : Tid) (id : ℕ)
  /-- The link ends. -/
  | finish

/-- The id a step is about. -/
def HoldAct.id : HoldAct Tid Obj → Option ℕ
  | .export _ _ | .finish => none
  | .unexport id | .letGo id | .take _ id | .takeCell _ id | .look _ id | .call _ id
  | .done _ id => some id

namespace Holding

/-- A link that has just started. -/
def start : Holding Tid Obj := ⟨.new, fun _ => none, fun _ => [], fun _ => [], [], [], [], []⟩

/-- `export` of an object the peer is to hold. -/
def «export» (s : Holding Tid Obj) (owned : Bool) (object : Obj) : Holding Tid Obj :=
  match s.state.export (if owned then .owned else .lent object) with
  | none => s
  | some (id, state) =>
    { s with
      state
      cell := if owned then Function.update s.cell id (some object) else s.cell
      given := s.given ++ [(id, object)] }

/-- `unexport`, noting the id that left. -/
def unexport (s : Holding Tid Obj) (id : ℕ) : Holding Tid Obj :=
  { s with
    state := (s.state.unexport id).2
    left := s.left ++ ((s.state.exports.get id).map fun _ => id).toList }

/-- `let_go` of an object of this side's. -/
def letGo (s : Holding Tid Obj) (id : ℕ) : Holding Tid Obj :=
  { s with
    state := s.state.letGo id
    left := s.left ++ (match s.state.exports.get id with
      | some .owned => [id]
      | _ => []) }

/-- The lock section of `take_export`: a lent one is refused, and has left the table too. -/
def take (s : Holding Tid Obj) (t : Tid) (id : ℕ) : Holding Tid Obj :=
  match s.state.exports.get id with
  | some .owned => { s.unexport id with taking := Function.update s.taking t (id :: s.taking t) }
  | _ => s.unexport id

/-- `take_export` takes what the cell holds. -/
def takeCell (s : Holding Tid Obj) (t : Tid) (id : ℕ) : Holding Tid Obj :=
  { s with
    cell := Function.update s.cell id none
    taking := Function.update s.taking t ((s.taking t).erase id)
    taken := s.taken ++ ((s.cell id).map fun object => (id, object)).toList }

/-- The object a thread has found, where there is one still. -/
def object (s : Holding Tid Obj) (id : ℕ) : Export Obj → Option Obj
  | .owned => s.cell id
  | .lent handle => some handle

/-- One step. -/
def step (s : Holding Tid Obj) (act : HoldAct Tid Obj) : Option (Holding Tid Obj) :=
  match act with
  | .export owned object => some (s.export owned object)
  | .unexport id => some (s.unexport id)
  | .letGo id => some (s.letGo id)
  | .take t id => some (s.take t id)
  | .takeCell t id => if id ∈ s.taking t then some (s.takeCell t id) else none
  | .look t id =>
    (s.state.exports.get id).map fun e =>
      { s with looked := Function.update s.looked t ((id, e) :: s.looked t) }
  | .call t id =>
    (AssocList.get id (s.looked t)).map fun e =>
      { s with called := s.called ++ ((s.object id e).map fun object => (id, object)).toList }
  | .done t id =>
    some { s with looked := Function.update s.looked t ((s.looked t).filter (·.1 ≠ id)) }
  | .finish => some { s with state := s.state.finish, left := s.left ++ s.state.exports.keys }

/-- What holds between any two steps. -/
structure Sound (s : Holding Tid Obj) : Prop where
  /-- The ids given are 1, 2, 3 and so on. -/
  ids : s.given.map Prod.fst = List.range' 1 s.state.nextExport
  /-- What is in the table was given, and has not left. -/
  table : ∀ id e, s.state.exports.get id = some e → id ∉ s.left ∧ ∃ object, (id, object) ∈ s.given
  lent : ∀ id object, s.state.exports.get id = some (.lent object) → (id, object) ∈ s.given
  cells : ∀ id object, s.cell id = some object → (id, object) ∈ s.given
  looked_lent : ∀ t id object, (id, Export.lent object) ∈ s.looked t → (id, object) ∈ s.given
  left_nodup : s.left.Nodup
  left_given : ∀ id ∈ s.left, ∃ object, (id, object) ∈ s.given
  called_given : ∀ p ∈ s.called, p ∈ s.given
  taken_given : ∀ p ∈ s.taken, p ∈ s.given ∧ s.cell p.1 = none
  taken_nodup : (s.taken.map Prod.fst).Nodup
  ended : s.state.alive = false → s.state.exports = .empty

omit [DecidableEq Tid] in
theorem sound_start : Sound (start : Holding Tid Obj) where
  ids := rfl
  table := nofun
  lent := nofun
  cells := nofun
  looked_lent := nofun
  left_nodup := .nil
  left_given := nofun
  called_given := nofun
  taken_given := nofun
  taken_nodup := .nil
  ended := nofun

variable {s s' : Holding Tid Obj}

omit [DecidableEq Tid] in
theorem Sound.le_next (h : Sound s) {id : ℕ} {object : Obj} (hgiven : (id, object) ∈ s.given) :
    id ≤ s.state.nextExport := by
  have hmem := List.mem_map_of_mem (f := Prod.fst) hgiven
  rw [h.ids, List.mem_range'_1] at hmem
  omega

omit [DecidableEq Tid] in
/-- A new id for an object, which is in the table now. -/
theorem sound_export (h : Sound s) (owned : Bool) (object : Obj) : Sound (s.export owned object) := by
  cases halive : s.state.alive with
  | false =>
    have hrefused : s.export owned object = s := by
      simp only [«export», State.export, halive, Bool.false_eq_true, if_false]
    rwa [hrefused]
  | true =>
    have hdone : s.export owned object = { s with
        state := { s.state with
          nextExport := s.state.nextExport + 1
          exports := s.state.exports.insert (s.state.nextExport + 1)
            (if owned then .owned else .lent object) }
        cell := if owned then Function.update s.cell (s.state.nextExport + 1) (some object) else s.cell
        given := s.given ++ [(s.state.nextExport + 1, object)] } := by
      simp only [«export», State.export, halive, if_true]
    have hold : ∀ {p : ℕ × Obj}, p ∈ s.given → p ∈ s.given ++ [(s.state.nextExport + 1, object)] :=
      fun hp => List.mem_append_left _ hp
    have hnew : (s.state.nextExport + 1, object) ∈ s.given ++ [(s.state.nextExport + 1, object)] :=
      List.mem_append_right _ (List.mem_singleton_self _)
    rw [hdone]
    refine ⟨?_, fun id e he => ?_, fun id o he => ?_, fun id o ho => ?_,
      fun t id o ho => hold (h.looked_lent t id o ho), h.left_nodup, fun id hid => ?_,
      fun p hp => hold (h.called_given p hp), fun p hp => ⟨hold (h.taken_given p hp).1, ?_⟩,
      h.taken_nodup, fun hended => ?_⟩
    · simp only [List.map_append, h.ids, List.map_cons, List.map_nil]
      rw [List.range'_concat, Nat.one_mul, Nat.add_comm 1]
    · simp only [SortedMap.get_insert] at he
      split at he
      · next hid =>
        subst hid
        refine ⟨fun hleft => ?_, object, hnew⟩
        obtain ⟨o, ho⟩ := h.left_given _ hleft
        have := h.le_next ho
        omega
      · obtain ⟨hnot, o, ho⟩ := h.table id e he
        exact ⟨hnot, o, hold ho⟩
    · simp only [SortedMap.get_insert] at he
      split at he
      · next hid =>
        subst hid
        cases owned with
        | true => cases he
        | false =>
          cases he
          exact hnew
      · exact hold (h.lent id o he)
    · cases owned with
      | false => exact hold (h.cells id o ho)
      | true =>
        by_cases hid : id = s.state.nextExport + 1
        · subst hid
          simp only [if_true, Function.update_self, Option.some.injEq] at ho
          rw [← ho]
          exact hnew
        · simp only [if_true, Function.update_of_ne hid] at ho
          exact hold (h.cells id o ho)
    · obtain ⟨o, ho⟩ := h.left_given id hid
      exact ⟨o, hold ho⟩
    · obtain ⟨hgiven, hcell⟩ := h.taken_given p hp
      have hne : p.1 ≠ s.state.nextExport + 1 := by
        have := h.le_next hgiven
        omega
      cases owned with
      | true => simpa only [if_true, Function.update_of_ne hne] using hcell
      | false => exact hcell
    · rw [halive] at hended
      cases hended

omit [DecidableEq Tid] in
theorem sound_unexport (h : Sound s) (id : ℕ) : Sound (s.unexport id) := by
  have hget : ∀ {k : ℕ} {e : Export Obj}, (s.state.exports.remove id).get k = some e →
      k ≠ id ∧ s.state.exports.get k = some e := by
    intro k e he
    rw [SortedMap.get_remove] at he
    split at he
    · cases he
    · next hk => exact ⟨hk, he⟩
  refine ⟨h.ids, fun k e he => ?_, fun k o he => h.lent k o (hget he).2, h.cells, h.looked_lent,
    ?_, fun k hk => ?_, h.called_given, h.taken_given, h.taken_nodup, fun hended => ?_⟩
  · obtain ⟨hne, he⟩ := hget he
    obtain ⟨hnot, hgiven⟩ := h.table k e he
    refine ⟨fun hleft => ?_, hgiven⟩
    rcases List.mem_append.mp hleft with hleft | hleft
    · exact hnot hleft
    · rw [Option.mem_toList, Option.map_eq_some_iff] at hleft
      obtain ⟨-, -, rfl⟩ := hleft
      exact hne rfl
  · refine List.nodup_append.mpr ⟨h.left_nodup, ?_, fun k hk k' hk' heq => ?_⟩
    · cases s.state.exports.get id with
      | none => exact .nil
      | some e => exact List.nodup_singleton id
    · rw [Option.mem_toList, Option.map_eq_some_iff] at hk'
      obtain ⟨e, he, rfl⟩ := hk'
      exact (h.table _ e he).1 (heq ▸ hk)
  · rcases List.mem_append.mp hk with hk | hk
    · exact h.left_given k hk
    · rw [Option.mem_toList, Option.map_eq_some_iff] at hk
      obtain ⟨e, he, rfl⟩ := hk
      exact (h.table _ e he).2
  · have hnone := h.ended hended
    simp only [unexport, State.unexport, hnone]
    rfl

omit [DecidableEq Tid] in
theorem sound_letGo (h : Sound s) (id : ℕ) : Sound (s.letGo id) := by
  cases he : s.state.exports.get id with
  | none =>
    have hsame : s.letGo id = s := by
      simp only [letGo, State.letGo, he, List.append_nil]
    rwa [hsame]
  | some e =>
    cases e with
    | owned =>
      have hgone : s.letGo id = s.unexport id := by
        simp only [letGo, State.letGo, unexport, he, Option.map_some, Option.toList_some]
      rw [hgone]
      exact sound_unexport h id
    | lent o =>
      have hsame : s.letGo id = s := by
        simp only [letGo, State.letGo, he, List.append_nil]
      rwa [hsame]

theorem sound_take (h : Sound s) (t : Tid) (id : ℕ) : Sound (s.take t id) := by
  have hleft := sound_unexport h id
  unfold take
  split
  · exact ⟨hleft.ids, hleft.table, hleft.lent, hleft.cells, hleft.looked_lent, hleft.left_nodup,
      hleft.left_given, hleft.called_given, hleft.taken_given, hleft.taken_nodup, hleft.ended⟩
  · exact hleft

theorem sound_takeCell (h : Sound s) (t : Tid) (id : ℕ) : Sound (s.takeCell t id) := by
  refine ⟨h.ids, h.table, h.lent, fun k o ho => ?_, h.looked_lent, h.left_nodup, h.left_given,
    h.called_given, fun p hp => ?_, ?_, h.ended⟩
  · by_cases hk : k = id
    · simp only [takeCell, hk, Function.update_self] at ho
      cases ho
    · simp only [takeCell, Function.update_of_ne hk] at ho
      exact h.cells k o ho
  · rcases List.mem_append.mp hp with hp | hp
    · refine ⟨(h.taken_given p hp).1, ?_⟩
      by_cases hk : p.1 = id
      · simp only [takeCell, hk, Function.update_self]
      · simp only [takeCell, Function.update_of_ne hk]
        exact (h.taken_given p hp).2
    · rw [Option.mem_toList, Option.map_eq_some_iff] at hp
      obtain ⟨o, ho, rfl⟩ := hp
      exact ⟨h.cells id o ho, Function.update_self ..⟩
  · simp only [takeCell, List.map_append]
    refine List.nodup_append.mpr ⟨h.taken_nodup, ?_, fun k hk k' hk' heq => ?_⟩
    · cases s.cell id with
      | none => exact .nil
      | some o => exact List.nodup_singleton id
    · obtain ⟨p, hp, rfl⟩ := List.mem_map.mp hk
      obtain ⟨q, hq, rfl⟩ := List.mem_map.mp hk'
      rw [Option.mem_toList, Option.map_eq_some_iff] at hq
      obtain ⟨o, ho, rfl⟩ := hq
      have hnone := (h.taken_given p hp).2
      rw [heq] at hnone
      rw [hnone] at ho
      cases ho

omit [DecidableEq Tid] in
theorem Sound.object_given (h : Sound s) {t : Tid} {id : ℕ} {e : Export Obj}
    (he : (id, e) ∈ s.looked t) {o : Obj} (ho : s.object id e = some o) : (id, o) ∈ s.given := by
  cases e with
  | owned => exact h.cells id o ho
  | lent handle =>
    obtain rfl : handle = o := Option.some.inj ho
    exact h.looked_lent t id handle he

omit [DecidableEq Tid] in
theorem sound_finish (h : Sound s) :
    Sound { s with state := s.state.finish, left := s.left ++ s.state.exports.keys } := by
  have hempty : s.state.finish.exports = .empty := by
    cases halive : s.state.alive with
    | true => simp only [State.finish, halive, if_true]
    | false => simp only [State.finish, halive, Bool.false_eq_true, if_false, h.ended halive]
  have hnext : s.state.finish.nextExport = s.state.nextExport := by
    unfold State.finish
    split <;> rfl
  have hnone : ∀ {id : ℕ} {e : Export Obj}, s.state.finish.exports.get id ≠ some e := by
    intro id e
    rw [hempty, SortedMap.get_empty]
    exact nofun
  refine ⟨?_, fun id e he => absurd he hnone, fun id o ho => absurd ho hnone, h.cells,
    h.looked_lent, ?_, fun id hid => ?_, h.called_given, h.taken_given, h.taken_nodup,
    fun _ => hempty⟩
  · rw [hnext]
    exact h.ids
  · refine List.nodup_append.mpr ⟨h.left_nodup, SortedMap.nodup_keys _, fun k hk k' hk' heq => ?_⟩
    obtain ⟨e, he⟩ := SortedMap.mem_keys_iff.mp hk'
    exact (h.table k' e he).1 (heq ▸ hk)
  · rcases List.mem_append.mp hid with hid | hid
    · exact h.left_given id hid
    · obtain ⟨e, he⟩ := SortedMap.mem_keys_iff.mp hid
      exact (h.table id e he).2

theorem sound_step : Kept step fun s : Holding Tid Obj => Sound s := by
  intro s act s' h hstep
  cases act with
  | «export» owned object =>
    cases hstep
    exact sound_export h owned object
  | unexport id =>
    cases hstep
    exact sound_unexport h id
  | letGo id =>
    cases hstep
    exact sound_letGo h id
  | take t id =>
    cases hstep
    exact sound_take h t id
  | takeCell t id =>
    simp only [step] at hstep
    split at hstep <;> cases hstep
    exact sound_takeCell h t id
  | look t id =>
    obtain ⟨e, he, rfl⟩ := Option.map_eq_some_iff.mp hstep
    refine ⟨h.ids, h.table, h.lent, h.cells, fun u k o ho => ?_, h.left_nodup, h.left_given,
      h.called_given, h.taken_given, h.taken_nodup, h.ended⟩
    by_cases hu : u = t
    · subst hu
      simp only [Function.update_self] at ho
      rcases List.mem_cons.mp ho with heq | ho
      · simp only [Prod.mk.injEq] at heq
        rw [heq.1]
        exact h.lent id o (heq.2 ▸ he)
      · exact h.looked_lent u k o ho
    · simp only [Function.update_of_ne hu] at ho
      exact h.looked_lent u k o ho
  | call t id =>
    obtain ⟨e, he, rfl⟩ := Option.map_eq_some_iff.mp hstep
    refine ⟨h.ids, h.table, h.lent, h.cells, h.looked_lent, h.left_nodup, h.left_given,
      fun p hp => ?_, h.taken_given, h.taken_nodup, h.ended⟩
    rcases List.mem_append.mp hp with hp | hp
    · exact h.called_given p hp
    · rw [Option.mem_toList, Option.map_eq_some_iff] at hp
      obtain ⟨o, ho, rfl⟩ := hp
      exact h.object_given (AssocList.mem_of_get he) ho
  | done t id =>
    cases hstep
    refine ⟨h.ids, h.table, h.lent, h.cells, fun u k o ho => ?_, h.left_nodup, h.left_given,
      h.called_given, h.taken_given, h.taken_nodup, h.ended⟩
    by_cases hu : u = t
    · subst hu
      simp only [Function.update_self] at ho
      exact h.looked_lent u k o (List.mem_of_mem_filter ho)
    · simp only [Function.update_of_ne hu] at ho
      exact h.looked_lent u k o ho
  | finish =>
    cases hstep
    exact sound_finish h

/-- A step about one id leaves every other id's object where it is. -/
theorem step_frame {act : HoldAct Tid Obj} (hstep : step s act = some s') {n : ℕ}
    (hact : act.id = some n) {m : ℕ} (hne : m ≠ n) :
    s'.state.exports.get m = s.state.exports.get m ∧ s'.cell m = s.cell m := by
  have hunexport : (s.unexport n).state.exports.get m = s.state.exports.get m :=
    SortedMap.get_remove_of_ne hne _
  cases act with
  | «export» owned object => cases hact
  | finish => cases hact
  | unexport id =>
    cases hact
    cases hstep
    exact ⟨hunexport, rfl⟩
  | letGo id =>
    cases hact
    cases hstep
    refine ⟨?_, rfl⟩
    simp only [letGo, State.letGo]
    split
    · exact hunexport
    · rfl
  | take t id =>
    cases hact
    cases hstep
    unfold take
    split
    · exact ⟨hunexport, rfl⟩
    · exact ⟨hunexport, rfl⟩
  | takeCell t id =>
    cases hact
    simp only [step] at hstep
    split at hstep <;> cases hstep
    exact ⟨rfl, Function.update_of_ne hne ..⟩
  | look t id =>
    obtain ⟨e, he, rfl⟩ := Option.map_eq_some_iff.mp hstep
    exact ⟨rfl, rfl⟩
  | call t id =>
    obtain ⟨e, he, rfl⟩ := Option.map_eq_some_iff.mp hstep
    exact ⟨rfl, rfl⟩
  | done t id =>
    cases hstep
    exact ⟨rfl, rfl⟩

theorem step_ended (hended : s.state.alive = false) {act : HoldAct Tid Obj}
    (hstep : step s act = some s') : s'.state.alive = false ∧ s'.given = s.given := by
  cases act with
  | «export» owned object =>
    cases hstep
    simp only [«export», State.export, hended, Bool.false_eq_true, if_false, and_self]
  | unexport id =>
    cases hstep
    exact ⟨hended, rfl⟩
  | letGo id =>
    cases hstep
    refine ⟨?_, rfl⟩
    simp only [letGo, State.letGo]
    split <;> exact hended
  | take t id =>
    cases hstep
    unfold take
    split <;> exact ⟨hended, rfl⟩
  | takeCell t id =>
    simp only [step] at hstep
    split at hstep <;> cases hstep
    exact ⟨hended, rfl⟩
  | look t id =>
    obtain ⟨e, he, rfl⟩ := Option.map_eq_some_iff.mp hstep
    exact ⟨hended, rfl⟩
  | call t id =>
    obtain ⟨e, he, rfl⟩ := Option.map_eq_some_iff.mp hstep
    exact ⟨hended, rfl⟩
  | done t id =>
    cases hstep
    exact ⟨hended, rfl⟩
  | finish =>
    cases hstep
    simp only [State.finish, hended, Bool.false_eq_true, if_false, and_self]

/-- Whatever the threads do and whenever the link ends: an id is given once; what is called,
taken back or in the table under an id is what the id was given to; a step about one id
leaves the others' objects alone; an id leaves the table once and is not seen there again;
and once the link has ended the table is empty and no id is given any more. -/
theorem ids_never_confused {acts : List (HoldAct Tid Obj)} (h : run step start acts = some s) :
    (s.given.map Prod.fst).Nodup ∧
      (∀ id e, s.state.exports.get id = some e → ∃ object, (id, object) ∈ s.given) ∧
      (∀ p ∈ s.called, p ∈ s.given) ∧ (∀ p ∈ s.taken, p ∈ s.given) ∧
      (∀ act s' n, step s act = some s' → act.id = some n → ∀ m, m ≠ n →
        s'.state.exports.get m = s.state.exports.get m ∧ s'.cell m = s.cell m) ∧
      s.left.Nodup ∧ (∀ id ∈ s.left, s.state.exports.get id = none) ∧
      (s.taken.map Prod.fst).Nodup ∧
      (s.state.alive = false → s.state.exports = .empty ∧ ∀ more s', run step s more = some s' →
        s'.state.exports = .empty ∧ s'.given = s.given) := by
  have hsound := sound_step.run sound_start h
  refine ⟨?_, fun id e he => (hsound.table id e he).2, hsound.called_given,
    fun p hp => (hsound.taken_given p hp).1, fun act s' n hstep hact m hne =>
      step_frame hstep hact hne, hsound.left_nodup, fun id hid => ?_, hsound.taken_nodup,
    fun hended => ⟨hsound.ended hended, fun more s' hmore => ?_⟩⟩
  · rw [hsound.ids]
    exact List.nodup_range'
  · cases he : s.state.exports.get id with
    | none => rfl
    | some e => exact absurd hid (hsound.table id e he).1
  · have hkept : Kept step fun u : Holding Tid Obj =>
        Sound u ∧ u.state.alive = false ∧ u.given = s.given := by
      intro u act u' hu hstep
      obtain ⟨halive, hgiven⟩ := step_ended hu.2.1 hstep
      exact ⟨sound_step _ _ _ hu.1 hstep, halive, hgiven.trans hu.2.2⟩
    obtain ⟨hsound', halive', hgiven'⟩ := hkept.run ⟨hsound, hended, rfl⟩ hmore
    exact ⟨hsound'.ended halive', hgiven'⟩

/-- Two objects handed over, one called and released, the other taken back as the link ends. -/
private def handedOver : List (HoldAct ℕ String) :=
  [.export true "a", .export true "b", .look 0 1, .unexport 1, .call 0 1, .take 1 2, .finish,
    .takeCell 1 2, .export true "c"]

theorem ids_never_confused_ended : ∃ s : Holding ℕ String, run step start handedOver = some s ∧
    s.called = [(1, "a")] ∧ s.taken = [(2, "b")] ∧ (s.given.map Prod.fst).Nodup :=
  ⟨_, rfl, rfl, rfl, (ids_never_confused (show run step start handedOver = some _ from rfl)).1⟩

end Holding

end Guatiao.Link
