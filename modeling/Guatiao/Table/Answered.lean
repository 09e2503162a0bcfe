import Guatiao.Table.Called

/-!
# What an answer says, written and read back

What an answer says is told apart from how it is held, so that what the caller gets can be compared
with what the handler answered. Every slot's answer is written as what it says, or refused as the
slot refuses it.
-/

namespace Guatiao.Table

open Remote (Scalar Tree Pass ArgType AnswerType)

/-- What an answer says, wherever it is held. -/
inductive Meaning
  | nothing
  | flag (b : Bool)
  | number (z : ℤ)
  | float (bits : UInt64)
  | text (t : String)
  | tree (v : Value)
  | map (entries : Entries)
  | list (items : List Value)
  | object (o : ObjectRaw)

def Answer.meaning : Answer → Meaning
  | .nothing => .nothing
  | .bool b => .flag b
  | .int n => .number n
  | .uint n => .number n
  | .float bits => .float bits
  | .text t => .text t
  | .value v => .tree v.held
  | .map m => .map m.held
  | .list l => .list l.held
  | .object o => .object o

/-- What is said as a number of an integer type. -/
def Meaning.asInt (t : IntType) : Meaning → Except Status Meaning
  | .number z => if t.Holds z then .ok (.number z) else .error .badValue
  | .tree v => ((t.fromValue v).map .number).mapError fun _ => .badValue
  | _ => .error .wrongKind

/-- What is said as a flag. -/
def Meaning.asFlag : Meaning → Except Status Meaning
  | .flag b => .ok (.flag b)
  | .tree (.bool b) => .ok (.flag b)
  | .tree _ => .error .badValue
  | _ => .error .wrongKind

/-- What is said as a float. -/
def Meaning.asFloat (floats : Floats) (round : UInt64 → UInt64) : Meaning → Except Status Meaning
  | .float bits => .ok (.float (round bits))
  | .number z => .ok (.float (round (floats.ofInt z)))
  | .tree v => (floats.fromValue v).elim (.error .badValue) fun bits => .ok (.float (round bits))
  | _ => .error .wrongKind

/-- What is said as text. -/
def Meaning.asText : Meaning → Except Status Meaning
  | .text t => .ok (.text t)
  | .tree (.string t) => .ok (.text t)
  | _ => .error .wrongKind

/-- What is said as a tree of any kind. -/
def Meaning.asTree (floats : Floats) : Meaning → Except Status Meaning
  | .tree v => .ok (.tree v)
  | .flag b => .ok (.tree (.bool b))
  | .number z => .ok (.tree (.number (.ofInt z)))
  | .float bits =>
    ((floats.toNumber bits).map fun n => .tree (.number n)).mapError fun r => r.error.status
  | .text t => .ok (.tree (.string t))
  | .map entries => .ok (.tree (.map entries))
  | .list items => .ok (.tree (.list items))
  | _ => .error .wrongKind

/-- What is said as a map. -/
def Meaning.asMap : Meaning → Except Status Meaning
  | .map entries => .ok (.map entries)
  | .tree (.map entries) => .ok (.map entries)
  | _ => .error .wrongKind

/-- What is said as a list. -/
def Meaning.asList : Meaning → Except Status Meaning
  | .list items => .ok (.list items)
  | .tree (.list items) => .ok (.list items)
  | _ => .error .wrongKind

/-- What is said as an object. -/
def Meaning.asObject : Meaning → Except Status Meaning
  | .object o => .ok (.object o)
  | _ => .error .wrongKind

/-- What a slot makes of what its handler says: the same, or why not. -/
def takes (floats : Floats) (ty : Option AnswerType) (m : Meaning) : Except Status Meaning :=
  match ty with
  | none => .ok .nothing
  | some (.scalar .bool) => m.asFlag
  | some (.scalar .f32) => m.asFloat floats fun bits => floats.widen (floats.narrow bits)
  | some (.scalar .f64) => m.asFloat floats id
  | some (.scalar s) => (intType? s).elim (.error .unsupported) m.asInt
  | some .text => m.asText
  | some (.tree .value) => m.asTree floats
  | some (.tree .map) => m.asMap
  | some (.tree .list) => m.asList
  | some (.object _) => m.asObject

/-- What a caller is given: a sensitive slot's text as a value. -/
def given (ty : Option AnswerType) (sensitive : Bool) (m : Meaning) : Meaning :=
  match ty, sensitive, m with
  | some .text, true, .text t => .tree (.string t)
  | _, _, m => m

section Move

variable {w : World} {α : Type} {n : Node α} {home : Alloc}

/-- A tree is where its caller asked, or the allocator there takes its copy. -/
def Movable (w : World) (n : Node α) (home : Alloc) : Prop :=
  n.allocs.all (· = home) = true ∨ w.refuses n.block home = none

theorem moved_ok (h : Movable w n home) :
    ∃ n', (moved w n home).1 = .ok n' ∧ n'.held = n.held ∧ n'.keysAreText = n.keysAreText ∧
      n'.allocs.all (· = home) = true := by
  unfold moved
  by_cases hall : n.allocs.all (· = home) = true
  · rw [if_pos hall]
    exact ⟨n, rfl, rfl, rfl, hall⟩
  · rw [if_neg hall, h.resolve_left hall]
    exact ⟨_, rfl, rfl, rfl, by simp⟩

theorem moved_error (h : ¬ Movable w n home) :
    ∃ e, (moved w n home).1 = .error e ∧ e.status ≠ .ok := by
  obtain ⟨hall, hrefuses⟩ := not_or.mp h
  obtain ⟨refusal, hrefusal⟩ := Option.ne_none_iff_exists'.mp hrefuses
  exact ⟨refusal.error, by rw [moved, if_neg hall, hrefusal], refusal.failed⟩

theorem moved_again (h : n.allocs.all (· = home) = true) : moved w n home = (.ok n, []) :=
  if_pos h

end Move

section Written

variable {w : World} {ty : Option AnswerType} {sensitive : Bool} {a : Answer}

/-- The allocator an answer is asked in. -/
def homeOf (sensitive : Bool) : Alloc := if sensitive then .wiping else .rust

/-- The map an answer holds, whatever its keys are. -/
def Answer.mapOf : Answer → Option (Node Entries)
  | .map m => some m
  | .value v => v.held.asMap.map fun entries => { v with held := entries }
  | _ => none

/-- The list an answer holds. -/
def Answer.listOf : Answer → Option (Node (List Value))
  | .list l => some l
  | .value v => v.list?
  | _ => none

/-- The tree an answer is can be moved where its caller asked, a map's keys being text. -/
def Fetched (w : World) (ty : Option AnswerType) (sensitive : Bool) (a : Answer) : Prop :=
  match ty with
  | some (.tree .value) =>
    ∀ n events, asValue w.floats a = .ok (n, events) → Movable w n (homeOf sensitive)
  | some (.tree .map) =>
    ∀ m, a.mapOf = some m → m.keysAreText = true ∧ Movable w m (homeOf sensitive)
  | some (.tree .list) => ∀ l, a.listOf = some l → Movable w l (homeOf sensitive)
  | _ => True

/-- What is written for an answer is read back as what the handler said, or the answer is refused as
the slot refuses it. -/
structure WrittenAs (w : World) (ty : Option AnswerType) (sensitive : Bool) (a : Answer)
    (initial : Out) (written : Written) : Prop where
  taken : ∀ m, takes w.floats ty a.meaning = .ok m → Fetched w ty sensitive a →
    written.result = .ok .ok ∧
      ∃ b, ((written.out.getD initial).intoAnswer w (homeOf sensitive)).1 = .ok b ∧
        b.meaning = given ty sensitive m
  unfetched : ∀ m, takes w.floats ty a.meaning = .ok m → ¬ Fetched w ty sensitive a →
    ∃ e, written.result = .error e ∧ e.status ≠ .ok
  refused : ∀ status, takes w.floats ty a.meaning = .error status →
    ∃ e, written.result = .error e ∧ e.status = status

/-- A conversion of the code agrees with what it is for: both succeed, and their results are related,
or both are refused with one status. -/
inductive Agree {α β : Type} (R : α → β → Prop) :
    Except ProviderError α → Except Status β → Prop
  | ok {a : α} {b : β} (h : R a b) : Agree R (.ok a) (.ok b)
  | error {e : ProviderError} {status : Status} (h : e.status = status) :
      Agree R (.error e) (.error status)

theorem Agree.map {α α' β : Type} {R : α → β → Prop} {R' : α' → β → Prop} {f : α → α'}
    {x : Except ProviderError α} {y : Except Status β} (h : Agree R x y)
    (hf : ∀ a b, R a b → R' (f a) b) : Agree R' (x.map f) y := by
  cases h with
  | ok h => exact .ok (hf _ _ h)
  | error h => exact .error h

theorem number_agrees (t : IntType) (s : Scalar) (a : Answer) :
    Agree (fun z m => t.Holds z ∧ m = .number z) (number t s a) (a.meaning.asInt t) := by
  have hint (z : ℤ) : Agree (fun z m => t.Holds z ∧ m = .number z)
      ((t.tryFrom z).elim (.error (outOfRange s)) .ok) ((Meaning.number z).asInt t) := by
    by_cases hz : t.Holds z
    · rw [Meaning.asInt, if_pos hz, tryFrom_eq_some hz]
      exact .ok ⟨hz, rfl⟩
    · rw [Meaning.asInt, if_neg hz, tryFrom_eq_none hz]
      exact .error rfl
  cases a with
  | int n => exact hint n
  | uint n => exact hint n
  | value v =>
    simp only [Answer.meaning, Meaning.asInt, number]
    cases hv : t.fromValue v.held with
    | ok z => exact .ok ⟨IntType.holds_of_fromValue hv, rfl⟩
    | error e => exact .error rfl
  | _ => exact .error rfl

theorem float_agrees (floats : Floats) (s : Scalar) (round : UInt64 → UInt64) (a : Answer) :
    Agree (fun bits m => m = .float (round bits)) (float floats s a)
      (a.meaning.asFloat floats round) := by
  cases a with
  | float bits => exact .ok rfl
  | int n => exact .ok rfl
  | uint n => exact .ok rfl
  | value v =>
    simp only [Answer.meaning, Meaning.asFloat, float]
    cases floats.fromValue v.held with
    | some bits => exact .ok rfl
    | none => exact .error rfl
  | _ => exact .error rfl

/-- What is read back from the storage of an answer. -/
def ReadsAs (w : World) (sensitive : Bool) (ty : Option AnswerType) (o : Out) (m : Meaning) : Prop :=
  ∃ b, (o.intoAnswer w (homeOf sensitive)).1 = .ok b ∧ b.meaning = given ty sensitive m

theorem meaning_int {t : IntType} {z : ℤ} (h : t.Holds z) :
    (if t.signed then Answer.int z else .uint z.toNat).meaning = .number z := by
  cases hs : t.signed with
  | true => rfl
  | false =>
    have hz : 0 ≤ z := by simpa [IntType.least, hs] using h.1
    simp [Answer.meaning, Int.toNat_of_nonneg hz]

theorem scalarOut_agrees (s : Scalar) (a : Answer) :
    Agree (ReadsAs w sensitive (some (.scalar s))) (scalarOut w.floats s a)
      (takes w.floats (some (.scalar s)) a.meaning) := by
  have hint (t : IntType) (hs : intType? s = some t) :
      Agree (ReadsAs w sensitive (some (.scalar s))) ((number t s a).map (.int t))
        (a.meaning.asInt t) := by
    apply (number_agrees t s a).map
    rintro z m ⟨hz, rfl⟩
    exact ⟨_, rfl, meaning_int hz⟩
  cases s with
  | bool =>
    cases a with
    | bool b => exact .ok ⟨_, rfl, rfl⟩
    | value v =>
      simp only [takes, Answer.meaning, scalarOut]
      cases hv : v.held with
      | bool b => exact .ok ⟨_, rfl, rfl⟩
      | _ => exact .error rfl
    | _ => exact .error rfl
  | f32 =>
    apply (float_agrees w.floats .f32 _ a).map
    rintro bits m rfl
    exact ⟨_, rfl, rfl⟩
  | f64 =>
    apply (float_agrees w.floats .f64 _ a).map
    rintro bits m rfl
    exact ⟨_, rfl, rfl⟩
  | i128 => exact .error rfl
  | u128 => exact .error rfl
  | i8 => exact hint _ rfl
  | i16 => exact hint _ rfl
  | i32 => exact hint _ rfl
  | i64 => exact hint _ rfl
  | isize => exact hint _ rfl
  | u8 => exact hint _ rfl
  | u16 => exact hint _ rfl
  | u32 => exact hint _ rfl
  | u64 => exact hint _ rfl
  | usize => exact hint _ rfl

theorem textOut_agrees (a : Answer) :
    Agree (ReadsAs w sensitive (some .text)) (textOut sensitive a)
      (takes w.floats (some .text) a.meaning) := by
  have hread (t : String) :
      ReadsAs w sensitive (some .text) (.text t (homeOf sensitive)) (.text t) := by
    cases sensitive with
    | false => exact ⟨.text t, rfl, rfl⟩
    | true =>
      refine ⟨.value (built [.wiping] (.string t)), ?_, rfl⟩
      simp [Out.intoAnswer, homeOf, wrapped, moved, built]
  have htext : Agree (fun t m => m = .text t) (text a) a.meaning.asText := by
    cases a with
    | text t => exact .ok rfl
    | value v =>
      simp only [Answer.meaning, text]
      cases v.held with
      | string t => exact .ok rfl
      | _ => exact .error rfl
    | _ => exact .error rfl
  apply htext.map
  rintro t m rfl
  exact hread t

theorem writtenAs_converted {carried : Option Alloc} {initial : Out}
    {v : Except ProviderError Out} (hfetched : Fetched w ty sensitive a)
    (h : Agree (ReadsAs w sensitive ty) v (takes w.floats ty a.meaning)) :
    WrittenAs w ty sensitive a initial (writeConverted (some carried) a v) := by
  generalize htakes : takes w.floats ty a.meaning = taken at h
  cases h with
  | ok h =>
    obtain ⟨b, hb, hmeaning⟩ := h
    refine ⟨fun m hm _ => ?_, fun m _ hnot => absurd hfetched hnot, fun status hs => ?_⟩
    · rw [htakes] at hm
      cases hm
      exact ⟨rfl, b, hb, hmeaning⟩
    · rw [htakes] at hs
      cases hs
  | error h =>
    refine ⟨fun m hm => ?_, fun m hm => ?_, fun status hs => ?_⟩
    · rw [htakes] at hm
      cases hm
    · rw [htakes] at hm
      cases hm
    · rw [htakes] at hs
      cases hs
      exact ⟨_, rfl, h⟩

theorem writtenAs_refused {initial : Out} {e : ProviderError} {events : List Event}
    (h : takes w.floats ty a.meaning = .error e.status) :
    WrittenAs w ty sensitive a initial ⟨.error e, none, events⟩ := by
  refine ⟨fun m hm => ?_, fun m hm => ?_, fun status hs => ?_⟩
  · rw [h] at hm
    cases hm
  · rw [h] at hm
    cases hm
  · rw [h] at hs
    cases hs
    exact ⟨e, rfl, rfl⟩

/-- How a tree is moved into its home: where it can be, it holds what it held and stays there. -/
structure Moves {α : Type} (w : World) (home : Alloc)
    (move : Node α → Alloc → Except ProviderError (Node α) × List Event) (n : Node α)
    (can : Prop) : Prop where
  moved : can → ∃ n', (move n home).1 = .ok n' ∧ n'.held = n.held ∧ (move n' home).1 = .ok n'
  refused : ¬ can → ∃ e, (move n home).1 = .error e ∧ e.status ≠ .ok

theorem moves_moved {α : Type} (home : Alloc) (n : Node α) :
    Moves w home (moved w) n (Movable w n home) where
  moved h := by
    obtain ⟨n', hn', hheld, -, hall⟩ := moved_ok h
    exact ⟨n', hn', hheld, by rw [moved_again hall]⟩
  refused := moved_error

theorem moves_movedMap (home : Alloc) (m : Node Entries) :
    Moves w home (movedMap w) m (m.keysAreText = true ∧ Movable w m home) where
  moved h := by
    obtain ⟨n', hn', hheld, hkeys, hall⟩ := moved_ok h.2
    refine ⟨n', by rw [movedMap, if_pos h.1, hn'], hheld, ?_⟩
    rw [movedMap, if_pos (hkeys.trans h.1), moved_again hall]
  refused hnot := by
    by_cases hkeys : m.keysAreText = true
    · rw [movedMap, if_pos hkeys]
      exact moved_error fun h => hnot ⟨hkeys, h⟩
    · rw [movedMap, if_neg hkeys]
      exact ⟨_, rfl, by decide⟩

theorem writtenAs_tree {α : Type} {home : Alloc} {initial : Out} {n : Node α} {m : Meaning}
    {move : Node α → Alloc → Except ProviderError (Node α) × List Event} {wrap : Node α → Out}
    {fallback : Alloc} {before : List Event} (unwrap : Node α → Answer)
    (hhome : home = homeOf sensitive) (hgiven : given ty sensitive m = m)
    (htakes : takes w.floats ty a.meaning = .ok m)
    (hmoves : Moves w home move n (Fetched w ty sensitive a))
    (hinto : ∀ n, (wrap n).intoAnswer w home = wrapped unwrap (move n home))
    (hmeaning : ∀ n', n'.held = n.held → (unwrap n').meaning = m) :
    WrittenAs w ty sensitive a initial
      { writeTree (some (some home)) fallback n move wrap with
        events := before ++ (writeTree (some (some home)) fallback n move wrap).events } := by
  subst hhome
  refine ⟨fun m' hm hfetched => ?_, fun m' hm hnot => ?_, fun status hs => ?_⟩
  · rw [htakes] at hm
    cases hm
    obtain ⟨n', hn', hheld, hagain⟩ := hmoves.moved hfetched
    simp only [writeTree, returnAllocOr, Option.getD_some]
    rw [show move n (homeOf sensitive) = (.ok n', (move n (homeOf sensitive)).2) from
      Prod.ext hn' rfl]
    refine ⟨rfl, unwrap n', ?_, by rw [hgiven, hmeaning n' hheld]⟩
    rw [Option.getD_some, hinto, wrapped, hagain]
    rfl
  · obtain ⟨e, he, hstatus⟩ := hmoves.refused hnot
    simp only [writeTree, returnAllocOr, Option.getD_some]
    rw [show move n (homeOf sensitive) = (.error e, (move n (homeOf sensitive)).2) from
      Prod.ext he rfl]
    exact ⟨e, rfl, hstatus⟩
  · rw [htakes] at hs
    cases hs

theorem Moves.congr {α : Type} {home : Alloc} {n : Node α} {can can' : Prop}
    {move : Node α → Alloc → Except ProviderError (Node α) × List Event}
    (h : Moves w home move n can) (hcan : can ↔ can') : Moves w home move n can' :=
  ⟨fun h' => h.moved (hcan.mpr h'), fun h' => h.refused fun hc => h' (hcan.mp hc)⟩

theorem nil_append_events (written : Written) :
    { written with events := [] ++ written.events } = written := rfl

theorem writtenAs_map (initial : Out) :
    WrittenAs w (some (.tree .map)) sensitive a initial
      (writeAnswer w (some (.tree .map)) sensitive a (some (some (homeOf sensitive)))) := by
  have hmap (m : Node Entries) (hm : a.mapOf = some m)
      (hmeaning : takes w.floats (some (.tree .map)) a.meaning = .ok (.map m.held)) :
      WrittenAs w (some (.tree .map)) sensitive a initial
        (writeTree (some (some (homeOf sensitive))) (if sensitive then .wiping else .rust) m
          (movedMap w) .map) := by
    rw [← nil_append_events (writeTree _ _ _ _ _)]
    have hcan : (m.keysAreText = true ∧ Movable w m (homeOf sensitive)) ↔
        Fetched w (some (.tree .map)) sensitive a := by
      simp only [Fetched, hm]
      exact ⟨fun h m' hm' => Option.some.inj hm' ▸ h, fun h => h m rfl⟩
    apply writtenAs_tree .map rfl rfl hmeaning ((moves_movedMap _ m).congr hcan)
    · exact fun n => rfl
    · intro n' hn'
      simp [Answer.meaning, hn']
  cases a with
  | map m => exact hmap m rfl rfl
  | value v =>
    simp only [writeAnswer]
    cases hv : v.held with
    | map entries =>
      have hof : (Answer.value v).mapOf = some { v with held := entries } := by
        simp [Answer.mapOf, hv, Value.asMap]
      by_cases hkeys : v.keysAreText = true
      · have hsome : v.map? = some { v with held := entries } := by
          simp [Node.map?, hkeys, hv, Value.asMap]
        rw [hsome]
        exact hmap _ hof (by simp [takes, Answer.meaning, hv, Meaning.asMap])
      · have hnone : v.map? = none := by simp [Node.map?, hkeys]
        have hnot : ¬ Fetched w (some (.tree .map)) sensitive (.value v) :=
          fun h => hkeys (h _ hof).1
        rw [hnone]
        refine ⟨fun m _ h => absurd h hnot, fun m _ _ => ⟨_, rfl, by decide⟩, fun status hs => ?_⟩
        simp [takes, Answer.meaning, hv, Meaning.asMap] at hs
    | _ =>
      have hnone : v.map? = none := by simp [Node.map?, hv, Value.asMap]
      rw [hnone]
      apply writtenAs_refused
      simp [takes, Answer.meaning, hv, Meaning.asMap]
  | _ => exact writtenAs_refused rfl

theorem writtenAs_list (initial : Out) :
    WrittenAs w (some (.tree .list)) sensitive a initial
      (writeAnswer w (some (.tree .list)) sensitive a (some (some (homeOf sensitive)))) := by
  have hlist (l : Node (List Value)) (hl : a.listOf = some l)
      (hmeaning : takes w.floats (some (.tree .list)) a.meaning = .ok (.list l.held)) :
      WrittenAs w (some (.tree .list)) sensitive a initial
        (writeTree (some (some (homeOf sensitive))) (if sensitive then .wiping else .rust) l
          (moved w) .list) := by
    rw [← nil_append_events (writeTree _ _ _ _ _)]
    have hcan : Movable w l (homeOf sensitive) ↔ Fetched w (some (.tree .list)) sensitive a := by
      simp only [Fetched, hl]
      exact ⟨fun h l' hl' => Option.some.inj hl' ▸ h, fun h => h l rfl⟩
    apply writtenAs_tree .list rfl rfl hmeaning ((moves_moved _ l).congr hcan)
    · exact fun n => rfl
    · intro n' hn'
      simp [Answer.meaning, hn']
  cases a with
  | list l => exact hlist l rfl rfl
  | value v =>
    simp only [writeAnswer]
    cases hv : v.held with
    | list items =>
      have hsome : v.list? = some { v with held := items } := by
        simp [Node.list?, hv, Value.asList]
      rw [hsome]
      exact hlist _ hsome (by simp [takes, Answer.meaning, hv, Meaning.asList])
    | _ =>
      have hnone : v.list? = none := by simp [Node.list?, hv, Value.asList]
      rw [hnone]
      apply writtenAs_refused
      simp [takes, Answer.meaning, hv, Meaning.asList]
  | _ => exact writtenAs_refused rfl

theorem asValue_agrees (floats : Floats) (a : Answer) :
    Agree (fun made m => m = .tree made.1.held) (asValue floats a)
      (takes floats (some (.tree .value)) a.meaning) := by
  cases a with
  | float bits =>
    simp only [asValue, Answer.meaning, takes, Meaning.asTree]
    cases floats.toNumber bits with
    | ok n => exact .ok rfl
    | error refusal => exact .error rfl
  | nothing => exact .error rfl
  | object o => exact .error rfl
  | _ => exact .ok rfl

theorem writtenAs_value (initial : Out) :
    WrittenAs w (some (.tree .value)) sensitive a initial
      (writeAnswer w (some (.tree .value)) sensitive a (some (some (homeOf sensitive)))) := by
  have hagree := asValue_agrees w.floats a
  simp only [writeAnswer]
  generalize hv : asValue w.floats a = made at hagree
  generalize htakes : takes w.floats (some (.tree .value)) a.meaning = taken at hagree
  cases hagree with
  | @ok made m h =>
    obtain ⟨n, events⟩ := made
    subst h
    have hcan : Movable w n (homeOf sensitive) ↔ Fetched w (some (.tree .value)) sensitive a := by
      simp only [Fetched, hv]
      constructor
      · intro h n' events' heq
        cases heq
        exact h
      · exact fun h => h n events rfl
    apply writtenAs_tree .value rfl rfl htakes ((moves_moved _ n).congr hcan)
    · exact fun n => rfl
    · intro n' hn'
      simp [Answer.meaning, hn']
  | error h =>
    apply writtenAs_refused
    rw [h]
    exact htakes

theorem writtenAs_writeAnswer {initial : Out}
    (hinitial : Out.forAnswer ty (homeOf sensitive) = .ok initial) :
    WrittenAs w ty sensitive a initial (writeAnswer w ty sensitive a
      (if ty.isSome then some (carriedBy ty (homeOf sensitive)) else none)) := by
  cases ty with
  | none =>
    cases hinitial
    refine ⟨fun m hm _ => ?_, fun m _ hnot => absurd trivial hnot, fun status hs => ?_⟩
    · cases hm
      exact ⟨rfl, .nothing, rfl, rfl⟩
    · cases hs
  | some ty =>
    cases ty with
    | scalar s => exact writtenAs_converted trivial (scalarOut_agrees s a)
    | text => exact writtenAs_converted trivial (textOut_agrees a)
    | tree tree =>
      cases tree with
      | value => exact writtenAs_value initial
      | map => exact writtenAs_map initial
      | list => exact writtenAs_list initial
    | object kind =>
      cases a with
      | object o =>
        refine ⟨fun m hm _ => ?_, fun m _ hnot => absurd trivial hnot, fun status hs => ?_⟩
        · cases hm
          exact ⟨rfl, .object o, rfl, rfl⟩
        · cases hs
      | _ => exact writtenAs_refused rfl

end Written

end Guatiao.Table
