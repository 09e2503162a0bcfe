import Guatiao.Table.Calling

/-!
# An argument laid out and read back

What the two sides make of one argument is said once for each way it can stand to its description:
it matches; it is a map with a key that is not text; it is a lent object where one is taken over;
or the caller refuses it.
-/

namespace Guatiao.Table

open Remote (Scalar Tree Pass ArgType AnswerType)

/-- Whether a scalar is a float. -/
def isFloat (s : Scalar) : Prop := s = .f32 ∨ s = .f64

/-- An argument matches its description in shape, passing mode, nullability and range. -/
inductive Matches : ArgType → Arg → Prop
  | bool (b : Bool) : Matches (.scalar .bool) (.bool b)
  | int {s : Scalar} {t : IntType} {n : ℤ} (hs : intType? s = some t) (hn : t.Holds n) :
      Matches (.scalar s) (.int n)
  | uint {s : Scalar} {t : IntType} {n : ℕ} (hs : intType? s = some t) (hn : t.Holds n) :
      Matches (.scalar s) (.uint n)
  | float {s : Scalar} (hs : isFloat s) (bits : UInt64) : Matches (.scalar s) (.float bits)
  | intFloat {s : Scalar} (hs : isFloat s) (n : ℤ) : Matches (.scalar s) (.int n)
  | uintFloat {s : Scalar} (hs : isFloat s) (n : ℕ) : Matches (.scalar s) (.uint n)
  | str (text : String) : Matches .str (.str text)
  | bytes (data : List UInt8) : Matches .bytes (.bytes data)
  | buffer (data : List UInt8) : Matches .bytesMut (.buffer data)
  | null : Matches (.tree .value .borrowed true) (.value none)
  | value (nullable : Bool) (v : Node Value) :
      Matches (.tree .value .borrowed nullable) (.value (some v))
  | map (nullable : Bool) (m : Node Entries) (hm : m.keysAreText = true) :
      Matches (.tree .map .borrowed nullable) (.map m)
  | list (nullable : Bool) (l : Node (List Value)) :
      Matches (.tree .list .borrowed nullable) (.list l)
  | takenValue (nullable : Bool) (v : Node Value) :
      Matches (.tree .value .taken nullable) (.takenValue v)
  | takenMap (nullable : Bool) (m : Node Entries) (hm : m.keysAreText = true) :
      Matches (.tree .map .taken nullable) (.takenMap m)
  | takenList (nullable : Bool) (l : Node (List Value)) :
      Matches (.tree .list .taken nullable) (.takenList l)
  | lentValue (nullable : Bool) (v : Node Value) :
      Matches (.tree .value .lent nullable) (.lentValue v)
  | lentMap (nullable : Bool) (m : Node Entries) (hm : m.keysAreText = true) :
      Matches (.tree .map .lent nullable) (.lentMap m)
  | lentList (nullable : Bool) (l : Node (List Value)) :
      Matches (.tree .list .lent nullable) (.lentList l)
  | object (kind : String) (o : ObjectRaw) : Matches (.object kind .taken) (.object o)
  | lentObject (kind : String) (o : ObjectRaw) : Matches (.object kind .lent) (.lentObject o)

/-- A map a foreign writer left a key in that is not text. -/
inductive Foreign : ArgType → Arg → Prop
  | map (nullable : Bool) (m : Node Entries) (hm : m.keysAreText = false) :
      Foreign (.tree .map .borrowed nullable) (.map m)
  | takenMap (nullable : Bool) (m : Node Entries) (hm : m.keysAreText = false) :
      Foreign (.tree .map .taken nullable) (.takenMap m)
  | lentMap (nullable : Bool) (m : Node Entries) (hm : m.keysAreText = false) :
      Foreign (.tree .map .lent nullable) (.lentMap m)

/-- A lent object where the slot takes one over. -/
inductive Mixed : ArgType → Arg → Prop
  | mk (kind : String) (o : ObjectRaw) : Mixed (.object kind .taken) (.lentObject o)

/-- What the caller lays out. -/
def Accepted (ty : ArgType) (arg : Arg) : Prop := Matches ty arg ∨ Foreign ty arg ∨ Mixed ty arg

/-- An argument as the handler receives it: numbers are the same, widened. -/
def seen (floats : Floats) (ty : ArgType) (arg : Arg) : Arg :=
  match ty, arg with
  | .scalar .f32, .float bits => .float (floats.widen (floats.narrow bits))
  | .scalar .f32, .int n => .float (floats.widen (floats.narrow (floats.ofInt n)))
  | .scalar .f32, .uint n => .float (floats.widen (floats.narrow (floats.ofInt n)))
  | .scalar .f64, .int n => .float (floats.ofInt n)
  | .scalar .f64, .uint n => .float (floats.ofInt n)
  | .scalar s, .int n =>
    match intType? s with
    | some t => if t.signed then .int n else .uint n.toNat
    | none => .int n
  | .scalar s, .uint n =>
    match intType? s with
    | some t => if t.signed then .int n else .uint n
    | none => .uint n
  | _, arg => arg

theorem handed_seen (floats : Floats) (ty : ArgType) (arg : Arg) :
    (seen floats ty arg).handed = arg.handed := by
  unfold seen
  split <;> try rfl
  all_goals
    split
    · split <;> rfl
    · rfl

section Lay

variable {floats : Floats} {i : ℕ} {ty : ArgType} {arg : Arg} {l : Cell × Pending}

variable {n : ℤ} {s : Scalar}

theorem tryFrom_eq_some {t : IntType} (h : t.Holds n) : t.tryFrom n = some n := if_pos h

theorem tryFrom_eq_none {t : IntType} (h : ¬ t.Holds n) : t.tryFrom n = none := if_neg h

theorem matches_of_layScalar {cell : Cell} (h : layScalar floats i s arg = .ok cell) :
    Matches (.scalar s) arg := by
  have hnumber : ∀ t, intType? s = some t → (narrow t i s arg).map (Cell.int t) = .ok cell →
      Matches (.scalar s) arg := by
    intro t ht hn
    cases arg with
    | int n =>
      by_cases hholds : t.Holds n
      · exact .int ht hholds
      · simp [narrow, tryFrom_eq_none hholds] at hn
    | uint n =>
      by_cases hholds : t.Holds n
      · exact .uint ht hholds
      · simp [narrow, tryFrom_eq_none hholds] at hn
    | _ => simp [narrow] at hn
  have hfloat : isFloat s → (∃ bits, layFloat floats i arg = .ok bits) →
      Matches (.scalar s) arg := by
    rintro hs ⟨bits, hbits⟩
    cases arg with
    | float bits => exact .float hs bits
    | int n => exact .intFloat hs n
    | uint n => exact .uintFloat hs n
    | _ => simp [layFloat] at hbits
  unfold layScalar at h
  split at h
  · split at h
    · exact .bool _
    · cases h
  · apply hfloat (Or.inl rfl)
    cases hl : layFloat floats i arg with
    | ok bits => exact ⟨bits, rfl⟩
    | error e => simp [hl] at h
  · apply hfloat (Or.inr rfl)
    cases hl : layFloat floats i arg with
    | ok bits => exact ⟨bits, rfl⟩
    | error e => simp [hl] at h
  · split at h
    next t ht => exact hnumber t ht h
    next => cases h

theorem accepted_of_layTree {tree : Tree} {pass : Pass} {nullable : Bool}
    (h : layTree i tree pass nullable arg = .ok l) : Accepted (.tree tree pass nullable) arg := by
  have hkeys : ∀ (m : Node Entries) {ty : ArgType} {arg : Arg},
      (m.keysAreText = true → Matches ty arg) → (m.keysAreText = false → Foreign ty arg) →
      Accepted ty arg := by
    intro m ty arg hm hf
    cases hk : m.keysAreText with
    | true => exact .inl (hm hk)
    | false => exact .inr (.inl (hf hk))
  unfold layTree at h
  split at h
  · split at h
    next hn =>
      subst hn
      exact .inl .null
    next => cases h
  · exact .inl (.value _ _)
  · exact hkeys _ (.map _ _) (.map _ _)
  · exact .inl (.list _ _)
  · exact .inl (.takenValue _ _)
  · exact hkeys _ (.takenMap _ _) (.takenMap _ _)
  · exact .inl (.takenList _ _)
  · exact .inl (.lentValue _ _)
  · exact hkeys _ (.lentMap _ _) (.lentMap _ _)
  · exact .inl (.lentList _ _)
  · cases h

theorem accepted_of_lay (hty : ArgTypeOk ty) (h : lay floats i ty arg = .ok l) :
    Accepted ty arg := by
  unfold lay at h
  split at h
  · obtain ⟨cell, hcell, -⟩ := Lib.map_eq_ok.mp h
    exact .inl (matches_of_layScalar hcell)
  · exact .inl (.str _)
  · exact .inl (.bytes _)
  · exact .inl (.buffer _)
  · exact accepted_of_layTree h
  · exact .inl (.object _ _)
  next kind pass o =>
    cases pass with
    | borrowed => exact absurd rfl hty
    | taken => exact .inr (.inr (.mk _ _))
    | lent => exact .inl (.lentObject _ _)
  · cases h

theorem layScalar_int {t : IntType} (hs : intType? s = some t) :
    layScalar floats i s arg = (narrow t i s arg).map (.int t) := by
  cases s <;> simp_all [intType?, layScalar]

theorem readArg_int {t : IntType} (hs : intType? s = some t) :
    readArg floats (.scalar s) (.int t n) =
      some (.ok (if t.signed then .int n else .uint n.toNat)) := by
  cases s <;> simp_all [intType?, readArg, Cell.int?]

theorem seen_int {t : IntType} (hs : intType? s = some t) :
    seen floats (.scalar s) (.int n) = if t.signed then .int n else .uint n.toNat := by
  cases s <;> simp_all [intType?, seen]

theorem seen_uint {t : IntType} {n : ℕ} (hs : intType? s = some t) :
    seen floats (.scalar s) (.uint n) = if t.signed then .int n else .uint n := by
  cases s <;> simp_all [intType?, seen]

/-- What a lent argument is left as can be settled into its home. -/
def Settles (w : World) (i : ℕ) : Arg → Prop
  | .lentValue _ | .lentList _ => ∃ u, (w.left i).moved = .ok u
  | .lentMap _ => (w.left i).badKey = false ∧ ∃ u, (w.left i).moved = .ok u
  | _ => True

/-- What is laid out for an argument: at every position the same storage, that hands over what the
argument does and settles as it does. -/
structure LaidAs (floats : Floats) (ty : ArgType) (arg : Arg) (l : Cell × Pending) : Prop where
  lay : ∀ i, lay floats i ty arg = .ok l
  handed : l.2.handed = arg.handed
  settles : ∀ w i, (∃ u, l.2.settle w i = .ok u) ↔ Settles w i arg

/-- A cell is read as an argument that matches: where it is taken, before the others. -/
def ReadAs (floats : Floats) (ty : ArgType) (cell : Cell) (arg : Arg) : Prop :=
  if isTaken ty then takeArg ty cell = some (.ok arg, [])
  else readArg floats ty cell = some (.ok arg)

/-- A cell is refused, what it hands over being released. -/
def RefusedAs (floats : Floats) (ty : ArgType) (cell : Cell) (handed : List Owned) : Prop :=
  if isTaken ty then takeArg ty cell = some (.error (.ofStatus .badValue), handed.map .released)
  else readArg floats ty cell = some (.error (.ofStatus .badValue)) ∧ handed = []

/-- An argument that matches is laid out, and read back as the handler sees it. -/
theorem Matches.laid (h : Matches ty arg) :
    ∃ l, LaidAs floats ty arg l ∧ ReadAs floats ty (place l) (seen floats ty arg) := by
  cases h with
  | bool b =>
    refine ⟨(.int .u8 b.toNat, .nothing), ⟨fun i => rfl, rfl, by simp [Pending.settle, Settles]⟩, ?_⟩
    cases b <;> rfl
  | @int s t n hs hn =>
    refine ⟨(.int t n, .nothing), ⟨fun i => ?_, rfl, by simp [Pending.settle, Settles]⟩, ?_⟩
    · simp [Table.lay, layScalar_int hs, narrow, tryFrom_eq_some hn]
    · simp [ReadAs, isTaken, place, readArg_int hs, seen_int hs]
  | @uint s t n hs hn =>
    refine ⟨(.int t n, .nothing), ⟨fun i => ?_, rfl, by simp [Pending.settle, Settles]⟩, ?_⟩
    · simp [Table.lay, layScalar_int hs, narrow, tryFrom_eq_some hn]
    · simp [ReadAs, isTaken, place, readArg_int hs, seen_uint hs]
  | float hs bits =>
    rcases hs with rfl | rfl
    · exact ⟨_, ⟨fun i => rfl, rfl, by simp [Pending.settle, Settles]⟩, rfl⟩
    · exact ⟨_, ⟨fun i => rfl, rfl, by simp [Pending.settle, Settles]⟩, rfl⟩
  | intFloat hs n =>
    rcases hs with rfl | rfl
    · exact ⟨_, ⟨fun i => rfl, rfl, by simp [Pending.settle, Settles]⟩, rfl⟩
    · exact ⟨_, ⟨fun i => rfl, rfl, by simp [Pending.settle, Settles]⟩, rfl⟩
  | uintFloat hs n =>
    rcases hs with rfl | rfl
    · exact ⟨_, ⟨fun i => rfl, rfl, by simp [Pending.settle, Settles]⟩, rfl⟩
    · exact ⟨_, ⟨fun i => rfl, rfl, by simp [Pending.settle, Settles]⟩, rfl⟩
  | str text =>
    refine ⟨_, ⟨fun i => rfl, rfl, by simp [Pending.settle, Settles]⟩, ?_⟩
    simp [ReadAs, isTaken, place, readArg, Cell.str?, seen]
  | bytes data => exact ⟨_, ⟨fun i => rfl, rfl, by simp [Pending.settle, Settles]⟩, rfl⟩
  | buffer data => exact ⟨_, ⟨fun i => rfl, rfl, by simp [Pending.settle, Settles]⟩, rfl⟩
  | null => exact ⟨_, ⟨fun i => rfl, rfl, by simp [Pending.settle, Settles]⟩, rfl⟩
  | value nullable v =>
    refine ⟨_, ⟨fun i => rfl, rfl, by simp [Pending.settle, Settles]⟩, ?_⟩
    cases nullable <;> rfl
  | map nullable m hm =>
    refine ⟨_, ⟨fun i => rfl, rfl, by simp [Pending.settle, Settles]⟩, ?_⟩
    simp [ReadAs, isTaken, place, readArg, Cell.ptr?, Pointer.map?, presentMap, hm, seen]
  | list nullable l => exact ⟨_, ⟨fun i => rfl, rfl, by simp [Pending.settle, Settles]⟩, rfl⟩
  | takenValue nullable v =>
    exact ⟨_, ⟨fun i => rfl, rfl, by simp [Pending.settle, Settles]⟩, rfl⟩
  | takenMap nullable m hm =>
    refine ⟨_, ⟨fun i => rfl, rfl, by simp [Pending.settle, Settles]⟩, ?_⟩
    simp [ReadAs, isTaken, place, takeArg, Cell.ptr?, Pointer.map?, hm, seen]
  | takenList nullable l =>
    exact ⟨_, ⟨fun i => rfl, rfl, by simp [Pending.settle, Settles]⟩, rfl⟩
  | lentValue nullable v =>
    exact ⟨_, ⟨fun i => rfl, rfl, by simp [Pending.settle, Settles]⟩, rfl⟩
  | lentMap nullable m hm =>
    refine ⟨_, ⟨fun i => rfl, rfl, fun w i => ?_⟩, ?_⟩
    · simp only [Pending.settle, Settles]
      split <;> simp_all
    · simp [ReadAs, isTaken, place, readArg, Cell.ptr?, Pointer.map?, presentMap, hm, seen]
  | lentList nullable l =>
    exact ⟨_, ⟨fun i => rfl, rfl, by simp [Pending.settle, Settles]⟩, rfl⟩
  | object kind o => exact ⟨_, ⟨fun i => rfl, rfl, by simp [Pending.settle, Settles]⟩, rfl⟩
  | lentObject kind o => exact ⟨_, ⟨fun i => rfl, rfl, by simp [Pending.settle, Settles]⟩, rfl⟩

theorem Foreign.laid (h : Foreign ty arg) :
    ∃ l, LaidAs floats ty arg l ∧ RefusedAs floats ty (place l) arg.handed := by
  cases h with
  | map nullable m hm =>
    refine ⟨_, ⟨fun i => rfl, rfl, by simp [Pending.settle, Settles]⟩, ?_⟩
    simp [RefusedAs, isTaken, place, readArg, Cell.ptr?, Pointer.map?, presentMap, hm, Arg.handed]
  | takenMap nullable m hm =>
    refine ⟨_, ⟨fun i => rfl, rfl, by simp [Pending.settle, Settles]⟩, ?_⟩
    simp [RefusedAs, isTaken, place, takeArg, Cell.ptr?, Pointer.map?, hm, Arg.handed]
  | lentMap nullable m hm =>
    refine ⟨_, ⟨fun i => rfl, rfl, fun w i => ?_⟩, ?_⟩
    · simp only [Pending.settle, Settles]
      split <;> simp_all
    · simp [RefusedAs, isTaken, place, readArg, Cell.ptr?, Pointer.map?, presentMap, hm, Arg.handed]

theorem Mixed.laid (h : Mixed ty arg) :
    ∃ l, LaidAs floats ty arg l ∧ isTaken ty = true ∧ takeArg ty (place l) = none := by
  cases h with
  | mk kind o => exact ⟨_, ⟨fun i => rfl, rfl, by simp [Pending.settle, Settles]⟩, rfl, rfl⟩

end Lay

end Guatiao.Table
