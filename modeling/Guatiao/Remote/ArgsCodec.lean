import Guatiao.Remote.Args
import Guatiao.Remote.FrameCodec

/-!
# What crosses arrives

Each argument and each answer that its type takes is written so that it reads as what was sent. A
buffer's bytes are not sent: it arrives as long as it was. Sending the end from where it lies sends
the same bytes.
-/

namespace Guatiao.Remote

open Lib

def ObjectRef.id : ObjectRef → UInt64
  | .senders id => id
  | .receivers id => id

theorem ObjectRef.fromCode_code {ref : ObjectRef} (h : ref.id.toNat < 2 ^ 63) :
    fromCode ref.code = ref := by
  cases ref with
  | senders id =>
    simp only [ObjectRef.id] at h
    simp only [fromCode, code, even_code, if_true, shiftRight_shiftLeft h]
  | receivers id =>
    simp only [ObjectRef.id] at h
    simp only [fromCode, code, odd_code, if_false, shiftRight_or_one h]

def Scalar.signed : Scalar → Bool
  | .i8 | .i16 | .i32 | .i64 | .isize => true
  | _ => false

def Scalar.unsigned : Scalar → Bool
  | .u8 | .u16 | .u32 | .u64 | .usize => true
  | _ => false

/-- A tree that walks, in bytes that are not more than a length can say. -/
def Walks (v : Value) : Prop := Carried v ∧ v.depth ≤ maxDepth

variable (seeds : Wire.Seeded) {O : Type}

/-- An argument of a type, crossing as it may, and what arrives. -/
inductive Crosses : ArgType → Arg O → Option ObjectRef → Decoded → Prop
  | bool (b : Bool) (ref : Option ObjectRef) : Crosses (.scalar .bool) (.bool b) ref (.bool b)
  | int (s : Scalar) (n : Int64) (ref : Option ObjectRef) (hs : s.signed = true) :
      Crosses (.scalar s) (.int n) ref (.int n)
  | uint (s : Scalar) (n : UInt64) (ref : Option ObjectRef) (hs : s.unsigned = true) :
      Crosses (.scalar s) (.uint n) ref (.uint n)
  /-- A float of four bytes arrives as the number those hold. -/
  | float32 (f : UInt64) (ref : Option ObjectRef) :
      Crosses (.scalar .f32) (.float f) ref (.float (widen (narrow f)))
  | float64 (f : UInt64) (ref : Option ObjectRef) : Crosses (.scalar .f64) (.float f) ref (.float f)
  | str (text : String) (ref : Option ObjectRef) (h : CountableText text) :
      Crosses .str (.str text) ref (.str text)
  | bytes (data : List UInt8) (ref : Option ObjectRef) (h : Countable data) :
      Crosses .bytes (.bytes data) ref (.bytes data)
  /-- A buffer arrives as long as it was, and zeroed. -/
  | buffer (data : List UInt8) (ref : Option ObjectRef) (h : data.length ≤ MAX_BUFFER) :
      Crosses .bytesMut (.buffer data) ref (.buffer (List.replicate data.length 0))
  | none (ref : Option ObjectRef) :
      Crosses (.tree .value .borrowed true) (.value none) ref (.value none)
  /-- An absent value where there may be none arrives as none. -/
  | absent (ref : Option ObjectRef) :
      Crosses (.tree .value .borrowed true) (.value (some .absent)) ref (.value none)
  | value (v : Value) (nullable : Bool) (ref : Option ObjectRef) (h : Carried v)
      (hv : nullable = true → v ≠ .absent) :
      Crosses (.tree .value .borrowed nullable) (.value (some v)) ref (.value (some v))
  | takenValue (v : Value) (ref : Option ObjectRef) (h : Carried v) :
      Crosses (.tree .value .taken false) (.takenValue v) ref (.value (some v))
  | lentValue (v : Value) (ref : Option ObjectRef) (h : Carried v) :
      Crosses (.tree .value .lent false) (.lentValue v) ref (.value (some v))
  | map (entries : List Entry) (ref : Option ObjectRef) (h : Walks (.map entries)) :
      Crosses (.tree .map .borrowed false) (.map entries) ref (.map entries)
  | takenMap (entries : List Entry) (ref : Option ObjectRef) (h : Walks (.map entries)) :
      Crosses (.tree .map .taken false) (.takenMap entries) ref (.map entries)
  | lentMap (entries : List Entry) (ref : Option ObjectRef) (h : Walks (.map entries)) :
      Crosses (.tree .map .lent false) (.lentMap entries) ref (.map entries)
  | list (items : List Value) (ref : Option ObjectRef) (h : Walks (.list items)) :
      Crosses (.tree .list .borrowed false) (.list items) ref (.list items)
  | takenList (items : List Value) (ref : Option ObjectRef) (h : Walks (.list items)) :
      Crosses (.tree .list .taken false) (.takenList items) ref (.list items)
  | lentList (items : List Value) (ref : Option ObjectRef) (h : Walks (.list items)) :
      Crosses (.tree .list .lent false) (.lentList items) ref (.list items)
  | object (kind : String) (o : O) (ref : ObjectRef) (h : ref.id.toNat < 2 ^ 63) :
      Crosses (.object kind .taken) (.object o) (some ref) (.object ref)
  | lentObject (kind : String) (o : O) (ref : ObjectRef) (h : ref.id.toNat < 2 ^ 63) :
      Crosses (.object kind .lent) (.lentObject o) (some ref) (.object ref)

/-- The arguments of a call, each with the reference at its position, and what arrives. -/
def CrossAll (refs : List (Option ObjectRef)) :
    ℕ → List ArgType → List (Arg O) → List Decoded → Prop
  | _, [], [], [] => True
  | i, ty :: types, arg :: args, decoded :: rest =>
    Crosses ty arg refs[i]?.join decoded ∧ CrossAll refs (i + 1) types args rest
  | _, _, _, _ => False

/-- Some bytes are read as a thing, wherever they come first. -/
def ReadAs {X : Type} (read : Field X) (bytes : List UInt8) (x : X) : Prop :=
  ∀ r tail, r.rest = bytes ++ tail → ∃ r', read r = .ok (x, r') ∧ r'.rest = tail

theorem readAs_exact {X : Type} {read : Field X} {spell : X → List UInt8} {P : X → Prop}
    (h : Exact read spell P) {x : X} (hx : P x) : ReadAs read (spell x) x :=
  fun r tail hrest => h.complete r x tail hx hrest

variable {bytes : List UInt8} {s : Scalar} {v : Value} {refs : List (Option ObjectRef)}
   {args : List (Arg O)} {slot : SlotDescription}

theorem ReadAs.made {X Y : Type} {read : Field X} {x : X} (h : ReadAs read bytes x) (f : X → Y) :
    ReadAs (fun r => (read r).map fun p => (f p.1, p.2)) bytes (f x) := by
  intro r tail hrest
  obtain ⟨r', hread, htail⟩ := h r tail hrest
  refine ⟨r', ?_, htail⟩
  simp only [hread]
  rfl

theorem readAs_nil {X : Type} (x : X) : ReadAs (fun r => .ok (x, r)) [] x :=
  fun r _ hrest => ⟨r, rfl, hrest⟩

theorem ReadAs.cons {X : Type} {read : Field X} {reads : Field (List X)} {more : List UInt8} {x : X}
    {xs : List X} (h : ReadAs read bytes x) (hs : ReadAs reads more xs) :
    ReadAs (fun r => do let (x, r) ← read r; let (xs, r) ← reads r; .ok (x :: xs, r)) (bytes ++ more)
      (x :: xs) := by
  intro r tail hrest
  rw [List.append_assoc] at hrest
  obtain ⟨r', hread, hr'⟩ := h r _ hrest
  obtain ⟨r'', hreads, hr''⟩ := hs r' tail hr'
  refine ⟨r'', ?_, hr''⟩
  simp only [hread, hreads, Bind.bind, Except.bind]

theorem putScalarInt_signed (hs : s.signed = true) (n : Int64) :
    putScalarInt s n.toInt = some (putInt n) := by
  have hlow := n.le_toInt
  have hhigh := n.toInt_lt
  have hback : Int64.ofInt n.toInt = n := Int64.ofInt_toInt n
  cases s <;> simp_all [putScalarInt, Scalar.signed]

theorem putScalarInt_unsigned (hs : s.unsigned = true) (n : UInt64) :
    putScalarInt s n.toNat = some (putUint n) := by
  have hlt : (n.toNat : ℤ) < 2 ^ 64 := by exact_mod_cast n.toNat_lt
  cases s <;> simp_all [putScalarInt, Scalar.unsigned]

namespace Reader

theorem readAs_float32 (n : UInt32) : ReadAs float32 (leBytes 4 n.toNat) n := by
  have h := (readAs_exact (fixed_exact 4)
    (x := ⟨leBytes 4 n.toNat, length_leBytes 4 n.toNat⟩) trivial).made
      fun v => UInt32.ofNat (leNat v.toList)
  have hback : UInt32.ofNat (leNat (leBytes 4 n.toNat)) = n := by
    have hlt : n.toNat < 256 ^ 4 := n.toNat_lt
    rw [leNat_leBytes, Nat.mod_eq_of_lt hlt, UInt32.ofNat_toNat]
  simp only [List.Vector.toList_mk, hback] at h
  exact h

theorem readAs_float64 (n : UInt64) : ReadAs float64 (leBytes 8 n.toNat) n := by
  have h := (readAs_exact (fixed_exact 8)
    (x := ⟨leBytes 8 n.toNat, length_leBytes 8 n.toNat⟩) trivial).made
      fun v => UInt64.ofNat (leNat v.toList)
  have hback : UInt64.ofNat (leNat (leBytes 8 n.toNat)) = n := by
    have hlt : n.toNat < 256 ^ 8 := n.toNat_lt
    rw [leNat_leBytes, Nat.mod_eq_of_lt hlt, UInt64.ofNat_toNat]
  simp only [List.Vector.toList_mk, hback] at h
  exact h

theorem readAs_bool (b : Bool) :
    ReadAs (scalar .bool) [if b then 1 else 0] (.bool b) := by
  intro r tail hrest
  obtain ⟨r', hread, htail⟩ := byte_exact.complete r _ tail trivial hrest
  refine ⟨r', ?_, htail⟩
  cases b <;> simp [scalar, hread, Bind.bind, Except.bind]

theorem readAs_int {s : Scalar} (hs : s.signed = true) (n : Int64) :
    ReadAs (scalar s) (putInt n) (.int n) := by
  have h := (readAs_exact int_exact (x := n) trivial).made Decoded.int
  cases s <;> first | exact h | cases hs

theorem readAs_uint {s : Scalar} (hs : s.unsigned = true) (n : UInt64) :
    ReadAs (scalar s) (putUint n) (.uint n) := by
  have h := (readAs_exact uint_exact (x := n) trivial).made Decoded.uint
  cases s <;> first | exact h | cases hs

end Reader

theorem putWalk_eq (out : List UInt8) (h : Walks v) :
    putWalk seeds out v = .ok (out ++ putBytes [] (Wire.wire v)) := by
  have hdistinct := h.1.1.distinct
  simp only [putWalk, putWalkBare, Wire.encodeOf_eq seeds out hdistinct h.2, Bind.bind, Except.bind]
  rw [← putBytes_eq, ← putValue_eq]
  rfl

theorem carried_absent : Carried .absent := by
  refine ⟨trivial, ?_⟩
  simp [Countable, Wire.wire]

theorem putValue_append (out : List UInt8) (v : Value) :
    putValue out v = out ++ putBytes [] (Wire.wire v) := by
  rw [putValue_eq, ← putBytes_eq]

theorem readAs_tree {tree : Tree} {nullable : Bool} {decoded : Decoded} (h : Carried v)
    (htree : ∀ offset, treeOf tree nullable v offset = .ok decoded) (pass : Pass) :
    ReadAs (getArg seeds (.tree tree pass nullable)) (putBytes [] (Wire.wire v)) decoded := by
  intro r tail hrest
  obtain ⟨r', hread, htail⟩ := (Reader.value_exact seeds).complete r v tail h hrest
  refine ⟨r', ?_, htail⟩
  simp only [getArg, hread, htree, Bind.bind, Except.bind]

theorem treeOf_value {nullable : Bool} (hv : nullable = true → v ≠ .absent)
    (offset : ℕ) : treeOf .value nullable v offset = .ok (.value (some v)) := by
  cases v with
  | absent =>
    cases nullable with
    | true => exact absurd rfl (hv rfl)
    | false => rfl
  | _ => rfl

theorem readAs_buffer {n : ℕ} (h : n ≤ MAX_BUFFER) :
    ReadAs (getArg seeds .bytesMut) (putUint (.ofNat n)) (.buffer (List.replicate n 0)) := by
  intro r tail hrest
  obtain ⟨r', hread, htail⟩ := Reader.uint_exact.complete r _ tail trivial hrest
  have hlt : n < 2 ^ 64 := by
    simp only [MAX_BUFFER, Nat.shiftLeft_eq] at h
    omega
  have hn : (UInt64.ofNat n).toNat = n := UInt64.toNat_ofNat_of_lt' hlt
  refine ⟨r', ?_, htail⟩
  simp only [getArg, hread, Bind.bind, Except.bind, hn, if_pos h]

theorem readAs_object (kind : String) (pass : Pass) {ref : ObjectRef} (h : ref.id.toNat < 2 ^ 63) :
    ReadAs (getArg seeds (.object kind pass)) (putUint ref.code) (.object ref) := by
  have hread := (readAs_exact Reader.uint_exact (x := ref.code) trivial).made
    fun code => Decoded.object (.fromCode code)
  rw [ObjectRef.fromCode_code h] at hread
  exact hread

theorem putArg_int {n : Int64}
    (h : putScalarInt s n.toInt = some bytes) (i : ℕ) (ref : Option ObjectRef) (out : List UInt8) :
    putArg seeds i (.scalar s) (.int n : Arg O) ref out = .ok (out ++ bytes) := by
  have hput : ∀ s, putArg seeds i (.scalar s) (.int n : Arg O) ref out =
      orMismatch i (.scalar s) out (putScalarInt s n.toInt) := by
    intro s
    cases s <;> rfl
  rw [hput, h]
  rfl

theorem putArg_uint {n : UInt64}
    (h : putScalarInt s n.toNat = some bytes) (i : ℕ) (ref : Option ObjectRef) (out : List UInt8) :
    putArg seeds i (.scalar s) (.uint n : Arg O) ref out = .ok (out ++ bytes) := by
  have hput : ∀ s, putArg seeds i (.scalar s) (.uint n : Arg O) ref out =
      orMismatch i (.scalar s) out (putScalarInt s n.toNat) := by
    intro s
    cases s <;> rfl
  rw [hput, h]
  rfl

/-- What crosses is written, behind whatever was written, so that it reads as what arrives. -/
theorem Crosses.written {ty : ArgType} {arg : Arg O} {ref : Option ObjectRef}
    {decoded : Decoded} (h : Crosses ty arg ref decoded) :
    ∃ bytes, (∀ i out, putArg seeds i ty arg ref out = .ok (out ++ bytes)) ∧
      ReadAs (getArg seeds ty) bytes decoded := by
  have hvalue : ∀ {v : Value} (out : List UInt8),
      (.ok (putValue out v) : Except ProtocolError (List UInt8)) =
        .ok (out ++ putBytes [] (Wire.wire v)) := by
    intro v out
    rw [putValue_append]
  cases h with
  | bool b ref => exact ⟨_, fun i out => rfl, Reader.readAs_bool b⟩
  | int s n ref hs =>
    exact ⟨putInt n, fun i out => putArg_int seeds (putScalarInt_signed hs n) i ref out,
      Reader.readAs_int hs n⟩
  | uint s n ref hs =>
    exact ⟨putUint n, fun i out => putArg_uint seeds (putScalarInt_unsigned hs n) i ref out,
      Reader.readAs_uint hs n⟩
  | float32 f ref =>
    exact ⟨_, fun i out => rfl, (Reader.readAs_float32 (narrow f)).made
      fun n => Decoded.float (widen n)⟩
  | float64 f ref => exact ⟨_, fun i out => rfl, (Reader.readAs_float64 f).made Decoded.float⟩
  | str text ref ht =>
    refine ⟨_, fun i out => ?_, (readAs_exact Reader.text_exact ht).made Decoded.str⟩
    exact congrArg Except.ok (putBytes_eq out _)
  | bytes data ref hdata =>
    refine ⟨_, fun i out => ?_, (readAs_exact Reader.bytes_exact hdata).made Decoded.bytes⟩
    exact congrArg Except.ok (putBytes_eq out _)
  | buffer data ref hdata => exact ⟨_, fun i out => rfl, readAs_buffer seeds hdata⟩
  | none ref =>
    refine ⟨_, fun i out => hvalue out, readAs_tree seeds ?_ (fun _ => rfl) .borrowed⟩
    exact carried_absent
  | absent ref =>
    refine ⟨_, fun i out => hvalue out, readAs_tree seeds ?_ (fun _ => rfl) .borrowed⟩
    exact carried_absent
  | value v nullable ref hv hsome =>
    exact ⟨_, fun i out => hvalue out, readAs_tree seeds hv (treeOf_value hsome) .borrowed⟩
  | takenValue v ref hv | lentValue v ref hv =>
    refine ⟨_, fun i out => hvalue out, readAs_tree seeds hv (treeOf_value ?_) _⟩
    intro hfalse
    cases hfalse
  | map entries ref hwalks | takenMap entries ref hwalks | lentMap entries ref hwalks
  | list items ref hwalks | takenList items ref hwalks | lentList items ref hwalks =>
    exact ⟨_, fun i out => putWalk_eq seeds out hwalks,
      readAs_tree seeds hwalks.1 (fun _ => rfl) _⟩
  | object kind o ref href =>
    exact ⟨_, fun i out => rfl, readAs_object seeds kind .taken href⟩
  | lentObject kind o ref href =>
    exact ⟨_, fun i out => rfl, readAs_object seeds kind .lent href⟩

theorem CrossAll.length {i : ℕ} {types : List ArgType}
    {decoded : List Decoded} (h : CrossAll refs i types args decoded) :
    args.length = types.length := by
  induction types generalizing i args decoded with
  | nil =>
    cases args with
    | nil => rfl
    | cons arg args => cases decoded <;> exact h.elim
  | cons ty types ih =>
    cases args with
    | nil => exact h.elim
    | cons arg args =>
      cases decoded with
      | nil => exact h.elim
      | cons d decoded => rw [List.length_cons, List.length_cons, ih h.2]

theorem CrossAll.written {i : ℕ} {types : List ArgType}
    {decoded : List Decoded} (h : CrossAll refs i types args decoded) :
    ∃ bytes, (∀ out, putArgs seeds refs i (args.zip types) out = .ok (out ++ bytes)) ∧
      ReadAs (getArgs seeds types) bytes decoded := by
  induction types generalizing i args decoded with
  | nil =>
    cases args with
    | nil =>
      cases decoded with
      | nil => exact ⟨[], fun out => by rw [List.append_nil]; rfl, readAs_nil []⟩
      | cons d decoded => exact h.elim
    | cons arg args => cases decoded <;> exact h.elim
  | cons ty types ih =>
    cases args with
    | nil => exact h.elim
    | cons arg args =>
      cases decoded with
      | nil => exact h.elim
      | cons d decoded =>
        obtain ⟨first, hput, hread⟩ := h.1.written seeds
        obtain ⟨rest, hputs, hreads⟩ := ih h.2
        refine ⟨first ++ rest, fun out => ?_, ?_⟩
        · simp only [List.zip_cons_cons, putArgs, hput, Bind.bind, Except.bind, hputs,
            List.append_assoc]
        · exact hread.cons hreads

theorem encodeArgs_decodeArgs {decoded : List Decoded} (h : CrossAll refs 0 slot.args args decoded) :
    ∃ bytes, (∀ out, encodeArgs seeds slot args refs out = .ok (out ++ bytes)) ∧
      decodeArgs seeds slot bytes = .ok decoded := by
  obtain ⟨bytes, hput, hread⟩ := h.written seeds
  refine ⟨bytes, fun out => ?_, ?_⟩
  · simp only [encodeArgs, sameCount, h.length, ne_eq, not_true_eq_false, if_false, Bind.bind,
      Except.bind, hput]
  · obtain ⟨r', hok, hrest⟩ := hread (.start bytes) [] (by simp [Cursor.start])
    simp only [decodeArgs, hok, Reader.finish, hrest, if_true, Bind.bind, Except.bind]

theorem putArgs_append (refs : List (Option ObjectRef)) (i : ℕ)
    (xs : List (Arg O × ArgType)) (arg : Arg O) (ty : ArgType) (out : List UInt8) :
    putArgs seeds refs i (xs ++ [(arg, ty)]) out =
      putArgs seeds refs i xs out >>=
        putArg seeds (i + xs.length) ty arg refs[i + xs.length]?.join := by
  induction xs generalizing i out with
  | nil =>
    simp only [List.nil_append, putArgs, List.length_nil, Nat.add_zero, Bind.bind, Except.bind]
    cases putArg seeds i ty arg refs[i]?.join out <;> rfl
  | cons x xs ih =>
    obtain ⟨a, t⟩ := x
    simp only [List.cons_append, putArgs, Bind.bind, Except.bind, List.length_cons]
    cases putArg seeds i t a refs[i]?.join out with
    | error e => rfl
    | ok out =>
      have hlen : i + (xs.length + 1) = i + 1 + xs.length := by omega
      rw [hlen]
      exact ih (i + 1) out

theorem tailOf_eq_some {tail : List UInt8}
    (h : tailOf slot args = some tail) : ∃ ty arg, slot.args.getLast? = some ty ∧
      args.getLast? = some arg ∧ ∀ i ref out,
        putArg seeds i ty arg ref out = .ok (putBytes out tail) := by
  unfold tailOf at h
  split at h
  · next text hty harg =>
    split at h
    · cases h
      exact ⟨_, _, hty, harg, fun i ref out => rfl⟩
    · cases h
  · next data hty harg =>
    split at h
    · cases h
      exact ⟨_, _, hty, harg, fun i ref out => rfl⟩
    · cases h
  · cases h

/-- The bytes written and then those sent from where they lie are the bytes written whole. -/
theorem encodeArgsTail_eq (slot : SlotDescription) (args : List (Arg O))
    (refs : List (Option ObjectRef)) (out : List UInt8) :
    (encodeArgsTail seeds slot args refs out).map (fun p => p.2 ++ p.1.getD []) =
      encodeArgs seeds slot args refs out := by
  unfold encodeArgsTail encodeArgs
  cases hcount : sameCount slot args with
  | error e => rfl
  | ok u =>
    simp only [Bind.bind, Except.bind]
    cases htail : tailOf slot args with
    | none =>
      simp only
      cases putArgs seeds refs 0 (args.zip slot.args) out with
      | error e => rfl
      | ok written => simp [Except.map]
    | some tail =>
      obtain ⟨ty, arg, hty, harg, hput⟩ := tailOf_eq_some seeds htail
      have hlength : args.length = slot.args.length := by
        unfold sameCount at hcount
        split at hcount
        · cases hcount
        · next heq => exact not_not.mp heq
      have hargs : args = args.dropLast ++ [arg] :=
        (List.dropLast_append_getLast? arg harg).symm
      have htypes : slot.args = slot.args.dropLast ++ [ty] :=
        (List.dropLast_append_getLast? ty hty).symm
      have hsame : args.dropLast.length = slot.args.dropLast.length := by
        rw [List.length_dropLast, List.length_dropLast, hlength]
      have hzip : args.zip slot.args = args.dropLast.zip slot.args.dropLast ++ [(arg, ty)] := by
        conv_lhs => rw [hargs, htypes, List.zip_append hsame]
        rfl
      have hshort : args.dropLast.zip slot.args = args.dropLast.zip slot.args.dropLast := by
        conv_lhs => rw [htypes, ← List.append_nil args.dropLast, List.zip_append hsame]
        rw [List.zip_nil_left, List.append_nil]
      simp only
      rw [hzip, putArgs_append, hshort]
      cases putArgs seeds refs 0 (args.dropLast.zip slot.args.dropLast) out with
      | error e => rfl
      | ok written =>
        simp only [Bind.bind, Except.bind, Except.map, hput, Option.getD_some, putBytes]

/-- The frame's bytes, where a tree answered was left from a position on without its length. -/
def rebuilt : Option ℕ × List UInt8 → List UInt8
  | (none, out) => out
  | (some offset, out) => behindLength out offset

/-- The bytes before a tree answered, its length, and then the tree from where it lies are the bytes
written whole. -/
theorem encodeAnswerTail_eq (slot : SlotDescription) (answer : Answer O)
    (out : List UInt8) (exported : O → ObjectRef) :
    (encodeAnswerTail seeds slot answer out exported).map rebuilt =
      encodeAnswer seeds slot answer out exported := by
  have hwhole : (do
      let out ← encodeAnswer seeds slot answer out exported
      .ok (none, out) : Except ProtocolError (Option ℕ × List UInt8)).map rebuilt =
        encodeAnswer seeds slot answer out exported := by
    cases encodeAnswer seeds slot answer out exported <;> rfl
  have hbare : ∀ written : List UInt8,
      rebuilt (if TAIL ≤ written.length - out.length then (some out.length, written)
        else (none, behindLength written out.length)) = behindLength written out.length := by
    intro written
    split <;> rfl
  have hwalk : ∀ v : Value, ((putWalkBare seeds out v).map fun written =>
      if TAIL ≤ written.length - out.length then (some out.length, written)
        else (none, behindLength written out.length)).map rebuilt = putWalk seeds out v := by
    intro v
    unfold putWalk
    cases putWalkBare seeds out v with
    | error e => rfl
    | ok written => exact congrArg Except.ok (hbare written)
  unfold encodeAnswerTail
  split
  · next tree hslot =>
    split
    · exact hwhole
    · cases answer with
      | value v =>
        simp only [encodeAnswer, hslot]
        exact congrArg Except.ok (hbare _)
      | map entries =>
        simp only [encodeAnswer, hslot]
        exact hwalk _
      | list items =>
        simp only [encodeAnswer, hslot]
        exact hwalk _
      | _ => exact hwhole
  · exact hwhole

/-- What a slot of a type may answer, and what the caller gets of it. -/
inductive Answers (exported : O → ObjectRef)
    (object : String → ObjectRef → Except ProtocolError O) :
    Option AnswerType → Answer O → Answer O → Prop
  | nothing : Answers exported object none .nothing .nothing
  | bool (b : Bool) : Answers exported object (some (.scalar .bool)) (.bool b) (.bool b)
  | int (s : Scalar) (n : Int64) (hs : s.signed = true) :
      Answers exported object (some (.scalar s)) (.int n) (.int n)
  | uint (s : Scalar) (n : UInt64) (hs : s.unsigned = true) :
      Answers exported object (some (.scalar s)) (.uint n) (.uint n)
  | float32 (f : UInt64) : Answers exported object (some (.scalar .f32)) (.float f)
      (.float (widen (narrow f)))
  | float64 (f : UInt64) : Answers exported object (some (.scalar .f64)) (.float f) (.float f)
  | text (text : String) (h : CountableText text) :
      Answers exported object (some .text) (.text text) (.text text)
  | value (v : Value) (h : Carried v) :
      Answers exported object (some (.tree .value)) (.value v) (.value v)
  | map (entries : List Entry) (h : Walks (.map entries)) :
      Answers exported object (some (.tree .map)) (.map entries) (.map entries)
  | list (items : List Value) (h : Walks (.list items)) :
      Answers exported object (some (.tree .list)) (.list items) (.list items)
  /-- An object is the handle that the caller makes of its reference. -/
  | object (kind : String) (o handle : O) (hid : (exported o).id.toNat < 2 ^ 63)
      (hhandle : object kind (exported o) = .ok handle) :
      Answers exported object (some (.object kind)) (.object o) (.object handle)

/-- What the callee left of an argument, the caller's argument before, and after. -/
inductive WritesBack : ArgType → Decoded → Arg O → Arg O → Prop
  | value (v old : Value) (h : Carried v) :
      WritesBack (.tree .value .lent false) (.value (some v)) (.lentValue old) (.lentValue v)
  | map (entries old : List Entry) (h : Walks (.map entries)) :
      WritesBack (.tree .map .lent false) (.map entries) (.lentMap old) (.lentMap entries)
  | list (items old : List Value) (h : Walks (.list items)) :
      WritesBack (.tree .list .lent false) (.list items) (.lentList old) (.lentList items)
  | buffer (data old : List UInt8) (h : data.length = old.length) (hdata : Countable data) :
      WritesBack .bytesMut (.buffer data) (.buffer old) (.buffer data)
  | other (ty : ArgType) (decoded : Decoded) (arg : Arg O) (h : writtenBack ty = false) :
      WritesBack ty decoded arg arg

/-- What the callee left of the arguments, the caller's arguments before, and after. -/
def WriteAllBack : List ArgType → List Decoded → List (Arg O) → List (Arg O) → Prop
  | [], [], [], [] => True
  | ty :: types, decoded :: rest, arg :: args, arg' :: args' =>
    WritesBack ty decoded arg arg' ∧ WriteAllBack types rest args args'
  | _, _, _, _ => False

variable {exported : O → ObjectRef} {object : String → ObjectRef → Except ProtocolError O}

theorem encodeAnswer_int {n : Int64} (hslot : slot.answer = some (.scalar s))
    (h : putScalarInt s n.toInt = some bytes) (out : List UInt8) :
    encodeAnswer seeds slot (.int n : Answer O) out exported = .ok (out ++ bytes) := by
  have hput : encodeAnswer seeds slot (.int n : Answer O) out exported =
      orWrong out (putScalarInt s n.toInt) := by
    obtain ⟨args, ty⟩ := slot
    subst hslot
    cases s <;> rfl
  rw [hput, h]
  rfl

theorem encodeAnswer_uint {n : UInt64} (hslot : slot.answer = some (.scalar s))
    (h : putScalarInt s n.toNat = some bytes) (out : List UInt8) :
    encodeAnswer seeds slot (.uint n : Answer O) out exported = .ok (out ++ bytes) := by
  have hput : encodeAnswer seeds slot (.uint n : Answer O) out exported =
      orWrong out (putScalarInt s n.toNat) := by
    obtain ⟨args, ty⟩ := slot
    subst hslot
    cases s <;> rfl
  rw [hput, h]
  rfl

theorem readAs_treeAnswer {tree : Tree} (decoded : Decoded) (h : Carried v)
    (htree : ∀ offset, treeOf tree false v offset = .ok decoded) :
    ReadAs (getAnswer seeds object (some (.tree tree))) (putBytes [] (Wire.wire v))
      decoded.answer := by
  intro r tail hrest
  obtain ⟨r', hread, htail⟩ := (Reader.value_exact seeds).complete r v tail h hrest
  refine ⟨r', ?_, htail⟩
  simp only [getAnswer, hread, htree, Bind.bind, Except.bind]

/-- An answer is written so that it is read as what the caller gets of it. -/
theorem Answers.written {answer got : Answer O}
    (h : Answers exported object slot.answer answer got) :
    ∃ bytes, (∀ out, encodeAnswer seeds slot answer out exported = .ok (out ++ bytes)) ∧
      ReadAs (getAnswer seeds object slot.answer) bytes got := by
  generalize hslot : slot.answer = ty at h ⊢
  have hput : ∀ answer out, encodeAnswer seeds slot answer out exported =
      encodeAnswer seeds ⟨slot.args, ty⟩ answer out exported := by
    intro answer out
    rw [← hslot]
  cases h with
  | nothing => exact ⟨[], fun out => by rw [hput, List.append_nil]; rfl, readAs_nil _⟩
  | bool b =>
    exact ⟨_, fun out => by rw [hput]; rfl, (Reader.readAs_bool b).made Decoded.answer⟩
  | int s n hs =>
    exact ⟨putInt n, encodeAnswer_int seeds hslot (putScalarInt_signed hs n),
      (Reader.readAs_int hs n).made Decoded.answer⟩
  | uint s n hs =>
    exact ⟨putUint n, encodeAnswer_uint seeds hslot (putScalarInt_unsigned hs n),
      (Reader.readAs_uint hs n).made Decoded.answer⟩
  | float32 f =>
    exact ⟨_, fun out => by rw [hput]; rfl, ((Reader.readAs_float32 (narrow f)).made
      fun n => Decoded.float (widen n)).made (Decoded.answer : Decoded → Answer O)⟩
  | float64 f =>
    exact ⟨_, fun out => by rw [hput]; rfl,
      ((Reader.readAs_float64 f).made Decoded.float).made Decoded.answer⟩
  | text text ht =>
    refine ⟨_, fun out => ?_, (readAs_exact Reader.text_exact ht).made Answer.text⟩
    rw [hput]
    exact congrArg Except.ok (putBytes_eq out _)
  | value v hv =>
    refine ⟨_, fun out => ?_, readAs_treeAnswer seeds (.value (some v)) hv (treeOf_value ?_)⟩
    · rw [hput]
      exact congrArg Except.ok (putValue_append out v)
    · intro hfalse
      cases hfalse
  | map entries hwalks =>
    refine ⟨_, fun out => ?_, readAs_treeAnswer seeds (.map entries) hwalks.1 fun _ => rfl⟩
    rw [hput]
    exact putWalk_eq seeds out hwalks
  | list items hwalks =>
    refine ⟨_, fun out => ?_, readAs_treeAnswer seeds (.list items) hwalks.1 fun _ => rfl⟩
    rw [hput]
    exact putWalk_eq seeds out hwalks
  | object kind o handle hid hhandle =>
    refine ⟨putUint (exported o).code, fun out => by rw [hput]; rfl, ?_⟩
    intro r tail hrest
    obtain ⟨r', hread, htail⟩ := Reader.uint_exact.complete r _ tail trivial hrest
    refine ⟨r', ?_, htail⟩
    simp only [getAnswer, hread, ObjectRef.fromCode_code hid, hhandle, Bind.bind, Except.bind]

theorem WritesBack.written {ty : ArgType} {decoded : Decoded} {arg arg' : Arg O}
    (h : WritesBack ty decoded arg arg') :
    ∃ bytes, (∀ i rest out, encodeWritebacks seeds i ((ty, decoded) :: rest) out =
        encodeWritebacks seeds (i + 1) rest (out ++ bytes)) ∧
      ReadAs (getWriteback seeds ty arg) bytes arg' := by
  cases h with
  | value v old hv =>
    refine ⟨_, fun i rest out => ?_, (readAs_exact (Reader.value_exact seeds) hv).made Arg.lentValue⟩
    simp only [encodeWritebacks, writtenBack, if_true, putValue_append, Bind.bind, Except.bind]
  | map entries old hwalks | list items old hwalks =>
    have hvalue := readAs_exact (Reader.value_exact seeds) hwalks.1
    refine ⟨_, fun i rest out => ?_, fun r tail hrest => (hvalue r tail hrest).imp fun r' h => ?_⟩
    · simp only [encodeWritebacks, writtenBack, if_true, putWalk_eq seeds out hwalks, Bind.bind,
        Except.bind]
    · refine ⟨?_, h.2⟩
      simp only [getWriteback, h.1, Bind.bind, Except.bind]
  | buffer data old hlength hdata =>
    refine ⟨putBytes [] data, fun i rest out => ?_, ?_⟩
    · simp only [encodeWritebacks, writtenBack, if_true, Bind.bind, Except.bind]
      rw [putBytes_eq]
    · intro r tail hrest
      obtain ⟨r', hread, htail⟩ := Reader.bytes_exact.complete r _ tail hdata hrest
      refine ⟨r', ?_, htail⟩
      simp only [getWriteback, hread, Bind.bind, Except.bind, hlength, Nat.min_self]
      rw [← hlength, List.take_length, List.drop_of_length_le (by omega), List.append_nil]
  | other ty decoded arg hnot =>
    refine ⟨[], fun i rest out => ?_, ?_⟩
    · rw [encodeWritebacks, if_neg (by rw [hnot]; decide), List.append_nil]
    · have hstays : ∀ r, getWriteback seeds ty arg r = .ok (arg, r) := by
        intro r
        cases ty with
        | tree tree pass nullable => cases pass <;> first | rfl | cases hnot
        | bytesMut => cases hnot
        | _ => rfl
      intro r tail hrest
      exact ⟨r, hstays r, hrest⟩

theorem WriteAllBack.written {types : List ArgType} {decoded : List Decoded} {args' : List (Arg O)}
    (h : WriteAllBack types decoded args args') :
    ∃ bytes, (∀ i out, encodeWritebacks seeds i (types.zip decoded) out = .ok (out ++ bytes)) ∧
      ReadAs (getWritebacks seeds types args) bytes args' := by
  induction types generalizing decoded args args' with
  | nil =>
    cases decoded <;> cases args <;> cases args' <;> first
      | exact h.elim
      | exact ⟨[], fun i out => by rw [List.append_nil]; rfl, readAs_nil []⟩
  | cons ty types ih =>
    cases decoded <;> cases args <;> cases args' <;> first
      | exact h.elim
      | skip
    obtain ⟨first, hput, hread⟩ := h.1.written seeds
    obtain ⟨more, hputs, hreads⟩ := ih h.2
    refine ⟨first ++ more, fun i out => ?_, ?_⟩
    · rw [List.zip_cons_cons, hput, hputs, List.append_assoc]
    · exact hread.cons hreads

/-- An answer and what is written back, one after the other, are read as what the caller gets of the
answer and its arguments written to, and no byte is left. -/
theorem encodeAnswer_decodeAnswer {answer got : Answer O} {decoded : List Decoded} {args' : List (Arg O)}
    (hanswer : Answers exported object slot.answer answer got)
    (hback : WriteAllBack slot.args decoded args args') :
    ∃ bytes, (∀ out, (encodeAnswer seeds slot answer out exported >>=
        encodeWritebacks seeds 0 (slot.args.zip decoded)) = .ok (out ++ bytes)) ∧
      decodeAnswer seeds slot bytes args object = .ok (got, args') := by
  obtain ⟨first, hput, hread⟩ := hanswer.written seeds
  obtain ⟨more, hputs, hreads⟩ := hback.written seeds
  refine ⟨first ++ more, fun out => ?_, ?_⟩
  · simp only [hput, Bind.bind, Except.bind, hputs, List.append_assoc]
  · obtain ⟨r, hfirst, hr⟩ := hread (.start (first ++ more)) more rfl
    obtain ⟨r', hmore, hr'⟩ := hreads r [] (by rw [List.append_nil]; exact hr)
    simp only [decodeAnswer, hfirst, hmore, Reader.finish, hr', if_true, Bind.bind, Except.bind]

/-- What a call takes and answers crosses: the arguments are read as what arrives of them, sending
the end from where it lies sends the same bytes, and the answer and the write-backs are read as what
the caller gets. A float that crosses in four bytes is unchanged exactly if those hold it, and a NaN
stays one. -/
theorem call_crosses (seeds : Wire.Seeded) (O : Type) (slot : SlotDescription) :
    (∀ (args : List (Arg O)) (refs : List (Option ObjectRef)) (decoded : List Decoded),
      CrossAll refs 0 slot.args args decoded →
      ∃ bytes, (∀ out, encodeArgs seeds slot args refs out = .ok (out ++ bytes)) ∧
        decodeArgs seeds slot bytes = .ok decoded) ∧
    (∀ (args : List (Arg O)) (refs : List (Option ObjectRef)) (out : List UInt8),
      (encodeArgsTail seeds slot args refs out).map (fun p => p.2 ++ p.1.getD []) =
        encodeArgs seeds slot args refs out) ∧
    (∀ (answer : Answer O) (out : List UInt8) (exported : O → ObjectRef),
      (encodeAnswerTail seeds slot answer out exported).map rebuilt =
        encodeAnswer seeds slot answer out exported) ∧
    (∀ (exported : O → ObjectRef) (object : String → ObjectRef → Except ProtocolError O)
      (answer got : Answer O) (decoded : List Decoded) (args args' : List (Arg O)),
      Answers exported object slot.answer answer got →
      WriteAllBack slot.args decoded args args' →
      ∃ bytes, (∀ out, (encodeAnswer seeds slot answer out exported >>=
          encodeWritebacks seeds 0 (slot.args.zip decoded)) = .ok (out ++ bytes)) ∧
        decodeAnswer seeds slot bytes args object = .ok (got, args')) ∧
    (∀ f, isNaN f = false → (widen (narrow f) = f ↔ ∃ g, widen g = f)) ∧
    (∀ f, isNaN f = true → isNaN (widen (narrow f)) = true) := by
  refine ⟨?_, ?_, ?_, ?_, ?_, ?_⟩
  · intro args refs decoded hcross
    exact encodeArgs_decodeArgs seeds hcross
  · intro args refs out
    exact encodeArgsTail_eq seeds slot args refs out
  · intro answer out exported
    exact encodeAnswerTail_eq seeds slot answer out exported
  · intro exported object answer got decoded args args' hanswer hback
    exact encodeAnswer_decodeAnswer seeds hanswer hback
  · intro f hf
    exact widen_narrow_iff hf
  · intro f hf
    exact isNaN_widen_narrow hf

/-- A number, a buffer and a lent list, answered with a word. -/
theorem call_crosses_lent : ∃ bytes,
    (∀ out, (encodeAnswer ⟨0, 0⟩ ⟨[.scalar .i32, .bytesMut, .tree .list .lent false], some .text⟩
        (.text "ok" : Answer Unit) out (fun _ => .senders 0) >>= encodeWritebacks ⟨0, 0⟩ 0
          [(.scalar .i32, .int 5), (.bytesMut, .buffer [7]), (.tree .list .lent false, .list [.null])]) =
      .ok (out ++ bytes)) ∧
    decodeAnswer ⟨0, 0⟩ ⟨[.scalar .i32, .bytesMut, .tree .list .lent false], some .text⟩ bytes
      [.int 5, .buffer [0], .lentList []] (fun _ _ => .ok ()) =
        .ok (.text "ok", [.int 5, .buffer [7], .lentList [.null]]) := by
  have hlist : Walks (.list [.null]) := by
    refine ⟨⟨?_, ?_⟩, by decide⟩
    · simp [Value.WellFormed, Value.Everywhere, Value.EverywhereItems, Value.NodeOk]
    · simp [Countable, Wire.wire, Wire.wireItems, Wire.putLen]
  apply (call_crosses ⟨0, 0⟩ Unit
    ⟨[.scalar .i32, .bytesMut, .tree .list .lent false], some .text⟩).2.2.2.1 (fun _ => .senders 0)
    (fun _ _ => .ok ()) (.text "ok") (.text "ok") [.int 5, .buffer [7], .list [.null]]
  · apply Answers.text
    have hlen : "ok".utf8ByteSize = 2 := by decide
    simp [CountableText, Countable, asBytes, hlen]
  · refine ⟨.other _ _ _ rfl, .buffer [7] [0] rfl ?_, .list [.null] [] hlist, trivial⟩
    simp [Countable]

/-- A buffer is not read as what it held. -/
theorem buffer_not_sent : ∃ bytes,
    encodeArgs ⟨0, 0⟩ ⟨[.bytesMut], none⟩ [(.buffer [1] : Arg Unit)] [none] [] = .ok bytes ∧
      decodeArgs ⟨0, 0⟩ ⟨[.bytesMut], none⟩ bytes = .ok [.buffer [0]] := by
  have hcross : CrossAll [none] 0 (SlotDescription.mk [.bytesMut] none).args
      [(.buffer [1] : Arg Unit)] [.buffer [0]] :=
    ⟨.buffer [1] none (by decide), trivial⟩
  obtain ⟨bytes, hput, hread⟩ := encodeArgs_decodeArgs ⟨0, 0⟩ hcross
  exact ⟨bytes, hput [], hread⟩

end Guatiao.Remote
