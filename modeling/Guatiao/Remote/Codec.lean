import Guatiao.Lib.Cursor
import Guatiao.Wire.RoundTrip
import Mathlib.Data.Vector.Defs

/-!
# The pieces every frame is made of

Unsigned integers in LEB128, text and bytes behind their length, values in the wire encoding behind
theirs. Each reader answers a piece exactly where the one spelling the writer gives it comes next.
-/

namespace Guatiao.Remote

open Lib

/-- Why bytes are not a frame, with the offset into the body. -/
inductive ProtocolError
  /-- The body ends inside a field. -/
  | truncated (offset : ℕ)
  /-- A LEB128 longer than its shortest form, or wider than 64 bits. -/
  | overlong (offset : ℕ)
  /-- Text that is not UTF-8. -/
  | notUtf8 (offset : ℕ)
  /-- A frame type this version does not define. -/
  | unknownFrame (kind : UInt8)
  /-- A handshake that does not start with the magic. -/
  | notThisProtocol
  /-- A peer speaking another version. -/
  | version (theirs : UInt8)
  /-- A field holding something it cannot. -/
  | field (offset : ℕ) (why : String)
  /-- A value whose wire bytes are malformed. -/
  | wire (offset : ℕ) (why : Wire.WireError)
  /-- A value that could not be encoded. -/
  | value (why : String)
  /-- Bytes after the last field. -/
  | trailing (offset : ℕ)
  /-- A body over the largest a frame carries. -/
  | tooLarge (len max : ℕ)
  deriving DecidableEq

/-- An unsigned LEB128. -/
def putUint (n : UInt64) : List UInt8 :=
  let byte := UInt8.ofNat (n &&& 0x7f).toNat
  if n >>> 7 = 0 then [byte] else (byte ||| 0x80) :: putUint (n >>> 7)
termination_by n.toNat
decreasing_by
  have hshift : (n >>> 7).toNat = n.toNat / 128 := by
    simp [UInt64.toNat_shiftRight, Nat.shiftRight_eq_div_pow]
  have hpos : (n >>> 7).toNat ≠ 0 := fun h => by
    rename_i hne
    exact hne (UInt64.toNat_inj.mp h)
  omega

/-- A signed integer as an unsigned one: its sign in the last bit. -/
def zigzag (n : Int64) : UInt64 := (n <<< 1 ^^^ n >>> 63).toUInt64

/-- A signed integer, zigzagged, as an unsigned LEB128. -/
def putInt (n : Int64) : List UInt8 := putUint (zigzag n)

/-- A number in so many bytes, lowest first. -/
def leBytes : ℕ → ℕ → List UInt8
  | 0, _ => []
  | width + 1, n => UInt8.ofNat (n % 256) :: leBytes width (n / 256)

/-- The number some bytes are, lowest first. -/
def leNat : List UInt8 → ℕ
  | [] => 0
  | b :: rest => b.toNat + 256 * leNat rest

/-- Bytes behind their length. -/
def putBytes (out bytes : List UInt8) : List UInt8 :=
  out ++ putUint (UInt64.ofNat bytes.length) ++ bytes

/-- Text behind its length. -/
def putText (out : List UInt8) (text : String) : List UInt8 := putBytes out (asBytes text)

/-- Moves the bytes from an offset on behind their length. -/
def behindLength (out : List UInt8) (start : ℕ) : List UInt8 :=
  out.take start ++ putUint (UInt64.ofNat (out.length - start)) ++ out.drop start

/-- A value in the wire encoding, behind its length. -/
def putValue (out : List UInt8) (v : Value) : List UInt8 := behindLength (Wire.encode v out) out.length

theorem putValue_eq (out : List UInt8) (v : Value) : putValue out v = putBytes out (Wire.wire v) := by
  simp [putValue, putBytes, behindLength, Wire.encode_eq]

theorem putBytes_eq (out bytes : List UInt8) : putBytes out bytes = out ++ putBytes [] bytes := by
  simp [putBytes]

theorem toNat_shiftRight_seven (n : UInt64) : (n >>> 7).toNat = n.toNat / 128 := by
  simp [UInt64.toNat_shiftRight, Nat.shiftRight_eq_div_pow]

theorem putUint_eq (n : UInt64) : putUint n = Leb128.encode n.toNat := by
  induction hn : n.toNat using Nat.strong_induction_on generalizing n with
  | _ m ih =>
    subst hn
    have hlow : (n &&& 0x7f).toNat = n.toNat % 128 := Nat.and_two_pow_sub_one_eq_mod n.toNat 7
    have hzero : n >>> 7 = 0 ↔ n.toNat < 128 := by
      rw [← UInt64.toNat_inj, toNat_shiftRight_seven, UInt64.toNat_zero]
      omega
    rw [putUint, Leb128.encode, hlow]
    by_cases hsmall : n.toNat < 128
    · rw [if_pos (hzero.mpr hsmall), if_pos hsmall, Nat.mod_eq_of_lt hsmall]
    · have hlt : (n >>> 7).toNat < n.toNat := by
        rw [toNat_shiftRight_seven]
        omega
      rw [if_neg (mt hzero.mp hsmall), if_neg hsmall, ih _ hlt _ rfl, Wire.high_bit,
        toNat_shiftRight_seven]

theorem leNat_leBytes (width n : ℕ) : leNat (leBytes width n) = n % 256 ^ width := by
  induction width generalizing n with
  | zero => simp [leBytes, leNat, Nat.mod_one]
  | succ width ih =>
    have hlow : (UInt8.ofNat (n % 256)).toNat = n % 256 := by simp
    simp only [leBytes, leNat, hlow, ih, Nat.pow_succ']
    rw [Nat.mod_mul]

theorem length_leBytes (width n : ℕ) : (leBytes width n).length = width := by
  induction width generalizing n with
  | zero => rfl
  | succ width ih => rw [leBytes, List.length_cons, ih]

/-- The signed integer an unsigned one stands for. -/
def unzigzag (z : UInt64) : Int64 := (z >>> 1).toInt64 ^^^ -(z &&& 1).toInt64

theorem neg_and_one (z : BitVec 64) {i : ℕ} (hi : i < 64) :
    (-(z &&& 1#64)).getLsbD i = z.getLsbD 0 := by
  have hbit : z &&& 1#64 = if z.getLsbD 0 then 1#64 else 0#64 := by
    apply BitVec.eq_of_getLsbD_eq
    intro j hj
    rcases j with _ | j <;> split <;> simp_all
  rw [hbit]
  cases z.getLsbD 0 with
  | true =>
    have hones : -(if true = true then 1#64 else 0#64) = BitVec.allOnes 64 := by decide
    rw [hones, BitVec.getLsbD_allOnes]
    simpa using hi
  | false =>
    have hzero : -(if false = true then 1#64 else 0#64) = 0#64 := by decide
    rw [hzero, BitVec.getLsbD_zero]

theorem bits_zigzag (x : BitVec 64) {i : ℕ} (hi : i < 64) :
    (x <<< 1 ^^^ x.sshiftRight 63).getLsbD i =
      ((decide (0 < i) && x.getLsbD (i - 1)) ^^ x.getLsbD 63) := by
  rw [BitVec.getLsbD_xor, BitVec.getLsbD_shiftLeft, BitVec.getLsbD_sshiftRight]
  rcases Nat.eq_zero_or_pos i with rfl | hpos
  · simp
  · have hsign : ¬63 + i < 64 := by omega
    have hin : ¬64 ≤ i := by omega
    have hone : ¬i < 1 := by omega
    simp [hsign, hin, hone, hi, hpos, BitVec.msb_eq_getLsbD_last]

theorem unzigzag_zigzag (n : Int64) : unzigzag (zigzag n) = n := by
  apply Int64.toBitVec_inj.mp
  have hbits : ((n.toBitVec <<< 1 ^^^ n.toBitVec.sshiftRight 63) >>> 1) ^^^
      -((n.toBitVec <<< 1 ^^^ n.toBitVec.sshiftRight 63) &&& 1#64) = n.toBitVec := by
    apply BitVec.eq_of_getLsbD_eq
    intro i hi
    have hzero : 0 < 64 := by decide
    rw [BitVec.getLsbD_xor, neg_and_one _ hi, BitVec.getLsbD_ushiftRight, bits_zigzag _ hzero]
    rcases Nat.lt_or_ge i 63 with hlt | hge
    · have hup : 1 + i < 64 := by omega
      rw [bits_zigzag _ hup]
      simp
    · have hlast : i = 63 := by omega
      subst hlast
      rw [BitVec.getLsbD_of_ge _ _ (by omega)]
      simp
  simpa [unzigzag, zigzag] using hbits

theorem zigzag_unzigzag (z : UInt64) : zigzag (unzigzag z) = z := by
  apply UInt64.toBitVec_inj.mp
  have hbits : (z.toBitVec >>> 1 ^^^ -(z.toBitVec &&& 1#64)) <<< 1 ^^^
      (z.toBitVec >>> 1 ^^^ -(z.toBitVec &&& 1#64)).sshiftRight 63 = z.toBitVec := by
    apply BitVec.eq_of_getLsbD_eq
    intro i hi
    have hbit : ∀ j < 64, (z.toBitVec >>> 1 ^^^ -(z.toBitVec &&& 1#64)).getLsbD j =
        (z.toBitVec.getLsbD (1 + j) ^^ z.toBitVec.getLsbD 0) := by
      intro j hj
      rw [BitVec.getLsbD_xor, neg_and_one _ hj, BitVec.getLsbD_ushiftRight]
    have htop : z.toBitVec.getLsbD (1 + 63) = false := BitVec.getLsbD_of_ge _ _ (by omega)
    rw [bits_zigzag _ hi, hbit 63 (by omega), htop]
    rcases Nat.eq_zero_or_pos i with rfl | hpos
    · simp
    · have hback : 1 + (i - 1) = i := by omega
      rw [hbit (i - 1) (by omega), hback]
      simp [hpos]
  simpa [unzigzag, zigzag] using hbits

/-- Reads a frame's fields in order, refusing what is short or malformed. -/
abbrev Reader := Cursor UInt8

/-- What reads one field. -/
abbrev Field (X : Type) := Reads UInt8 ProtocolError X

namespace Reader

/-- Refuses anything left after the last field. -/
def finish (r : Reader) : Except ProtocolError Unit :=
  if r.rest = [] then .ok () else .error (.trailing r.pos)

def byte : Field UInt8 := fun r =>
  match r.rest with
  | [] => .error (.truncated r.pos)
  | b :: rest => .ok (b, ⟨rest, r.pos + 1⟩)

/-- So many bytes. -/
def fixed (n : ℕ) : Field (List.Vector UInt8 n) := fun r =>
  if h : n ≤ r.rest.length then
    .ok (⟨r.rest.take n, List.length_take_of_le h⟩, ⟨r.rest.drop n, r.pos + n⟩)
  else .error (.truncated r.pos)

/-- The loop of `uint` over the shifts that are left. -/
def uintLoop (start n : ℕ) : List ℕ → Field ℕ
  | [], _ => .error (.overlong start)
  | shift :: shifts, r => do
    let (byte, r) ← byte r
    let bits := byte.toNat &&& 0x7f
    if shift = 63 ∧ 1 < bits then .error (.overlong start)
    else
      let n := n ||| bits <<< shift
      if byte &&& 0x80 = 0 then
        -- A final zero byte after the first is a longer spelling of a shorter number.
        if byte = 0 ∧ 0 < shift then .error (.overlong start) else .ok (n, r)
      else uintLoop start n shifts r

/-- An unsigned LEB128, refused when longer than its shortest form or wider than 64 bits. -/
def uint : Field UInt64 := fun r =>
  (uintLoop r.pos 0 (List.range' 0 10 7) r).map fun p => (UInt64.ofNat p.1, p.2)

def int : Field Int64 := fun r => (uint r).map fun p => (unzigzag p.1, p.2)

/-- A length that must fit what is left. -/
def len : Field ℕ := fun r => do
  let (n, r') ← uint r
  if n.toNat ≤ r'.rest.length then .ok (n.toNat, r') else .error (.truncated r.pos)

def bytes : Field (List UInt8) := fun r => do
  let (n, r) ← len r
  .ok (r.rest.take n, ⟨r.rest.drop n, r.pos + n⟩)

def text : Field String := fun r => do
  let (data, r') ← bytes r
  match fromUtf8 data with
  | some text => .ok (text, r')
  | none => .error (.notUtf8 r.pos)

/-- A value. The source draws the seeds at random; here they are given. -/
def value (seeds : Wire.Seeded) : Field Value := fun r => do
  let (data, r') ← bytes r
  match Wire.decode seeds data with
  | .ok v => .ok (v, r')
  | .error e => .error (.wire r.pos e)

end Reader

/-- Bytes that are not more than a length can say. -/
def Countable (data : List UInt8) : Prop := data.length < 2 ^ 64

/-- Text that is not more than a length can say. -/
def CountableText (text : String) : Prop := Countable (asBytes text)

/-- A value the decoder can give, in bytes that are not more than a length can say. -/
def Carried (v : Value) : Prop := v.WellFormed ∧ Countable (Wire.wire v)

namespace Reader

theorem byte_exact : Exact byte (fun b => [b]) fun _ => True where
  sound r b r' h := by
    obtain ⟨rest, pos⟩ := r
    cases rest with
    | nil => cases h
    | cons c rest =>
      cases h
      exact ⟨trivial, rfl⟩
  complete r b tail _ hrest := by
    obtain ⟨rest, pos⟩ := r
    simp only at hrest
    subst hrest
    exact ⟨_, rfl, rfl⟩

theorem fixed_exact (n : ℕ) : Exact (fixed n) (fun v => v.toList) fun _ => True where
  sound r v r' h := by
    unfold fixed at h
    split at h
    · cases h
      exact ⟨trivial, (List.take_append_drop n r.rest).symm⟩
    · cases h
  complete r v tail _ hrest := by
    obtain ⟨data, hdata⟩ := v
    have hle : n ≤ r.rest.length := by
      rw [hrest, List.length_append]
      simp only [List.Vector.toList_mk]
      omega
    refine ⟨⟨r.rest.drop n, r.pos + n⟩, ?_, ?_⟩
    · simp only [fixed, hle, dite_true]
      congr 2
      apply Subtype.ext
      simp only [hrest, List.Vector.toList_mk]
      rw [← hdata, List.take_left]
    · simp only [hrest, List.Vector.toList_mk]
      rw [← hdata, List.drop_left]

theorem uintLoop_eq_ok {start n shift left m : ℕ} {r r' : Reader} (h : shift + 7 * left = 70) :
    uintLoop start n (List.range' shift left 7) r = .ok (m, r') ↔
      Wire.Reader.lebLoop start n shift r.pos 0 r.rest = .ok (m, ⟨r'.rest, r'.pos, 0⟩) := by
  induction left generalizing n shift r with
  | zero =>
    have hshift : shift = 70 := by omega
    subst hshift
    cases hrest : r.rest with
    | nil => simp [uintLoop, Wire.Reader.lebLoop]
    | cons b rest => simp [uintLoop, Wire.Reader.lebLoop]
  | succ left ih =>
    rw [List.range'_succ]
    obtain ⟨rest, pos⟩ := r
    cases rest with
    | nil => simp [uintLoop, Wire.Reader.lebLoop, byte, Bind.bind, Except.bind]
    | cons b rest =>
      have hwide : ¬63 < shift := by omega
      simp only [uintLoop, Wire.Reader.lebLoop, byte, Bind.bind, Except.bind, hwide, or_false]
      split
      · simp
      · split
        · split
          · simp
          · obtain ⟨rest', pos'⟩ := r'
            simp
        · exact ih (by omega)

theorem uintLoop_start {start m : ℕ} {r r' : Reader} :
    uintLoop start 0 (List.range' 0 10 7) r = .ok (m, r') ↔
      m < 2 ^ 64 ∧ r.rest = Leb128.encode m ++ r'.rest ∧
        r'.pos = r.pos + (Leb128.encode m).length := by
  rw [uintLoop_eq_ok (by decide), Wire.Reader.lebLoop_eq_ok (by decide) (by decide)]
  constructor
  · rintro ⟨bs, hshort, -, rfl, hlt, hrest, hpos, -⟩
    simp only [Nat.pow_zero, Nat.zero_add, Nat.one_mul] at *
    rw [hshort.encode_value]
    exact ⟨hlt, hrest, hpos⟩
  · rintro ⟨hlt, hrest, hpos⟩
    refine ⟨Leb128.encode m, Leb128.shortest_encode m, by simp, ?_, hlt, hrest, hpos, rfl⟩
    simp [Leb128.value_encode]

theorem uint_exact : Exact uint putUint fun _ => True where
  sound r n r' h := by
    unfold uint at h
    cases hloop : uintLoop r.pos 0 (List.range' 0 10 7) r with
    | error e =>
      rw [hloop] at h
      cases h
    | ok p =>
      obtain ⟨m, s⟩ := p
      rw [hloop] at h
      cases h
      obtain ⟨hlt, hrest, -⟩ := uintLoop_start.mp hloop
      refine ⟨trivial, ?_⟩
      rw [putUint_eq, UInt64.toNat_ofNat_of_lt' hlt]
      exact hrest
  complete r n tail _ hrest := by
    rw [putUint_eq] at hrest
    let behind : Reader := ⟨tail, r.pos + (Leb128.encode n.toNat).length⟩
    have hloop : uintLoop r.pos 0 (List.range' 0 10 7) r = .ok (n.toNat, behind) :=
      uintLoop_start.mpr ⟨n.toNat_lt, hrest, rfl⟩
    refine ⟨behind, ?_, rfl⟩
    rw [uint, hloop]
    simp [Except.map]

theorem bytes_eq (r : Reader) : bytes r = uint r >>= fun p =>
    if p.1.toNat ≤ p.2.rest.length then
      .ok (p.2.rest.take p.1.toNat, ⟨p.2.rest.drop p.1.toNat, p.2.pos + p.1.toNat⟩)
    else .error (.truncated r.pos) := by
  unfold bytes len
  cases uint r with
  | error e => rfl
  | ok p =>
    simp only [Bind.bind, Except.bind]
    by_cases hle : p.1.toNat ≤ p.2.rest.length
    · simp only [if_pos hle]
    · simp only [if_neg hle]

theorem bytes_exact : Exact bytes (putBytes []) Countable where
  sound r data r' h := by
    rw [bytes_eq] at h
    obtain ⟨n, s, -, hrest, h⟩ := uint_exact.of_bind h
    split at h
    · next hle =>
      cases h
      have hlen : (s.rest.take n.toNat).length = n.toNat := List.length_take_of_le hle
      refine ⟨by rw [Countable, hlen]; exact n.toNat_lt, ?_⟩
      rw [putBytes, List.nil_append, hlen, UInt64.ofNat_toNat, List.append_assoc,
        List.take_append_drop]
      exact hrest
    · cases h
  complete r data tail hdata hrest := by
    rw [putBytes, List.nil_append, List.append_assoc] at hrest
    obtain ⟨s, huint, hs⟩ := uint_exact.complete r _ _ trivial hrest
    have hn : (UInt64.ofNat data.length).toNat = data.length := UInt64.toNat_ofNat_of_lt' hdata
    refine ⟨⟨tail, s.pos + data.length⟩, ?_, rfl⟩
    rw [bytes_eq, huint]
    simp only [Bind.bind, Except.bind, hn, hs, List.length_append, Nat.le_add_right, if_true,
      List.take_left, List.drop_left]

theorem text_exact : Exact text (putText []) CountableText where
  sound r t r' h := by
    obtain ⟨data, s, hdata, hrest, h⟩ := bytes_exact.of_bind h
    simp only at h
    split at h
    · next u hu =>
      cases h
      rw [← asBytes_of_fromUtf8 hu] at hdata hrest
      exact ⟨hdata, hrest⟩
    · cases h
  complete r t tail ht hrest := by
    obtain ⟨s, hbytes, hs⟩ := bytes_exact.complete r _ _ ht hrest
    refine ⟨s, ?_, hs⟩
    simp only [text, hbytes, Bind.bind, Except.bind, fromUtf8_asBytes]

theorem value_exact (seeds : Wire.Seeded) :
    Exact (value seeds) (fun v => putBytes [] (Wire.wire v)) Carried where
  sound r v r' h := by
    obtain ⟨data, s, hdata, hrest, h⟩ := bytes_exact.of_bind h
    simp only at h
    split at h
    · next w hw =>
      cases h
      obtain ⟨hwell, hbytes⟩ := Wire.decode_eq_ok.mp hw
      rw [Wire.toBytes_eq] at hbytes
      rw [← hbytes] at hdata hrest
      exact ⟨⟨hwell, hdata⟩, hrest⟩
    · cases h
  complete r v tail hv hrest := by
    obtain ⟨s, hbytes, hs⟩ := bytes_exact.complete r _ _ hv.2 hrest
    refine ⟨s, ?_, hs⟩
    have hdecode : Wire.decode seeds (Wire.wire v) = .ok v :=
      Wire.decode_eq_ok.mpr ⟨hv.1, Wire.toBytes_eq v⟩
    simp only [value, hbytes, Bind.bind, Except.bind, hdecode]

theorem int_exact : Exact int putInt fun _ => True := by
  apply uint_exact.map
  · intro z _
    exact ⟨trivial, by rw [putInt, zigzag_unzigzag]⟩
  · intro n _
    exact ⟨zigzag n, trivial, unzigzag_zigzag n, rfl⟩

end Reader

end Guatiao.Remote
