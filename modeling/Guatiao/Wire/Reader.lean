import Guatiao.Wire.Encode

/-!
# Reading wire bytes

The reader takes one piece at a time off the front of the bytes: a byte, a length, a
text, a node's head. Each piece has one spelling, so for each there is one theorem: the
reader answers the piece exactly when the bytes start with its spelling.
-/

namespace Guatiao.Wire

open Lib

/-- Why a value could not be read from a walk: the source of the walk stopped and
keeps the reason, or the value is not what was expected. -/
inductive MapError where
  | stopped
  | badValue (expected : String)
  deriving DecidableEq, Repr

/-- Why bytes are not a value. Each variant but the last says where, as an offset. -/
inductive WireError where
  /-- The bytes end inside a node. -/
  | truncated (offset : ℕ)
  /-- A tag byte this build does not know. -/
  | unknownTag (offset : ℕ) (tag : UInt8)
  /-- A length or count that is not the shortest LEB128, or overflows. -/
  | overlong (offset : ℕ)
  /-- Text that is not UTF-8. -/
  | notUtf8 (offset : ℕ)
  /-- A number whose text is outside the JSON grammar. -/
  | notANumber (offset : ℕ)
  /-- A bool whose byte is neither 0 nor 1. -/
  | notABool (offset : ℕ) (byte : UInt8)
  /-- A map key that came before in the same map. -/
  | duplicateKey (offset : ℕ)
  /-- Bytes after the value ended. -/
  | trailing (offset : ℕ)
  /-- A container opened past the depth a streaming read follows. -/
  | tooDeep (offset : ℕ)
  /-- Well-formed bytes whose value the type read into refuses. -/
  | refused (error : MapError)
  deriving DecidableEq, Repr

/-- The bytes not yet read, how many were, and the offset the first had. -/
structure Reader where
  rest : List UInt8
  pos : ℕ
  base : ℕ
  deriving DecidableEq

namespace Reader

/-- A reader at the start of some bytes. -/
def start (bytes : List UInt8) (base : ℕ) : Reader := ⟨bytes, 0, base⟩

/-- The offset of the next byte. -/
def offset (r : Reader) : ℕ := r.base + r.pos

/-- One byte. -/
def byte (r : Reader) : Except WireError (UInt8 × Reader) :=
  match r.rest with
  | [] => .error (.truncated r.offset)
  | b :: rest => .ok (b, ⟨rest, r.pos + 1, r.base⟩)

/-- The loop of `leb`: the bits read so far, and where the next seven go. -/
def lebLoop (start n shift pos base : ℕ) : List UInt8 → Except WireError (ℕ × Reader)
  | [] => .error (.truncated (base + pos))
  | byte :: rest =>
    let bits := byte.toNat &&& 0x7f
    if shift = 63 ∧ 1 < bits ∨ 63 < shift then .error (.overlong start)
    else
      let n := n ||| bits <<< shift
      if byte &&& 0x80 = 0 then
        -- A final zero byte after the first is a longer spelling of a shorter number.
        if byte = 0 ∧ 0 < shift then .error (.overlong start)
        else .ok (n, ⟨rest, pos + 1, base⟩)
      else lebLoop start n (shift + 7) (pos + 1) base rest

/-- An unsigned LEB128 of at most 64 bits, in its shortest form. -/
def leb (r : Reader) : Except WireError (ℕ × Reader) :=
  lebLoop r.offset 0 0 r.pos r.base r.rest

/-- A length, no more than the bytes that remain. -/
def len (r : Reader) : Except WireError (ℕ × Reader) := do
  let (n, r) ← r.leb
  if r.rest.length < n then .error (.truncated r.offset) else .ok (n, r)

/-- A count of elements, each at least a byte, so no more than remain. -/
def count (r : Reader) : Except WireError (ℕ × Reader) := do
  let (n, r) ← r.leb
  if r.rest.length < n then .error (.truncated r.offset) else .ok (n, r)

/-- Bytes behind their length. -/
def slice (r : Reader) : Except WireError (List UInt8 × Reader) := do
  let (n, r) ← r.len
  .ok (r.rest.take n, ⟨r.rest.drop n, r.pos + n, r.base⟩)

/-- Text behind its length; one that is not UTF-8 is refused where the length starts. -/
def text (r : Reader) : Except WireError (String × Reader) := do
  let (bytes, r') ← r.slice
  match fromUtf8 bytes with
  | some text => .ok (text, r')
  | none => .error (.notUtf8 r.offset)

/-- The byte of a bool. -/
def boolByte (r : Reader) : Except WireError (Bool × Reader) := do
  let (b, r') ← r.byte
  if b = 0 then .ok (false, r')
  else if b = 1 then .ok (true, r')
  else .error (.notABool r.offset b)

/-- The text of a number, refused where its length starts. -/
def number (r : Reader) : Except WireError (Number × Reader) := do
  let (text, r') ← r.text
  match Number.new text with
  | some n => .ok (n, r')
  | none => .error (.notANumber r.offset)

end Reader

/-- One node read: a finished leaf, or a container with how many it holds. -/
inductive Node where
  | leaf (value : Value)
  | list (count : ℕ)
  | map (count : ℕ)

/-- One node's head as a streaming reader sees it: a leaf whole, a container as its
count. -/
inductive Token where
  | absent
  | null
  | bool (b : Bool)
  | number (n : Number)
  | string (text : String)
  | bytes (data : List UInt8)
  | list (count : ℕ)
  | map (count : ℕ)

namespace Reader

/-- One node: its leaf built, or its container's count. -/
def node (r : Reader) : Except WireError (Node × Reader) := do
  let (tag, r') ← r.byte
  match Tag.ofByte? tag with
  | some .absent => .ok (.leaf .absent, r')
  | some .null => .ok (.leaf .null, r')
  | some .bool => do
    let (b, r') ← r'.boolByte
    .ok (.leaf (.bool b), r')
  | some .number => do
    let (n, r') ← r'.number
    .ok (.leaf (.number n), r')
  | some .string => do
    let (text, r') ← r'.text
    .ok (.leaf (.string text), r')
  | some .bytes => do
    let (data, r') ← r'.slice
    .ok (.leaf (.bytes data), r')
  | some .list => do
    let (n, r') ← r'.count
    .ok (.list n, r')
  | some .map => do
    let (n, r') ← r'.count
    .ok (.map n, r')
  | none => .error (.unknownTag r.offset tag)

/-- One node's head, with nothing built. -/
def token (r : Reader) : Except WireError (Token × Reader) := do
  let (tag, r') ← r.byte
  match Tag.ofByte? tag with
  | some .absent => .ok (.absent, r')
  | some .null => .ok (.null, r')
  | some .bool => do
    let (b, r') ← r'.boolByte
    .ok (.bool b, r')
  | some .number => do
    let (n, r') ← r'.number
    .ok (.number n, r')
  | some .string => do
    let (text, r') ← r'.text
    .ok (.string text, r')
  | some .bytes => do
    let (data, r') ← r'.slice
    .ok (.bytes data, r')
  | some .list => do
    let (n, r') ← r'.count
    .ok (.list n, r')
  | some .map => do
    let (n, r') ← r'.count
    .ok (.map n, r')
  | none => .error (.unknownTag r.offset tag)

end Reader

/-- What the tree decoder makes of a head. -/
def Token.node : Token → Node
  | .absent => .leaf .absent
  | .null => .leaf .null
  | .bool b => .leaf (.bool b)
  | .number n => .leaf (.number n)
  | .string text => .leaf (.string text)
  | .bytes data => .leaf (.bytes data)
  | .list n => .list n
  | .map n => .map n

theorem Reader.node_eq_token (r : Reader) :
    r.node = r.token.map (fun p => (p.1.node, p.2)) := by
  unfold Reader.node Reader.token
  cases r.byte with
  | error e => rfl
  | ok p =>
    obtain ⟨tag, r'⟩ := p
    simp only [Bind.bind, Except.bind]
    split
    · rfl
    · rfl
    · cases r'.boolByte <;> rfl
    · cases r'.number <;> rfl
    · cases r'.text <;> rfl
    · cases r'.slice <;> rfl
    · cases r'.count <;> rfl
    · cases r'.count <;> rfl
    · rfl

/-- `r'` is `r` after taking `bytes` off the front. -/
def Reader.Takes (r : Reader) (bytes : List UInt8) (r' : Reader) : Prop :=
  r.rest = bytes ++ r'.rest ∧ r'.pos = r.pos + bytes.length ∧ r'.base = r.base

namespace Reader

theorem Takes.refl (r : Reader) : r.Takes [] r := ⟨rfl, rfl, rfl⟩

variable {r r' r'' : Reader} {a : List UInt8} {n shift : ℕ}

theorem Takes.trans {b : List UInt8} (h : r.Takes a r') (h' : r'.Takes b r'') : r.Takes (a ++ b) r'' := by
  obtain ⟨hrest, hpos, hbase⟩ := h
  obtain ⟨hrest', hpos', hbase'⟩ := h'
  refine ⟨by rw [hrest, hrest', List.append_assoc], ?_, by rw [hbase', hbase]⟩
  rw [hpos', hpos, List.length_append]
  omega

theorem Takes.split {b : List UInt8} (h : r.Takes (a ++ b) r'') :
    ∃ r', r.Takes a r' ∧ r'.Takes b r'' := by
  obtain ⟨hrest, hpos, hbase⟩ := h
  refine ⟨⟨b ++ r''.rest, r.pos + a.length, r.base⟩, ⟨?_, rfl, rfl⟩, rfl, ?_, hbase⟩
  · rw [hrest, List.append_assoc]
  · rw [hpos, List.length_append, Nat.add_assoc]

theorem Takes.unique (h : r.Takes a r') (h' : r.Takes a r'') : r' = r'' := by
  obtain ⟨rest', pos', base'⟩ := r'
  obtain ⟨rest'', pos'', base''⟩ := r''
  obtain ⟨hrest, hpos, hbase⟩ := h
  obtain ⟨hrest', hpos', hbase'⟩ := h'
  have := List.append_cancel_left (hrest.symm.trans hrest')
  simp_all

theorem Takes.length (h : r.Takes a r') :
    r.rest.length = a.length + r'.rest.length := by
  rw [h.1, List.length_append]

theorem byte_eq_ok {b : UInt8} : r.byte = .ok (b, r') ↔ r.Takes [b] r' := by
  obtain ⟨rest, pos, base⟩ := r
  obtain ⟨rest', pos', base'⟩ := r'
  cases rest with
  | nil => simp [byte, Takes]
  | cons c rest =>
    simp only [byte, Takes, Except.ok.injEq, Prod.mk.injEq, Reader.mk.injEq, List.cons_append,
      List.nil_append, List.cons.injEq, List.length_singleton]
    constructor
    · rintro ⟨rfl, rfl, rfl, rfl⟩
      exact ⟨⟨rfl, rfl⟩, rfl, rfl⟩
    · rintro ⟨⟨rfl, rfl⟩, rfl, rfl⟩
      exact ⟨rfl, rfl, rfl, rfl⟩

theorem continues_iff (b : UInt8) : b &&& 0x80 = 0 ↔ b.toNat < 128 := by
  have h : ∀ k : Fin 256, UInt8.ofNat k.val &&& 0x80 = 0 ↔ k.val < 128 := by decide +kernel
  simpa using h ⟨b.toNat, b.toNat_lt⟩

theorem bits_eq (b : UInt8) : b.toNat &&& 0x7f = b.toNat % 128 :=
  Nat.and_two_pow_sub_one_eq_mod b.toNat 7

theorem or_shift (bits : ℕ) (hn : n < 2 ^ shift) :
    n ||| bits <<< shift = n + 2 ^ shift * bits := by
  rw [Nat.shiftLeft_eq, Nat.mul_comm bits, Nat.or_comm, ← Nat.two_pow_add_eq_or_of_lt hn,
    Nat.add_comm]

/-- The overflow check of the loop, on the number itself: the bits at `shift` fit
exactly when what is left of the number does. -/
theorem overflow_iff {bits : ℕ} (hbits : bits < 128)
    (hshift : shift % 7 = 0) (h : ¬(shift = 63 ∧ 1 < bits ∨ 63 < shift)) :
    2 ^ shift * bits + 2 ^ shift ≤ 2 ^ 64 := by
  push Not at h
  rcases Nat.lt_or_ge shift 63 with hlt | hge
  · have hpow : 2 ^ shift ≤ 2 ^ 56 := Nat.pow_le_pow_right (by decide) (by omega)
    have hmul : 2 ^ shift * bits ≤ 2 ^ 56 * 127 := Nat.mul_le_mul hpow (by omega)
    omega
  · have heq : shift = 63 := by omega
    have hle := h.1 heq
    subst heq
    have : bits = 0 ∨ bits = 1 := by omega
    rcases this with rfl | rfl <;> decide

theorem overflow_of {bits : ℕ} (h : shift = 63 ∧ 1 < bits ∨ 63 < shift)
    (hshift : shift % 7 = 0) (tail : ℕ) (hpos : 0 < bits + 128 * tail ∨ shift = 0) :
    2 ^ 64 ≤ 2 ^ shift * (bits + 128 * tail) := by
  rcases h with ⟨rfl, hbits⟩ | hgt
  · have : 2 ^ 63 * 2 ≤ 2 ^ 63 * (bits + 128 * tail) := Nat.mul_le_mul_left _ (by omega)
    omega
  · have hpow : 2 ^ 64 ≤ 2 ^ shift := Nat.pow_le_pow_right (by decide) (by omega)
    have : 2 ^ shift * 1 ≤ 2 ^ shift * (bits + 128 * tail) :=
      Nat.mul_le_mul_left _ (by omega)
    omega

/-- The loop of `leb` reads a shortest spelling of what is left of the number, which
is not the lone zero unless nothing was read before it. -/
theorem lebLoop_eq_ok {start pos base : ℕ} {bytes : List UInt8} {m : ℕ}
    (hn : n < 2 ^ shift) (hshift : shift % 7 = 0) :
    lebLoop start n shift pos base bytes = .ok (m, r') ↔
      ∃ bs, Leb128.Shortest bs ∧ (0 < shift → bs ≠ [0]) ∧ m = n + 2 ^ shift * Leb128.value bs ∧
        m < 2 ^ 64 ∧ Takes ⟨bytes, pos, base⟩ bs r' := by
  induction bytes generalizing n shift pos with
  | nil =>
    simp only [lebLoop, reduceCtorEq, false_iff]
    rintro ⟨bs, hbs, -, -, -, htakes, -⟩
    exact hbs.ne_nil (List.append_eq_nil_iff.mp htakes.symm).1
  | cons b rest ih =>
    have hbits : b.toNat % 128 < 128 := Nat.mod_lt _ (by decide)
    simp only [lebLoop, bits_eq]
    split
    · next hover =>
      simp only [reduceCtorEq, false_iff]
      rintro ⟨bs, hbs, hzero, rfl, hlt, htakes, -⟩
      have hbig : 2 ^ 64 ≤ 2 ^ shift * Leb128.value bs := by
        cases bs with
        | nil => exact absurd rfl hbs.ne_nil
        | cons c bs =>
          have hc : c = b := by simpa using congrArg List.head? htakes.symm
          subst hc
          refine overflow_of hover hshift (Leb128.value bs) ?_
          rcases Nat.eq_zero_or_pos shift with h0 | h0
          · exact .inr h0
          · exact .inl (hbs.value_pos (hzero h0))
      omega
    · next hfit =>
      have hbound := overflow_iff hbits hshift hfit
      rw [or_shift _ hn]
      by_cases hlast : b.toNat < 128
      · rw [if_pos ((continues_iff b).mpr hlast), Nat.mod_eq_of_lt hlast]
        by_cases hzero : b = 0 ∧ 0 < shift
        · rw [if_pos hzero]
          simp only [reduceCtorEq, false_iff]
          rintro ⟨bs, hbs, hne, -, -, htakes, -⟩
          cases hbs with
          | last c hc =>
            have : b = c := (List.cons.inj htakes).1
            exact hne hzero.2 (by rw [← this, hzero.1])
          | more c bs hc hbs hbs0 =>
            have : b = c := (List.cons.inj htakes).1
            rw [← this] at hc
            omega
        · rw [if_neg hzero]
          simp only [Except.ok.injEq, Prod.mk.injEq]
          constructor
          · rintro ⟨rfl, rfl⟩
            refine ⟨[b], .last b hlast, ?_, ?_, ?_, rfl, rfl, rfl⟩
            · intro h0 hb
              exact hzero ⟨(List.cons.inj hb).1, h0⟩
            · simp [Leb128.value, Nat.mod_eq_of_lt hlast]
            · rw [Nat.mod_eq_of_lt hlast] at hbound
              omega
          · rintro ⟨bs, hbs, -, rfl, -, htakes⟩
            cases hbs with
            | last c hc =>
              have : b = c := (List.cons.inj htakes.1).1
              subst this
              obtain ⟨rest', pos', base'⟩ := r'
              obtain ⟨h1, h2, h3⟩ := htakes
              simp_all [Leb128.value, Nat.mod_eq_of_lt hlast]
            | more c bs hc hbs hbs0 =>
              have : b = c := (List.cons.inj htakes.1).1
              rw [← this] at hc
              omega
      · have hcont : ¬b &&& 0x80 = 0 := fun h => hlast ((continues_iff b).mp h)
        have hn' : n + 2 ^ shift * (b.toNat % 128) < 2 ^ (shift + 7) := by
          have hmul : 2 ^ shift * (b.toNat % 128) ≤ 2 ^ shift * 127 :=
            Nat.mul_le_mul_left _ (by omega)
          rw [Nat.pow_add]
          omega
        rw [if_neg hcont, ih hn' (by omega)]
        have hvalue : ∀ bs, n + 2 ^ shift * (b.toNat % 128) + 2 ^ (shift + 7) * Leb128.value bs =
            n + 2 ^ shift * Leb128.value (b :: bs) := by
          intro bs
          simp only [Leb128.value, Nat.pow_add]
          ring
        constructor
        · rintro ⟨bs, hbs, hne, rfl, hlt, hrest, hpos, hbase⟩
          refine ⟨b :: bs, .more b bs (by omega) hbs (hne (by omega)), ?_, hvalue bs, hlt, ?_, ?_,
            hbase⟩
          · intro _ heq
            exact hbs.ne_nil (List.cons.inj heq).2
          · simpa using hrest
          · simp only [List.length_cons] at hpos ⊢
            omega
        · rintro ⟨bs, hbs, -, rfl, hlt, htakes⟩
          cases hbs with
          | last c hc =>
            have : b = c := (List.cons.inj htakes.1).1
            rw [← this] at hc
            exact absurd hc hlast
          | more c bs hc hbs hne =>
            obtain ⟨hrest, hpos, hbase⟩ := htakes
            have hb : b = c := (List.cons.inj hrest).1
            subst hb
            refine ⟨bs, hbs, fun _ => hne, (hvalue bs).symm, hlt, ?_, ?_, hbase⟩
            · simpa using hrest
            · simp only [List.length_cons] at hpos ⊢
              omega

theorem leb_eq_ok :
    r.leb = .ok (n, r') ↔ n < 2 ^ 64 ∧ r.Takes (putLen n) r' := by
  rw [leb, lebLoop_eq_ok (by decide) rfl, putLen_eq]
  constructor
  · rintro ⟨bs, hbs, -, rfl, hlt, htakes⟩
    simp only [Nat.pow_zero, Nat.one_mul, Nat.zero_add] at hlt ⊢
    exact ⟨hlt, by rw [hbs.encode_value]; exact htakes⟩
  · rintro ⟨hlt, htakes⟩
    exact ⟨_, Leb128.shortest_encode n, by simp, by simp [Leb128.value_encode], hlt, htakes⟩

theorem len_eq_ok :
    r.len = .ok (n, r') ↔ n < 2 ^ 64 ∧ n ≤ r'.rest.length ∧ r.Takes (putLen n) r' := by
  unfold len
  cases hleb : r.leb with
  | error e =>
    simp only [Bind.bind, Except.bind, reduceCtorEq, false_iff]
    rintro ⟨hlt, -, htakes⟩
    rw [leb_eq_ok.mpr ⟨hlt, htakes⟩] at hleb
    cases hleb
  | ok p =>
    obtain ⟨k, s⟩ := p
    obtain ⟨hlt, htakes⟩ := leb_eq_ok.mp hleb
    simp only [Bind.bind, Except.bind]
    constructor
    · split
      · simp
      · next hle =>
        rintro h
        cases h
        exact ⟨hlt, by omega, htakes⟩
    · rintro ⟨hlt', hle, htakes'⟩
      have heq := leb_eq_ok.mpr ⟨hlt', htakes'⟩
      rw [hleb] at heq
      cases heq
      rw [if_neg (by omega)]

theorem count_eq_len (r : Reader) : r.count = r.len := rfl

theorem slice_eq_ok {data : List UInt8} :
    r.slice = .ok (data, r') ↔ data.length < 2 ^ 64 ∧ r.Takes (putBytes data) r' := by
  unfold slice putBytes
  cases hlen : r.len with
  | error e =>
    simp only [Bind.bind, Except.bind, reduceCtorEq, false_iff]
    rintro ⟨hlt, htakes⟩
    obtain ⟨s, hlen', hdata⟩ := htakes.split
    rw [len_eq_ok.mpr ⟨hlt, by rw [hdata.length]; omega, hlen'⟩] at hlen
    cases hlen
  | ok p =>
    obtain ⟨n, s⟩ := p
    obtain ⟨hlt, hle, htakes⟩ := len_eq_ok.mp hlen
    have hdata : s.Takes (s.rest.take n) ⟨s.rest.drop n, s.pos + n, s.base⟩ :=
      ⟨(List.take_append_drop n s.rest).symm, by simp [Nat.min_eq_left hle], rfl⟩
    have hlength : (s.rest.take n).length = n := by simp [hle]
    simp only [Bind.bind, Except.bind, Except.ok.injEq, Prod.mk.injEq]
    constructor
    · rintro ⟨rfl, rfl⟩
      rw [hlength]
      exact ⟨hlt, htakes.trans hdata⟩
    · rintro ⟨hlt', htakes'⟩
      obtain ⟨s', hlen', hdata'⟩ := htakes'.split
      have heq := len_eq_ok.mpr ⟨hlt', by rw [hdata'.length]; omega, hlen'⟩
      rw [hlen] at heq
      cases heq
      have hd : s.rest.take data.length = data := by rw [hdata'.1, List.take_left]
      rw [hd] at hdata
      exact ⟨hd, hdata.unique hdata'⟩

theorem text_eq_ok {t : String} :
    r.text = .ok (t, r') ↔ (asBytes t).length < 2 ^ 64 ∧ r.Takes (putBytes (asBytes t)) r' := by
  rw [← slice_eq_ok]
  unfold text
  cases hslice : r.slice with
  | error e => simp [Bind.bind, Except.bind]
  | ok p =>
    obtain ⟨data, s⟩ := p
    simp only [Bind.bind, Except.bind, Except.ok.injEq, Prod.mk.injEq]
    cases htext : fromUtf8 data with
    | none =>
      simp only [reduceCtorEq, false_iff]
      rintro ⟨rfl, -⟩
      simp at htext
    | some u =>
      have hu := asBytes_of_fromUtf8 htext
      simp only [Except.ok.injEq, Prod.mk.injEq]
      constructor
      · rintro ⟨rfl, rfl⟩
        exact ⟨hu.symm, rfl⟩
      · rintro ⟨hdata, rfl⟩
        exact ⟨asBytes_inj (hu.trans hdata), rfl⟩

theorem boolByte_eq_ok {b : Bool} :
    r.boolByte = .ok (b, r') ↔ r.Takes [if b then 1 else 0] r' := by
  rw [← byte_eq_ok]
  unfold boolByte
  cases r.byte with
  | error e => simp [Bind.bind, Except.bind]
  | ok p =>
    obtain ⟨c, s⟩ := p
    simp only [Bind.bind, Except.bind]
    split
    · next h0 => cases b <;> simp [h0]
    · next h0 =>
      split
      · next h1 => cases b <;> simp [h1]
      · next h1 => cases b <;> simp [h0, h1]

theorem number_eq_ok {n : Number} :
    r.number = .ok (n, r') ↔
      (asBytes n.text).length < 2 ^ 64 ∧ r.Takes (putBytes (asBytes n.text)) r' := by
  rw [← text_eq_ok]
  unfold number
  cases r.text with
  | error e => simp [Bind.bind, Except.bind]
  | ok p =>
    obtain ⟨t, s⟩ := p
    simp only [Bind.bind, Except.bind, Except.ok.injEq, Prod.mk.injEq]
    cases hnew : Number.new t with
    | none =>
      simp only [reduceCtorEq, false_iff]
      rintro ⟨rfl, -⟩
      simp at hnew
    | some m =>
      have hm := Number.text_of_new hnew
      simp only [Except.ok.injEq, Prod.mk.injEq]
      constructor
      · rintro ⟨rfl, rfl⟩
        exact ⟨hm.symm, rfl⟩
      · rintro ⟨rfl, rfl⟩
        rw [Number.new_text] at hnew
        exact ⟨(Option.some.inj hnew).symm, rfl⟩

end Reader

/-- The bytes of a head. -/
def Token.wire : Token → List UInt8
  | .absent => [Tag.absent.toByte]
  | .null => [Tag.null.toByte]
  | .bool b => [Tag.bool.toByte, if b then 1 else 0]
  | .number n => Tag.number.toByte :: putBytes (asBytes n.text)
  | .string text => Tag.string.toByte :: putBytes (asBytes text)
  | .bytes data => Tag.bytes.toByte :: putBytes data
  | .list n => Tag.list.toByte :: putLen n
  | .map n => Tag.map.toByte :: putLen n

/-- A head whose length fits a machine word, and whose count the rest can hold. -/
def Token.Fits (rest : List UInt8) : Token → Prop
  | .number n => (asBytes n.text).length < 2 ^ 64
  | .string text => (asBytes text).length < 2 ^ 64
  | .bytes data => data.length < 2 ^ 64
  | .list n | .map n => n < 2 ^ 64 ∧ n ≤ rest.length
  | _ => True

namespace Reader

variable {r r' : Reader}

theorem takes_cons {b : UInt8} {bytes : List UInt8} :
    r.Takes (b :: bytes) r' ↔ ∃ s, r.byte = .ok (b, s) ∧ s.Takes bytes r' := by
  constructor
  · intro h
    obtain ⟨s, hb, hs⟩ := Takes.split (a := [b]) h
    exact ⟨s, byte_eq_ok.mpr hb, hs⟩
  · rintro ⟨s, hb, hs⟩
    exact (byte_eq_ok.mp hb).trans hs

/-- A head, as each kind spells it. -/
theorem token_eq_ok {t : Token} :
    r.token = .ok (t, r') ↔ t.Fits r'.rest ∧ r.Takes t.wire r' := by
  constructor
  · intro h
    unfold token at h
    cases hbyte : r.byte with
    | error e => simp [hbyte, Bind.bind, Except.bind] at h
    | ok p =>
      obtain ⟨b, s⟩ := p
      simp only [hbyte, Bind.bind, Except.bind] at h
      cases htag : Tag.ofByte? b with
      | none => simp [htag] at h
      | some tag =>
        have hb := Tag.toByte_of_ofByte? htag
        subst hb
        have hhead := byte_eq_ok.mp hbyte
        cases tag <;> simp only [htag] at h
        case absent => cases h; exact ⟨trivial, hhead⟩
        case null => cases h; exact ⟨trivial, hhead⟩
        case bool =>
          cases hpiece : s.boolByte with
          | error e => simp [hpiece] at h
          | ok q =>
            obtain ⟨b, s'⟩ := q
            rw [hpiece] at h
            cases h
            exact ⟨trivial, hhead.trans (boolByte_eq_ok.mp hpiece)⟩
        case number =>
          cases hpiece : s.number with
          | error e => simp [hpiece] at h
          | ok q =>
            obtain ⟨n, s'⟩ := q
            rw [hpiece] at h
            cases h
            obtain ⟨hfits, htakes⟩ := number_eq_ok.mp hpiece
            exact ⟨hfits, hhead.trans htakes⟩
        case string =>
          cases hpiece : s.text with
          | error e => simp [hpiece] at h
          | ok q =>
            obtain ⟨text, s'⟩ := q
            rw [hpiece] at h
            cases h
            obtain ⟨hfits, htakes⟩ := text_eq_ok.mp hpiece
            exact ⟨hfits, hhead.trans htakes⟩
        case bytes =>
          cases hpiece : s.slice with
          | error e => simp [hpiece] at h
          | ok q =>
            obtain ⟨data, s'⟩ := q
            rw [hpiece] at h
            cases h
            obtain ⟨hfits, htakes⟩ := slice_eq_ok.mp hpiece
            exact ⟨hfits, hhead.trans htakes⟩
        all_goals
          cases hpiece : s.count with
          | error e => simp [hpiece] at h
          | ok q =>
            obtain ⟨n, s'⟩ := q
            rw [hpiece] at h
            cases h
            rw [count_eq_len] at hpiece
            obtain ⟨hlt, hle, htakes⟩ := len_eq_ok.mp hpiece
            exact ⟨⟨hlt, hle⟩, hhead.trans htakes⟩
  · rintro ⟨hfits, htakes⟩
    cases t <;> simp only [Token.wire, takes_cons] at htakes <;>
      obtain ⟨s, hbyte, htakes⟩ := htakes <;>
      simp only [token, hbyte, Bind.bind, Except.bind, Tag.ofByte?_toByte]
    case absent => rw [(Takes.refl s).unique htakes]
    case null => rw [(Takes.refl s).unique htakes]
    case bool b =>
      obtain ⟨s', hb, htakes⟩ := htakes
      rw [boolByte_eq_ok.mpr ((byte_eq_ok.mp hb).trans htakes)]
    case number n => rw [number_eq_ok.mpr ⟨hfits, htakes⟩]
    case string text => rw [text_eq_ok.mpr ⟨hfits, htakes⟩]
    case bytes data => rw [slice_eq_ok.mpr ⟨hfits, htakes⟩]
    case list n => rw [count_eq_len, len_eq_ok.mpr ⟨hfits.1, hfits.2, htakes⟩]
    case map n => rw [count_eq_len, len_eq_ok.mpr ⟨hfits.1, hfits.2, htakes⟩]

theorem token_shorter {t : Token} (h : r.token = .ok (t, r')) :
    r'.rest.length < r.rest.length := by
  obtain ⟨-, htakes⟩ := token_eq_ok.mp h
  rw [htakes.length]
  cases t <;> simp only [Token.wire, List.length_cons] <;> omega

theorem text_shorter {t : String} (h : r.text = .ok (t, r')) :
    r'.rest.length < r.rest.length := by
  obtain ⟨-, htakes⟩ := text_eq_ok.mp h
  have := List.length_pos_iff.mpr (putLen_ne_nil (asBytes t).length)
  rw [htakes.length, putBytes, List.length_append]
  omega

theorem Takes.offset {a : List UInt8} (h : r.Takes a r') :
    r'.offset = r.offset + a.length := by
  obtain ⟨-, hpos, hbase⟩ := h
  simp only [Reader.offset, hpos, hbase]
  omega

end Reader

/-- The refusal is one of the tree decoder's, and points at `offset` or behind it. -/
def WireError.NotBefore (offset : ℕ) : WireError → Prop
  | .truncated o | .unknownTag o _ | .overlong o | .notUtf8 o | .notANumber o | .notABool o _
  | .duplicateKey o | .trailing o => offset ≤ o
  | .tooDeep _ | .refused _ => False

theorem WireError.NotBefore.mono {m n : ℕ} {e : WireError} (h : e.NotBefore n) (hmn : m ≤ n) :
    e.NotBefore m := by
  cases e <;> first | exact h.elim | exact hmn.trans h

namespace Reader

variable {r : Reader} {e : WireError}

theorem byte_refused (h : r.byte = .error e) :
    e.NotBefore r.offset := by
  unfold byte at h
  split at h <;> cases h
  exact Nat.le_refl _

theorem lebLoop_refused {start n shift pos base : ℕ} {bytes : List UInt8}
    (hstart : start ≤ base + pos) (h : lebLoop start n shift pos base bytes = .error e) :
    e.NotBefore start := by
  induction bytes generalizing n shift pos with
  | nil =>
    cases h
    exact hstart
  | cons b rest ih =>
    simp only [lebLoop] at h
    split at h
    · cases h
      exact Nat.le_refl _
    · split at h
      · split at h
        · cases h
          exact Nat.le_refl _
        · cases h
      · exact ih (by omega) h

theorem len_refused (h : r.len = .error e) :
    e.NotBefore r.offset := by
  unfold len at h
  cases hleb : r.leb with
  | error e' =>
    simp only [hleb, Bind.bind, Except.bind] at h
    cases h
    exact lebLoop_refused (Nat.le_refl _) hleb
  | ok p =>
    have hmove := (leb_eq_ok.mp hleb).2.offset
    simp only [hleb, Bind.bind, Except.bind] at h
    split at h
    · cases h
      simp only [WireError.NotBefore]
      omega
    · cases h

theorem slice_refused (h : r.slice = .error e) :
    e.NotBefore r.offset := by
  unfold slice at h
  cases hlen : r.len with
  | error e' =>
    rw [hlen] at h
    cases h
    exact len_refused hlen
  | ok p =>
    rw [hlen] at h
    cases h

theorem text_refused (h : r.text = .error e) :
    e.NotBefore r.offset := by
  unfold text at h
  cases hslice : r.slice with
  | error e' =>
    rw [hslice] at h
    cases h
    exact slice_refused hslice
  | ok p =>
    simp only [hslice, Bind.bind, Except.bind] at h
    split at h <;> cases h
    exact Nat.le_refl _

theorem boolByte_refused (h : r.boolByte = .error e) :
    e.NotBefore r.offset := by
  unfold boolByte at h
  cases hbyte : r.byte with
  | error e' =>
    rw [hbyte] at h
    cases h
    exact byte_refused hbyte
  | ok p =>
    simp only [hbyte, Bind.bind, Except.bind] at h
    split at h
    · cases h
    · split at h <;> cases h
      exact Nat.le_refl _

theorem number_refused (h : r.number = .error e) :
    e.NotBefore r.offset := by
  unfold number at h
  cases htext : r.text with
  | error e' =>
    rw [htext] at h
    cases h
    exact text_refused htext
  | ok p =>
    simp only [htext, Bind.bind, Except.bind] at h
    split at h <;> cases h
    exact Nat.le_refl _

/-- A head is refused at its tag or behind it. -/
theorem token_refused (h : r.token = .error e) :
    e.NotBefore r.offset := by
  unfold token at h
  cases hbyte : r.byte with
  | error e' =>
    rw [hbyte] at h
    cases h
    exact byte_refused hbyte
  | ok p =>
    obtain ⟨b, s⟩ := p
    have hmove := (byte_eq_ok.mp hbyte).offset
    have hle : r.offset ≤ s.offset := by omega
    simp only [hbyte, Bind.bind, Except.bind] at h
    split at h
    · cases h
    · cases h
    · cases hpiece : s.boolByte with
      | error e' =>
        rw [hpiece] at h
        cases h
        exact (boolByte_refused hpiece).mono hle
      | ok q => simp [hpiece] at h
    · cases hpiece : s.number with
      | error e' =>
        rw [hpiece] at h
        cases h
        exact (number_refused hpiece).mono hle
      | ok q => simp [hpiece] at h
    · cases hpiece : s.text with
      | error e' =>
        rw [hpiece] at h
        cases h
        exact (text_refused hpiece).mono hle
      | ok q => simp [hpiece] at h
    · cases hpiece : s.slice with
      | error e' =>
        rw [hpiece] at h
        cases h
        exact (slice_refused hpiece).mono hle
      | ok q => simp [hpiece] at h
    · cases hpiece : s.count with
      | error e' =>
        rw [hpiece] at h
        cases h
        exact (len_refused hpiece).mono hle
      | ok q => simp [hpiece] at h
    · cases hpiece : s.count with
      | error e' =>
        rw [hpiece] at h
        cases h
        exact (len_refused hpiece).mono hle
      | ok q => simp [hpiece] at h
    · cases h
      exact Nat.le_refl _

end Reader

end Guatiao.Wire
