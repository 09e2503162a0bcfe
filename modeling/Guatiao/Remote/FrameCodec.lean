import Guatiao.Remote.Frame

/-!
# The frame codec is a bijection

Each reader of a field is exact, and so is the reader of a whole frame: it accepts a body exactly
where the body is the one a frame is written as.
-/

namespace Guatiao.Remote

open Lib

@[simp] theorem Kind.ofByte?_byte (kind : Kind) : Kind.ofByte? kind.byte = some kind := by
  cases kind <;> rfl

theorem Kind.byte_of_ofByte? {b : UInt8} {kind : Kind} (h : Kind.ofByte? b = some kind) :
    kind.byte = b := by
  apply UInt8.toNat_inj.mp
  unfold Kind.ofByte? at h
  split at h <;> simp_all [Kind.byte] <;> subst h <;> simp_all

namespace Reader

theorem handshake_exact : Exact handshake (fun _ => MAGIC ++ [VERSION]) fun _ => True where
  sound r u r' h := by
    obtain ⟨magic, r₁, -, hmagic, h⟩ := (fixed_exact 4).of_bind h
    simp only at h
    split at h
    · cases h
    · next hsame =>
      rw [not_not] at hsame
      obtain ⟨version, r₂, -, hversion, h⟩ := byte_exact.of_bind h
      simp only at h
      split at h
      · cases h
      · next hours =>
        rw [not_not] at hours
        cases h
        refine ⟨trivial, ?_⟩
        rw [hmagic, hversion, hsame, hours, List.append_assoc]
  complete r u tail _ hrest := by
    rw [List.append_assoc] at hrest
    obtain ⟨r₁, hmagic, hr₁⟩ := (fixed_exact 4).complete r ⟨MAGIC, rfl⟩ _ trivial hrest
    obtain ⟨r₂, hversion, hr₂⟩ := byte_exact.complete r₁ VERSION _ trivial hr₁
    refine ⟨r₂, ?_, hr₂⟩
    have hlist : List.Vector.toList (⟨MAGIC, rfl⟩ : List.Vector UInt8 4) = MAGIC := rfl
    simp [handshake, hmagic, hversion, hlist, Bind.bind, Except.bind]

theorem trust_exact : Exact trust (fun t => [t.byte]) fun _ => True where
  sound r t r' h := by
    obtain ⟨b, r₁, -, hb, h⟩ := byte_exact.of_bind h
    have hlevel : ∃ level, Trust.fromByte b r.pos = .ok level ∧ level.byte = b ∧ (level, r₁) = (t, r') := by
      cases hfrom : Trust.fromByte b r.pos with
      | error e => simp [hfrom, Bind.bind, Except.bind] at h
      | ok level =>
        refine ⟨level, rfl, ?_, ?_⟩
        · apply UInt8.toNat_inj.mp
          unfold Trust.fromByte at hfrom
          split at hfrom <;> cases hfrom <;> simp_all [Trust.byte]
        · simpa [hfrom, Bind.bind, Except.bind] using h
    obtain ⟨level, -, hbyte, heq⟩ := hlevel
    cases heq
    exact ⟨trivial, by rw [hbyte]; exact hb⟩
  complete r t tail _ hrest := by
    obtain ⟨r₁, hbyte, hr₁⟩ := byte_exact.complete r t.byte _ trivial hrest
    refine ⟨r₁, ?_, hr₁⟩
    have hfrom : Trust.fromByte t.byte r.pos = .ok t := by cases t <;> rfl
    simp [trust, hbyte, hfrom, Bind.bind, Except.bind]

end Reader

theorem toNat_shiftLeft_one (id : UInt64) : (id <<< 1).toNat = 2 * id.toNat % 2 ^ 64 := by
  simp [UInt64.toNat_shiftLeft, Nat.shiftLeft_eq, Nat.mul_comm]

theorem toNat_shiftRight_one (code : UInt64) : (code >>> 1).toNat = code.toNat / 2 := by
  simp [UInt64.toNat_shiftRight, Nat.shiftRight_eq_div_pow]

theorem toNat_and_one (code : UInt64) : (code &&& 1).toNat = code.toNat % 2 := by
  simp [UInt64.toNat_and, Nat.and_one_is_mod]

theorem toNat_or_one (id : UInt64) : (id <<< 1 ||| 1).toNat = 2 * id.toNat % 2 ^ 64 + 1 := by
  rw [UInt64.toNat_or, toNat_shiftLeft_one]
  have heven : 2 * id.toNat % 2 ^ 64 = 2 * (2 * id.toNat % 2 ^ 64 / 2) := by omega
  rw [heven, UInt64.toNat_one]
  have hor := Nat.two_pow_add_eq_or_of_lt (i := 1) (b := 1) (by decide) (2 * id.toNat % 2 ^ 64 / 2)
  rw [Nat.pow_one] at hor
  exact hor.symm

theorem even_code (id : UInt64) : id <<< 1 &&& 1 = 0 := by
  apply UInt64.toNat_inj.mp
  rw [toNat_and_one, toNat_shiftLeft_one, UInt64.toNat_zero]
  omega

theorem odd_code (id : UInt64) : ¬(id <<< 1 ||| 1) &&& 1 = 0 := by
  intro h
  have hone : ((id <<< 1 ||| 1) &&& 1).toNat = 0 := by rw [h, UInt64.toNat_zero]
  rw [toNat_and_one, toNat_or_one] at hone
  omega

theorem shiftRight_shiftLeft {id : UInt64} (h : id.toNat < 2 ^ 63) : id <<< 1 >>> 1 = id := by
  apply UInt64.toNat_inj.mp
  rw [toNat_shiftRight_one, toNat_shiftLeft_one]
  omega

theorem shiftRight_or_one {id : UInt64} (h : id.toNat < 2 ^ 63) : (id <<< 1 ||| 1) >>> 1 = id := by
  apply UInt64.toNat_inj.mp
  rw [toNat_shiftRight_one, toNat_or_one]
  omega

theorem shiftRight_lt (code : UInt64) : (code >>> 1).toNat < 2 ^ 63 := by
  rw [toNat_shiftRight_one]
  have hlt := code.toNat_lt
  omega

theorem code_even {code : UInt64} (h : code &&& 1 = 0) : code >>> 1 <<< 1 = code := by
  apply UInt64.toNat_inj.mp
  have hzero : (code &&& 1).toNat = 0 := by rw [h, UInt64.toNat_zero]
  rw [toNat_and_one] at hzero
  rw [toNat_shiftLeft_one, toNat_shiftRight_one]
  have hlt := code.toNat_lt
  omega

theorem code_odd {code : UInt64} (h : ¬code &&& 1 = 0) : code >>> 1 <<< 1 ||| 1 = code := by
  apply UInt64.toNat_inj.mp
  have hone : (code &&& 1).toNat ≠ 0 := fun hzero => h (UInt64.toNat_inj.mp hzero)
  rw [toNat_and_one] at hone
  rw [toNat_or_one, toNat_shiftRight_one]
  have hlt := code.toNat_lt
  omega

theorem Target.fromCode_code {target : Target} (h : target.id.toNat < 2 ^ 63) :
    fromCode target.code = target := by
  cases target with
  | table id =>
    simp only [Target.id] at h
    simp only [fromCode, code, even_code, if_true, shiftRight_shiftLeft h]
  | object id =>
    simp only [Target.id] at h
    simp only [fromCode, code, odd_code, if_false, shiftRight_or_one h]

theorem Target.code_fromCode (code : UInt64) :
    (fromCode code).code = code ∧ (fromCode code).id.toNat < 2 ^ 63 := by
  unfold fromCode
  split
  · next heven => exact ⟨code_even heven, shiftRight_lt code⟩
  · next hodd => exact ⟨code_odd hodd, shiftRight_lt code⟩

namespace Reader

theorem target_exact :
    Exact target (fun t => putUint t.code) fun t => t.id.toNat < 2 ^ 63 := by
  apply uint_exact.map
  · intro code _
    obtain ⟨hcode, hid⟩ := Target.code_fromCode code
    exact ⟨hid, by rw [hcode]⟩
  · intro t ht
    exact ⟨t.code, trivial, Target.fromCode_code ht, rfl⟩

theorem status_exact : Exact status (fun n => putUint n.toUInt64) fun _ => True where
  sound r n r' h := by
    obtain ⟨m, r₁, -, hm, h⟩ := uint_exact.of_bind h
    simp only at h
    split at h
    · next hlt =>
      cases h
      have hsame : m.toUInt32.toUInt64 = m := by
        apply UInt64.toNat_inj.mp
        rw [UInt32.toNat_toUInt64, UInt64.toNat_toUInt32]
        exact Nat.mod_eq_of_lt hlt
      exact ⟨trivial, by rw [hsame]; exact hm⟩
    · cases h
  complete r n tail _ hrest := by
    obtain ⟨r₁, huint, hr₁⟩ := uint_exact.complete r n.toUInt64 _ trivial hrest
    refine ⟨r₁, ?_, hr₁⟩
    have hlt : n.toNat < UInt32.size := n.toNat_lt
    simp [status, huint, Bind.bind, Except.bind, hlt]

end Reader

def Frame.kind : Frame → Kind
  | .hello .. => .hello
  | .welcome .. => .welcome
  | .proof .. => .proof
  | .list .. => .list
  | .open .. => .open
  | .close .. => .close
  | .call .. => .call
  | .reply .. => .reply
  | .cancel .. => .cancel
  | .release .. => .release
  | .ping .. => .ping
  | .pong .. => .pong
  | .goodbye .. => .goodbye

/-- The bytes of a frame's fields. -/
def Frame.spelled : Frame → List UInt8
  | .hello trust nonce options =>
    MAGIC ++ [VERSION] ++ ([trust.byte] ++ (nonce.toList ++ putBytes [] (Wire.wire options)))
  | .welcome nonce shown options =>
    MAGIC ++ [VERSION] ++ (nonce.toList ++ (putBytes [] shown ++ putBytes [] (Wire.wire options)))
  | .proof shown => putBytes [] shown
  | .list id => putUint id
  | .open id library stamp => putUint id ++ (putText [] library ++ putText [] stamp)
  | .close library stamp => putText [] library ++ putText [] stamp
  | .call id parent target slot args =>
    putUint id ++ (putUint parent ++ (putUint target.code ++ (putUint slot ++ args)))
  | .reply id status body => putUint id ++ (putUint status.toUInt64 ++ body)
  | .cancel id => putUint id
  | .release object => putUint object
  | .ping n => putUint n
  | .pong n => putUint n
  | .goodbye status message => putUint status.toUInt64 ++ putText [] message

/-- A frame's body: its type and its fields. -/
def Frame.body (frame : Frame) : List UInt8 := frame.kind.byte :: frame.spelled

/-- What a frame carries can be said: its options are a value of the format, a target's id leaves a
bit for whose it is, and no length is over what a length can say. -/
def Frame.Fits : Frame → Prop
  | .hello _ _ options => Carried options
  | .welcome _ shown options => Countable shown ∧ Carried options
  | .proof shown => Countable shown
  | .open _ library stamp => CountableText library ∧ CountableText stamp
  | .close library stamp => CountableText library ∧ CountableText stamp
  | .call _ _ target _ _ => target.id.toNat < 2 ^ 63
  | .goodbye _ message => CountableText message
  | _ => True

theorem Frame.put_eq (frame : Frame) (out : List UInt8) :
    frame.put out = out ++ [0, 0, 0, 0] ++ frame.body := by
  cases frame <;>
    simp only [put, body, spelled, Frame.kind, start, startCall, startReply, putValue_eq, putText,
      putBytes, List.append_assoc, List.cons_append, List.nil_append]

open Reader in
/-- The fields read are the ones a frame of the type is written with. -/
theorem Frame.fields_sound {seeds : Wire.Seeded} {r r' : Reader} {kind : Kind} {frame : Frame}
    (h : fields seeds r kind = .ok (frame, r')) :
    frame.kind = kind ∧ frame.Fits ∧ r.rest = frame.spelled ++ r'.rest := by
  cases kind with
  | hello =>
    obtain ⟨_, r₁, -, h₁, h⟩ := handshake_exact.of_bind h
    obtain ⟨trust, r₂, -, h₂, h⟩ := trust_exact.of_bind h
    obtain ⟨nonce, r₃, -, h₃, h⟩ := (fixed_exact 16).of_bind h
    obtain ⟨options, r₄, hoptions, h₄, h⟩ := (value_exact seeds).of_bind h
    cases h
    refine ⟨rfl, hoptions, ?_⟩
    rw [h₁, h₂, h₃, h₄]
    simp only [spelled, List.append_assoc]
  | welcome =>
    obtain ⟨_, r₁, -, h₁, h⟩ := handshake_exact.of_bind h
    obtain ⟨nonce, r₂, -, h₂, h⟩ := (fixed_exact 16).of_bind h
    obtain ⟨shown, r₃, hshown, h₃, h⟩ := bytes_exact.of_bind h
    obtain ⟨options, r₄, hoptions, h₄, h⟩ := (value_exact seeds).of_bind h
    cases h
    refine ⟨rfl, ⟨hshown, hoptions⟩, ?_⟩
    rw [h₁, h₂, h₃, h₄]
    simp only [spelled, List.append_assoc]
  | proof =>
    obtain ⟨shown, r₁, hshown, h₁, h⟩ := bytes_exact.of_bind h
    cases h
    exact ⟨rfl, hshown, h₁⟩
  | «open» =>
    obtain ⟨id, r₁, -, h₁, h⟩ := uint_exact.of_bind h
    obtain ⟨library, r₂, hlibrary, h₂, h⟩ := text_exact.of_bind h
    obtain ⟨stamp, r₃, hstamp, h₃, h⟩ := text_exact.of_bind h
    cases h
    refine ⟨rfl, ⟨hlibrary, hstamp⟩, ?_⟩
    rw [h₁, h₂, h₃]
    simp only [spelled, List.append_assoc]
  | close =>
    obtain ⟨library, r₁, hlibrary, h₁, h⟩ := text_exact.of_bind h
    obtain ⟨stamp, r₂, hstamp, h₂, h⟩ := text_exact.of_bind h
    cases h
    refine ⟨rfl, ⟨hlibrary, hstamp⟩, ?_⟩
    rw [h₁, h₂]
    simp only [spelled, List.append_assoc]
  | call =>
    obtain ⟨id, r₁, -, h₁, h⟩ := uint_exact.of_bind h
    obtain ⟨parent, r₂, -, h₂, h⟩ := uint_exact.of_bind h
    obtain ⟨target, r₃, htarget, h₃, h⟩ := target_exact.of_bind h
    obtain ⟨slot, r₄, -, h₄, h⟩ := uint_exact.of_bind h
    cases h
    refine ⟨rfl, htarget, ?_⟩
    rw [h₁, h₂, h₃, h₄]
    simp only [spelled, List.append_nil]
  | reply =>
    obtain ⟨id, r₁, -, h₁, h⟩ := uint_exact.of_bind h
    obtain ⟨status, r₂, -, h₂, h⟩ := status_exact.of_bind h
    cases h
    refine ⟨rfl, trivial, ?_⟩
    rw [h₁, h₂]
    simp only [spelled, List.append_nil]
  | goodbye =>
    obtain ⟨status, r₁, -, h₁, h⟩ := status_exact.of_bind h
    obtain ⟨message, r₂, hmessage, h₂, h⟩ := text_exact.of_bind h
    cases h
    refine ⟨rfl, hmessage, ?_⟩
    rw [h₁, h₂]
    simp only [spelled, List.append_assoc]
  | _ =>
    obtain ⟨id, r₁, -, h₁, h⟩ := uint_exact.of_bind h
    cases h
    exact ⟨rfl, trivial, h₁⟩

open Reader in
/-- The fields a frame is written with are read, and nothing is left. -/
theorem Frame.fields_complete (seeds : Wire.Seeded) {r : Reader} {frame : Frame} (hfits : frame.Fits)
    (hrest : r.rest = frame.spelled) :
    ∃ r', fields seeds r frame.kind = .ok (frame, r') ∧ r'.rest = [] := by
  rw [← List.append_nil frame.spelled] at hrest
  cases frame with
  | hello trust nonce options =>
    simp only [spelled, List.append_assoc] at hrest
    rw [← List.append_assoc MAGIC] at hrest
    apply handshake_exact.then_answers (x := ()) trivial hrest
    intro r₁ h₁
    apply trust_exact.then_answers trivial h₁
    intro r₂ h₂
    apply (fixed_exact 16).then_answers trivial h₂
    intro r₃ h₃
    apply (value_exact seeds).then_answers hfits h₃
    intro r₄ h₄
    exact ⟨r₄, rfl, h₄⟩
  | welcome nonce shown options =>
    simp only [spelled, List.append_assoc] at hrest
    rw [← List.append_assoc MAGIC] at hrest
    apply handshake_exact.then_answers (x := ()) trivial hrest
    intro r₁ h₁
    apply (fixed_exact 16).then_answers trivial h₁
    intro r₂ h₂
    apply bytes_exact.then_answers hfits.1 h₂
    intro r₃ h₃
    apply (value_exact seeds).then_answers hfits.2 h₃
    intro r₄ h₄
    exact ⟨r₄, rfl, h₄⟩
  | proof shown =>
    apply bytes_exact.then_answers hfits hrest
    intro r₁ h₁
    exact ⟨r₁, rfl, h₁⟩
  | «open» id library stamp =>
    simp only [spelled, List.append_assoc] at hrest
    apply uint_exact.then_answers trivial hrest
    intro r₁ h₁
    apply text_exact.then_answers hfits.1 h₁
    intro r₂ h₂
    apply text_exact.then_answers hfits.2 h₂
    intro r₃ h₃
    exact ⟨r₃, rfl, h₃⟩
  | close library stamp =>
    simp only [spelled, List.append_assoc] at hrest
    apply text_exact.then_answers hfits.1 hrest
    intro r₁ h₁
    apply text_exact.then_answers hfits.2 h₁
    intro r₂ h₂
    exact ⟨r₂, rfl, h₂⟩
  | call id parent target slot args =>
    simp only [spelled, List.append_nil] at hrest
    apply uint_exact.then_answers trivial hrest
    intro r₁ h₁
    apply uint_exact.then_answers trivial h₁
    intro r₂ h₂
    apply target_exact.then_answers hfits h₂
    intro r₃ h₃
    apply uint_exact.then_answers trivial h₃
    intro r₄ h₄
    exact ⟨_, by rw [← h₄]; rfl, rfl⟩
  | reply id status body =>
    simp only [spelled, List.append_nil] at hrest
    apply uint_exact.then_answers trivial hrest
    intro r₁ h₁
    apply status_exact.then_answers trivial h₁
    intro r₂ h₂
    exact ⟨_, by rw [← h₂]; rfl, rfl⟩
  | goodbye status message =>
    simp only [spelled, List.append_assoc] at hrest
    apply status_exact.then_answers trivial hrest
    intro r₁ h₁
    apply text_exact.then_answers hfits h₁
    intro r₂ h₂
    exact ⟨r₂, rfl, h₂⟩
  | _ =>
    apply uint_exact.then_answers trivial hrest
    intro r₁ h₁
    exact ⟨r₁, rfl, h₁⟩

theorem Frame.decode_eq_ok {seeds : Wire.Seeded} {bytes : List UInt8} {frame : Frame} :
    decode seeds bytes = .ok frame ↔ frame.Fits ∧ frame.body = bytes := by
  constructor
  · intro h
    obtain ⟨b, r, -, hb, h⟩ := Reader.byte_exact.of_bind h
    cases hkind : Kind.ofByte? b with
    | none => simp [hkind] at h
    | some kind =>
      simp only [hkind] at h
      cases hfields : fields seeds r kind with
      | error e => simp [hfields, Bind.bind, Except.bind] at h
      | ok p =>
        obtain ⟨frame', r'⟩ := p
        simp only [hfields, Bind.bind, Except.bind, Reader.finish] at h
        split at h
        · cases h
        · next hfinish =>
          split at hfinish
          · next hempty =>
            cases h
            obtain ⟨rfl, hfits, hrest⟩ := fields_sound hfields
            rw [hempty, List.append_nil] at hrest
            refine ⟨hfits, ?_⟩
            rw [body, Kind.byte_of_ofByte? hkind, ← hrest]
            exact hb.symm
          · cases hfinish
  · rintro ⟨hfits, rfl⟩
    have hrest : (Cursor.start frame.body).rest = [frame.kind.byte] ++ frame.spelled := rfl
    apply Reader.byte_exact.bind trivial hrest
    intro r hr
    obtain ⟨r', hfields, hempty⟩ := fields_complete seeds hfits hr
    simp [hfields, Reader.finish, hempty, Bind.bind, Except.bind]

theorem Frame.encode_eq (frame : Frame) (out : List UInt8) (max : ℕ) :
    frame.encode out max =
      if max < frame.body.length ∨ 2 ^ 32 - 1 < frame.body.length then
        .error (.tooLarge frame.body.length max)
      else .ok (out ++ leBytes 4 frame.body.length ++ frame.body) := by
  have hlen : (out ++ [0, 0, 0, 0] ++ frame.body).length - out.length - 4 + 0 = frame.body.length := by
    simp only [List.length_append, List.length_cons, List.length_nil]
    omega
  have htake : (out ++ [0, 0, 0, 0] ++ frame.body).take out.length = out := by
    rw [List.append_assoc, List.take_left]
  have hdrop : (out ++ [0, 0, 0, 0] ++ frame.body).drop (out.length + 4) = frame.body := by
    rw [List.drop_left' (by simp)]
  rw [encode, put_eq, finish, finishWith, hlen, htake, hdrop]
  rfl

/-- A frame the sender may send: its options are a value of the format, and its target's id leaves a
bit for whose it is. -/
def Frame.Sendable : Frame → Prop
  | .hello _ _ options => options.WellFormed
  | .welcome _ _ options => options.WellFormed
  | .call _ _ target _ _ => target.id.toNat < 2 ^ 63
  | _ => True

theorem Frame.Sendable.fits {frame : Frame} (h : frame.Sendable) (hlen : frame.body.length < 2 ^ 32) :
    frame.Fits := by
  have hspelled : frame.spelled.length < 2 ^ 32 := by
    rw [body, List.length_cons] at hlen
    omega
  cases frame with
  | hello trust nonce options =>
    refine ⟨h, ?_⟩
    simp only [spelled, putBytes, List.length_append] at hspelled
    simp only [Countable]
    omega
  | welcome nonce shown options =>
    simp only [spelled, putBytes, List.length_append] at hspelled
    refine ⟨?_, h, ?_⟩ <;> simp only [Countable] <;> omega
  | proof shown =>
    simp only [spelled, putBytes, List.length_append] at hspelled
    simp only [Fits, Countable]
    omega
  | «open» id library stamp =>
    simp only [spelled, putText, putBytes, List.length_append] at hspelled
    constructor <;> simp only [CountableText, Countable] <;> omega
  | close library stamp =>
    simp only [spelled, putText, putBytes, List.length_append] at hspelled
    constructor <;> simp only [CountableText, Countable] <;> omega
  | call id parent target slot args => exact h
  | goodbye status message =>
    simp only [spelled, putText, putBytes, List.length_append] at hspelled
    simp only [Fits, CountableText, Countable]
    omega
  | _ => trivial

/-- A frame sent is its body behind the body's length, which is read as the frame; and a body read
as a frame is the one it is sent as, where it is not over the limit. -/
theorem Frame.bijection (seeds : Wire.Seeded) :
    (∀ (frame : Frame) (out written : List UInt8) (max : ℕ), frame.Sendable →
      frame.encode out max = .ok written → ∃ length bytes : List UInt8,
        written = out ++ length ++ bytes ∧ length.length = 4 ∧ leNat length = bytes.length ∧
          decode seeds bytes = .ok frame) ∧
    ∀ (bytes : List UInt8) (frame : Frame), decode seeds bytes = .ok frame →
      ∀ (out : List UInt8) (max : ℕ), frame.encode out max =
        if max < bytes.length ∨ 2 ^ 32 - 1 < bytes.length then .error (.tooLarge bytes.length max)
        else .ok (out ++ leBytes 4 bytes.length ++ bytes) := by
  constructor
  · intro frame out written max hsendable hencode
    rw [encode_eq] at hencode
    split at hencode
    · cases hencode
    · next hsmall =>
      cases hencode
      have hlen : frame.body.length < 2 ^ 32 := by omega
      refine ⟨leBytes 4 frame.body.length, frame.body, rfl, length_leBytes _ _, ?_,
        decode_eq_ok.mpr ⟨hsendable.fits hlen, rfl⟩⟩
      rw [leNat_leBytes]
      exact Nat.mod_eq_of_lt hlen
  · intro bytes frame hdecode out max
    obtain ⟨-, rfl⟩ := decode_eq_ok.mp hdecode
    exact encode_eq frame out max

/-- A ping, there and back. -/
theorem Frame.bijection_ping :
    (∃ length bytes : List UInt8, [0x02, 0, 0, 0, 0x14, 0x07] = [] ++ length ++ bytes ∧
      length.length = 4 ∧ leNat length = bytes.length ∧
        decode ⟨1, 2⟩ bytes = .ok (.ping 7)) ∧
    (Frame.ping 7).encode [] 64 = .ok [0x02, 0, 0, 0, 0x14, 0x07] := by
  have hseven : putUint 7 = [7] := by rw [putUint_eq, Leb128.encode]; rfl
  have hbody : (Frame.ping 7).body = [0x14, 0x07] := by rw [body, spelled, hseven]; rfl
  have hencode : (Frame.ping 7).encode [] 64 = .ok [0x02, 0, 0, 0, 0x14, 0x07] := by
    rw [encode_eq, hbody]
    rfl
  exact ⟨(bijection ⟨1, 2⟩).1 (.ping 7) [] _ 64 trivial hencode, by
    rw [(bijection ⟨1, 2⟩).2 [0x14, 0x07] (.ping 7) (decode_eq_ok.mpr ⟨trivial, hbody⟩)]
    rfl⟩

/-- A table's id over the bit for whose it is arrives as another's. -/
theorem Frame.wraps_table :
    ∃ bytes : List UInt8,
      (Frame.call 1 0 (.table 0x8000000000000000) 0 []).encode [] 64 =
        .ok ([5, 0, 0, 0] ++ bytes) ∧
      decode ⟨1, 2⟩ bytes = .ok (.call 1 0 (.table 0) 0 []) ∧
      Target.table 0x8000000000000000 ≠ Target.table 0 := by
  have hzero : putUint 0 = [0] := by rw [putUint_eq, Leb128.encode]; rfl
  have hone : putUint 1 = [1] := by rw [putUint_eq, Leb128.encode]; rfl
  have hcode : (Target.table 0x8000000000000000).code = 0 := by decide
  have hbody : (Frame.call 1 0 (.table 0x8000000000000000) 0 []).body = [0x10, 1, 0, 0, 0] := by
    rw [body, spelled, hcode, hzero, hone]
    rfl
  refine ⟨[0x10, 1, 0, 0, 0], ?_, ?_, by decide⟩
  · rw [encode_eq, hbody]
    rfl
  · rw [decode_eq_ok]
    refine ⟨by simp [Fits, Target.id], ?_⟩
    have hsame : (Target.table 0).code = 0 := by decide
    rw [body, spelled, hsame, hzero, hone]
    rfl

end Guatiao.Remote
