import Guatiao.Value.TimeText

/-!
# A time's text reads back

The readers accept exactly the grammar: a date's and a time's fields at their widths, a fraction of
one to nine digits, an offset. So what is displayed reads back, and a timestamp's text names the
instant that is read.
-/

namespace Guatiao.Civil

open Lib Gregorian

variable {c : Cursor UInt8}

theorem digits_exact (n : ℕ) (expected : String) :
    Exact (digits n expected) (fixed n) (fun v => v < 10 ^ n) where
  sound c v c' hok := by
    unfold digits at hok
    split at hok
    · cases hok
    · rename_i hlen
      split at hok
      · rename_i hall
        cases hok
        have hdigits : ∀ b ∈ c.rest.take n, asciiDigit b = true := List.all_eq_true.mp hall
        have htake : (c.rest.take n).length = n := by
          rw [List.length_take]
          omega
        have hlt := valueOf_lt hdigits
        have hfixed := fixed_valueOf hdigits
        rw [htake] at hlt hfixed
        refine ⟨hlt, ?_⟩
        rw [hfixed]
        exact (List.take_append_drop n c.rest).symm
      · cases hok
  complete c v tail hv hrest := by
    have hlen := length_fixed n v
    have htake : c.rest.take n = fixed n v := by
      rw [hrest, List.take_left' hlen]
    have hdrop : c.rest.drop n = tail := by
      rw [hrest, List.drop_left' hlen]
    have hall : (fixed n v).all asciiDigit = true := List.all_eq_true.mpr (all_fixed n v)
    refine ⟨skip c n, ?_, hdrop⟩
    unfold digits
    rw [if_neg (by rw [hrest, List.length_append, hlen]; omega), htake, hall, if_pos rfl,
      valueOf_fixed hv]

theorem field_exact (min max : ℕ) (hmax : max < 100) (expected : String) :
    Exact (field min max expected) (fixed 2) (fun v => min ≤ v ∧ v ≤ max) where
  sound c v c' hok := by
    obtain ⟨v₁, c₁, hv, hrest, hnext⟩ := (digits_exact 2 expected).of_bind hok
    dsimp only at hnext
    split at hnext
    · cases hnext
    · cases hnext
      exact ⟨by omega, hrest⟩
  complete c v tail hv hrest := by
    refine (digits_exact 2 expected).then_answers (by omega) hrest fun c' hc' => ⟨c', ?_, hc'⟩
    dsimp only
    rw [if_neg (by omega)]
    rfl

theorem byte_exact (anyOf : List UInt8) (expected : String) :
    Exact (byte anyOf expected) (fun b => [b]) (fun b => b ∈ anyOf) where
  sound c b c' hok := by
    unfold byte at hok
    split at hok
    · rename_i b' rest hrest
      split at hok
      · rename_i hmem
        cases hok
        refine ⟨hmem, ?_⟩
        rw [skip, hrest]
        rfl
      · cases hok
    · cases hok
  complete c b tail hb hrest := by
    refine ⟨skip c 1, ?_, ?_⟩
    · unfold byte
      rw [hrest]
      exact if_pos hb
    · rw [skip, hrest]
      rfl

/-- A valid date's text. -/
def dateText (d : Date) : List UInt8 :=
  fixed 4 d.year.toNat ++ ([ascii '-'] ++ (fixed 2 d.month ++ ([ascii '-'] ++ fixed 2 d.day)))

theorem readDate_exact : Exact readDate dateText Date.Valid where
  sound c date c' hok := by
    obtain ⟨y, c₁, hy, hrest₁, hok⟩ := (digits_exact 4 _).of_bind hok
    obtain ⟨b₁, c₂, hb₁, hrest₂, hok⟩ := (byte_exact _ _).of_bind hok
    obtain ⟨m, c₃, hm, hrest₃, hok⟩ := (field_exact 1 12 (by omega) _).of_bind hok
    obtain ⟨b₂, c₄, hb₂, hrest₄, hok⟩ := (byte_exact _ _).of_bind hok
    obtain ⟨d, c₅, hd, hrest₅, hok⟩ := (field_exact 1 31 (by omega) _).of_bind hok
    dsimp only at hok
    split at hok
    · cases hok
    · rename_i hlen
      rw [daysInMonth_eq] at hlen
      cases hok
      have hyear : (y : ℤ) ≤ 9999 := by omega
      refine ⟨Date.valid_iff.mpr ⟨⟨Int.natCast_nonneg y, hyear⟩, hm, hd.1, Nat.le_of_not_lt hlen⟩, ?_⟩
      rw [hrest₁, hrest₂, hrest₃, hrest₄, hrest₅, List.mem_singleton.mp hb₁, List.mem_singleton.mp hb₂]
      simp [dateText]
  complete c date tail hvalid hrest := by
    obtain ⟨⟨h0, h1⟩, hm, hd0, hd1⟩ := Date.valid_iff.mp hvalid
    have hday := hd1.trans (monthLength_le _ _)
    have hyear : ((date.year.toNat : ℕ) : ℤ) = date.year := Int.toNat_of_nonneg h0
    unfold dateText at hrest
    simp only [List.append_assoc] at hrest
    refine (digits_exact 4 _).then_answers (by omega) hrest fun c₁ h₁ => ?_
    refine (byte_exact _ _).then_answers (List.mem_singleton_self _) h₁ fun c₂ h₂ => ?_
    refine (field_exact 1 12 (by omega) _).then_answers hm h₂ fun c₃ h₃ => ?_
    refine (byte_exact _ _).then_answers (List.mem_singleton_self _) h₃ fun c₄ h₄ => ?_
    refine (field_exact 1 31 (by omega) _).then_answers ⟨hd0, hday⟩ h₄ fun c₅ h₅ => ⟨c₅, ?_, h₅⟩
    dsimp only
    rw [hyear, daysInMonth_eq, if_neg (by omega)]
    rfl

theorem Date.display_eq {d : Date} (h : d.Valid) : d.display = dateText d := by
  obtain ⟨⟨h0, h1⟩, hm, hd0, hd1⟩ := Date.valid_iff.mp h
  have hday := hd1.trans (monthLength_le _ _)
  unfold display dateText paddedInt
  rw [if_neg (by omega), padded_eq_fixed (by omega) (by omega), padded_eq_fixed (by omega) (by omega),
    padded_eq_fixed (by omega) (by omega)]
  simp

/-- The clock's part of a time's text. -/
def clockText (t : Time) : List UInt8 :=
  fixed 2 t.hour ++ ([ascii ':'] ++ (fixed 2 t.minute ++ ([ascii ':'] ++ fixed 2 t.second)))

/-- How so many nanoseconds may be written: as one to nine digits behind a point, or not at all. -/
def FractionText (nanos : ℕ) (piece : List UInt8) : Prop :=
  (piece = [] ∧ nanos = 0) ∨ ∃ ds, piece = ascii '.' :: ds ∧ ds ≠ [] ∧ ds.length ≤ 9 ∧
    (∀ b ∈ ds, asciiDigit b = true) ∧ nanos = valueOf ds * 10 ^ (9 - ds.length)

/-- What may follow a fraction, or stand in its place. -/
def NoFraction (tail : List UInt8) : Prop := NoDigit tail ∧ tail.head? ≠ some (ascii '.')

/-- How a time may be written. -/
def TimeText (t : Time) (piece : List UInt8) : Prop :=
  t.Valid ∧ ∃ fraction, FractionText t.nanosecond fraction ∧ piece = clockText t ++ fraction

theorem noFraction_nil : NoFraction [] := ⟨noDigit_nil, nofun⟩

theorem FractionText.lt {nanos : ℕ} {piece : List UInt8} (h : FractionText nanos piece) :
    nanos < nanosPerSecond := by
  rcases h with ⟨-, rfl⟩ | ⟨ds, -, -, hlen, hds, rfl⟩
  · decide
  · calc valueOf ds * 10 ^ (9 - ds.length) < 10 ^ ds.length * 10 ^ (9 - ds.length) :=
          Nat.mul_lt_mul_of_pos_right (valueOf_lt hds) (Nat.pow_pos (by omega))
      _ = nanosPerSecond := by
          rw [← pow_add, show ds.length + (9 - ds.length) = 9 by omega]
          rfl

theorem takeWhile_digits {ds tail : List UInt8} (hds : ∀ b ∈ ds, asciiDigit b = true)
    (htail : NoDigit tail) : (ds ++ tail).takeWhile asciiDigit = ds := by
  rw [List.takeWhile_append_of_pos hds]
  cases tail with
  | nil => simp
  | cons b tail => simp [htail b rfl]

theorem readFraction_recognizes : Recognizes readFraction FractionText NoFraction where
  sound c nanos c' hok := by
    unfold readFraction at hok
    split at hok
    · rename_i hpoint
      obtain ⟨ds, hds⟩ : ∃ ds, ds = (skip c 1).rest.takeWhile asciiDigit := ⟨_, rfl⟩
      dsimp only at hok
      rw [← hds] at hok
      split at hok
      · cases hok
      · rename_i hlen
        cases hok
        refine ⟨ascii '.' :: ds, .inr ⟨ds, rfl, ?_, by omega, ?_, rfl⟩, ?_⟩
        · rintro rfl
          exact hlen (.inl rfl)
        · rw [hds]
          exact fun b hb => List.mem_takeWhile_imp hb
        · cases hrest : c.rest with
          | nil =>
            rw [hrest] at hpoint
            cases hpoint
          | cons b rest =>
            rw [hrest] at hpoint
            cases hpoint
            have hds' : ds = rest.takeWhile asciiDigit := by
              rw [hds, skip, hrest]
              rfl
            have hdrop : (skip (skip c 1) ds.length).rest = rest.dropWhile asciiDigit := by
              have happend := List.takeWhile_append_dropWhile (p := asciiDigit) (l := rest)
              rw [← hds'] at happend
              rw [skip, skip, hrest]
              change rest.drop ds.length = _
              rw [← happend, List.drop_left' rfl, happend]
            rw [hdrop, hds', List.cons_append, List.takeWhile_append_dropWhile]
    · cases hok
      exact ⟨[], .inl ⟨rfl, rfl⟩, rfl⟩
  complete c nanos piece tail hpiece hstop hrest := by
    unfold readFraction
    rcases hpiece with ⟨rfl, rfl⟩ | ⟨ds, rfl, hne, hlen, hds, rfl⟩
    · rw [List.nil_append] at hrest
      exact ⟨c, if_neg (by rw [hrest]; exact hstop.2), hrest⟩
    · have hskip : (skip c 1).rest = ds ++ tail := by
        rw [skip, hrest]
        rfl
      have hpos := List.length_pos_iff.mpr hne
      refine ⟨skip (skip c 1) ds.length, ?_, ?_⟩
      · rw [if_pos (by rw [hrest]; rfl)]
        dsimp only
        rw [hskip, takeWhile_digits hds hstop.1, if_neg (by omega)]
      · rw [skip]
        change (skip c 1).rest.drop ds.length = tail
        rw [hskip, List.drop_left' rfl]

theorem readTime_recognizes : Recognizes readTime TimeText NoFraction where
  sound c t c' hok := by
    obtain ⟨hh, c₁, hhour, hrest₁, hok⟩ := (field_exact 0 23 (by omega) _).of_bind hok
    obtain ⟨b₁, c₂, hb₁, hrest₂, hok⟩ := (byte_exact _ _).of_bind hok
    obtain ⟨mm, c₃, hminute, hrest₃, hok⟩ := (field_exact 0 59 (by omega) _).of_bind hok
    obtain ⟨b₂, c₄, hb₂, hrest₄, hok⟩ := (byte_exact _ _).of_bind hok
    obtain ⟨ss, c₅, hsecond, hrest₅, hok⟩ := (field_exact 0 59 (by omega) _).of_bind hok
    obtain ⟨nanos, piece, c₆, hpiece, hrest₆, hok⟩ := readFraction_recognizes.of_bind hok
    cases hok
    refine ⟨clockText ⟨hh, mm, ss, nanos⟩ ++ piece,
      ⟨Time.valid_iff.mpr ⟨hhour.2, hminute.2, hsecond.2, hpiece.lt⟩, piece, hpiece, rfl⟩, ?_⟩
    rw [hrest₁, hrest₂, hrest₃, hrest₄, hrest₅, hrest₆, List.mem_singleton.mp hb₁,
      List.mem_singleton.mp hb₂]
    simp [clockText]
  complete c t piece tail hpiece hstop hrest := by
    obtain ⟨hvalid, fraction, hfraction, rfl⟩ := hpiece
    obtain ⟨hh, hm, hs, -⟩ := Time.valid_iff.mp hvalid
    unfold clockText at hrest
    simp only [List.append_assoc] at hrest
    refine (field_exact 0 23 (by omega) _).then_answers ⟨Nat.zero_le _, hh⟩ hrest fun c₁ h₁ => ?_
    refine (byte_exact _ _).then_answers (List.mem_singleton_self _) h₁ fun c₂ h₂ => ?_
    refine (field_exact 0 59 (by omega) _).then_answers ⟨Nat.zero_le _, hm⟩ h₂ fun c₃ h₃ => ?_
    refine (byte_exact _ _).then_answers (List.mem_singleton_self _) h₃ fun c₄ h₄ => ?_
    refine (field_exact 0 59 (by omega) _).then_answers ⟨Nat.zero_le _, hs⟩ h₄ fun c₅ h₅ => ?_
    exact readFraction_recognizes.then_answers hfraction hstop h₅ fun c₆ h₆ => ⟨c₆, rfl, h₆⟩

theorem Time.display_text {t : Time} (h : t.Valid) : TimeText t t.display := by
  obtain ⟨hh, hm, hs, hn⟩ := Time.valid_iff.mp h
  refine ⟨h, writeFraction t.nanosecond, ?_, ?_⟩
  · by_cases hzero : t.nanosecond = 0
    · rw [hzero]
      exact .inl ⟨rfl, rfl⟩
    · obtain ⟨fs, hwrite, hne, hlen, hfs, hvalue⟩ := writeFraction_digits hzero hn
      exact .inr ⟨fs, hwrite, hne, hlen, hfs, hvalue.symm⟩
  · unfold display clockText
    rw [padded_eq_fixed (by omega) (by omega), padded_eq_fixed (by omega) (by omega),
      padded_eq_fixed (by omega) (by omega)]
    simp

/-- How a date-time may be written. -/
def DateTimeText (dt : DateTime) (piece : List UInt8) : Prop :=
  dt.date.Valid ∧ ∃ sep time, sep ∈ [ascii 'T', ascii 't'] ∧ TimeText dt.time time ∧
    piece = dateText dt.date ++ ([sep] ++ time)

theorem readDateTime_recognizes : Recognizes readDateTime DateTimeText NoFraction where
  sound c dt c' hok := by
    obtain ⟨date, c₁, hdate, hrest₁, hok⟩ := readDate_exact.of_bind hok
    obtain ⟨sep, c₂, hsep, hrest₂, hok⟩ := (byte_exact _ _).of_bind hok
    obtain ⟨time, piece, c₃, htime, hrest₃, hok⟩ := readTime_recognizes.of_bind hok
    cases hok
    refine ⟨_, ⟨hdate, sep, piece, hsep, htime, rfl⟩, ?_⟩
    rw [hrest₁, hrest₂, hrest₃]
    simp
  complete c dt piece tail hpiece hstop hrest := by
    obtain ⟨hdate, sep, time, hsep, htime, rfl⟩ := hpiece
    simp only [List.append_assoc] at hrest
    refine readDate_exact.then_answers hdate hrest fun c₁ h₁ => ?_
    refine (byte_exact _ _).then_answers hsep h₁ fun c₂ h₂ => ?_
    exact readTime_recognizes.then_answers htime hstop h₂ fun c₃ h₃ => ⟨c₃, rfl, h₃⟩

/-- An offset from UTC, as it is written. -/
inductive Zone
  | utc (letter : UInt8)
  | east (sign : UInt8) (hours minutes : ℕ)

namespace Zone

/-- `Z`, or a sign with hours and minutes. -/
def text : Zone → List UInt8
  | utc letter => [letter]
  | east sign hours minutes => [sign] ++ (fixed 2 hours ++ ([ascii ':'] ++ fixed 2 minutes))

/-- The offsets RFC 3339 has. -/
def Valid : Zone → Prop
  | utc letter => letter = ascii 'Z' ∨ letter = ascii 'z'
  | east sign hours minutes =>
    (sign = ascii '+' ∨ sign = ascii '-') ∧ hours ≤ 23 ∧ minutes ≤ 59

/-- Seconds east of UTC. -/
def seconds : Zone → ℤ
  | utc _ => 0
  | east sign hours minutes =>
    if sign = ascii '-' then -(hours * 3600 + minutes * 60) else hours * 3600 + minutes * 60

end Zone

/-- How an offset may be written. -/
def OffsetText (o : ℤ) (piece : List UInt8) : Prop := ∃ z : Zone, z.Valid ∧ z.text = piece ∧ z.seconds = o

theorem readOffset_recognizes : Recognizes readOffset OffsetText fun _ => True where
  sound c o c' hok := by
    obtain ⟨sign, c₁, hsign, hrest₁, hok⟩ := (byte_exact _ _).of_bind hok
    dsimp only at hok
    split at hok
    · rename_i hutc
      cases hok
      exact ⟨[sign], ⟨.utc sign, hutc, rfl, rfl⟩, hrest₁⟩
    · rename_i hutc
      obtain ⟨oh, c₂, hhours, hrest₂, hok⟩ := (field_exact 0 23 (by omega) _).of_bind hok
      obtain ⟨b, c₃, hb, hrest₃, hok⟩ := (byte_exact _ _).of_bind hok
      obtain ⟨om, c₄, hminutes, hrest₄, hok⟩ := (field_exact 0 59 (by omega) _).of_bind hok
      cases hok
      have hshift : sign = ascii '+' ∨ sign = ascii '-' := by
        simp only [List.mem_cons, List.not_mem_nil, or_false] at hsign
        tauto
      refine ⟨_, ⟨.east sign oh om, ⟨hshift, hhours.2, hminutes.2⟩, rfl, rfl⟩, ?_⟩
      rw [hrest₁, hrest₂, hrest₃, hrest₄, List.mem_singleton.mp hb]
      simp [Zone.text]
  complete c o piece tail hpiece _ hrest := by
    obtain ⟨z, hz, rfl, rfl⟩ := hpiece
    cases z with
    | utc letter =>
      have hmem : letter ∈ [ascii 'Z', ascii 'z', ascii '+', ascii '-'] := by
        rcases hz with rfl | rfl <;> decide
      refine (byte_exact _ _).then_answers hmem hrest fun c₁ h₁ => ⟨c₁, ?_, h₁⟩
      dsimp only
      rw [if_pos (show letter = ascii 'Z' ∨ letter = ascii 'z' from hz)]
      rfl
    | east sign hours minutes =>
      obtain ⟨hsign, hh, hm⟩ := hz
      have hmem : sign ∈ [ascii 'Z', ascii 'z', ascii '+', ascii '-'] := by
        rcases hsign with rfl | rfl <;> decide
      have hutc : ¬ (sign = ascii 'Z' ∨ sign = ascii 'z') := by
        rcases hsign with rfl | rfl <;> decide
      unfold Zone.text at hrest
      simp only [List.append_assoc] at hrest
      refine (byte_exact _ _).then_answers hmem hrest fun c₁ h₁ => ?_
      dsimp only
      rw [if_neg hutc]
      refine (field_exact 0 23 (by omega) _).then_answers ⟨Nat.zero_le _, hh⟩ h₁ fun c₂ h₂ => ?_
      refine (byte_exact _ _).then_answers (List.mem_singleton_self _) h₂ fun c₃ h₃ => ?_
      exact (field_exact 0 59 (by omega) _).then_answers ⟨Nat.zero_le _, hm⟩ h₃
        fun c₄ h₄ => ⟨c₄, rfl, h₄⟩

theorem Zone.noFraction {z : Zone} (h : z.Valid) : NoFraction z.text := by
  have hstops (b : UInt8) (hb : asciiDigit b = false ∧ b ≠ ascii '.') (rest : List UInt8) :
      NoFraction (b :: rest) := ⟨noDigit_cons hb.1 rest, fun hpoint => hb.2 (Option.some.inj hpoint)⟩
  cases z with
  | utc letter =>
    refine hstops letter ?_ []
    rcases h with rfl | rfl <;> decide
  | east sign hours minutes =>
    refine hstops sign ?_ _
    rcases h.1 with rfl | rfl <;> decide

theorem atEnd_eq {expected : String} : atEnd expected c = .ok () ↔ c.rest = [] := by
  unfold atEnd refuse
  split
  · rename_i h
    simp [h]
  · rename_i h
    simp [h]

theorem whole_text {X : Type} {read : Cursor UInt8 → Except ValueError (X × Cursor UInt8)}
    {spells : X → List UInt8 → Prop} {stop : List UInt8 → Prop} (h : Recognizes read spells stop)
    (hstop : stop []) {expected : String} {text : List UInt8} {x : X} (hx : spells x text) :
    (do
      let (x, c) ← read (.start text)
      atEnd expected c
      pure x : Except ValueError X) = .ok x := by
  obtain ⟨c', hread, hrest⟩ := h.complete (.start text) x text [] hx hstop (List.append_nil text).symm
  simp only [hread, bind, Except.bind, atEnd_eq.mpr hrest]
  rfl

theorem Date.parse_display {d : Date} (h : d.Valid) : parse d.display = .ok d :=
  whole_text readDate_exact.recognizes trivial ⟨h, display_eq h⟩

theorem Time.parse_display {t : Time} (h : t.Valid) : parse t.display = .ok t :=
  whole_text readTime_recognizes noFraction_nil (display_text h)

theorem DateTime.display_text {dt : DateTime} (h : dt.Valid) : DateTimeText dt dt.display := by
  refine ⟨h.1, ascii 'T', dt.time.display, List.mem_cons_self, Time.display_text h.2, ?_⟩
  rw [display, Date.display_eq h.1]
  rfl

theorem DateTime.parse_display {dt : DateTime} (h : dt.Valid) : parse dt.display = .ok dt :=
  whole_text readDateTime_recognizes noFraction_nil (display_text h)

theorem readStamp_iff {text : List UInt8} {dt : DateTime} {o : ℤ} :
    (∃ pos, readStamp text = .ok (dt, o, pos)) ↔
      ∃ piece z, DateTimeText dt piece ∧ Zone.Valid z ∧ z.seconds = o ∧ text = piece ++ z.text := by
  constructor
  · rintro ⟨pos, hok⟩
    obtain ⟨dt₁, piece, c₁, hpiece, hrest₁, hok⟩ := readDateTime_recognizes.of_bind hok
    obtain ⟨o₁, zone, c₂, ⟨z, hz, rfl, rfl⟩, hrest₂, hok⟩ := readOffset_recognizes.of_bind hok
    dsimp only at hok
    cases hend : atEnd "nothing after the offset" c₂ with
    | error e =>
      rw [hend] at hok
      cases hok
    | ok u =>
      rw [hend] at hok
      cases hok
      have hnil := atEnd_eq.mp hend
      rw [hnil, List.append_nil] at hrest₂
      refine ⟨piece, z, hpiece, hz, rfl, ?_⟩
      rw [← hrest₂, ← hrest₁]
      rfl
  · rintro ⟨piece, z, hpiece, hz, rfl, rfl⟩
    obtain ⟨c₁, hread₁, hrest₁⟩ := readDateTime_recognizes.complete (.start (piece ++ z.text)) dt piece
      z.text hpiece (Zone.noFraction hz) rfl
    obtain ⟨c₂, hread₂, hrest₂⟩ := readOffset_recognizes.complete c₁ z.seconds z.text []
      ⟨z, hz, rfl, rfl⟩ trivial (by rw [hrest₁, List.append_nil])
    refine ⟨c₁.pos, ?_⟩
    simp only [readStamp, hread₁, hread₂, bind, Except.bind, atEnd_eq.mpr hrest₂]
    rfl

end Guatiao.Civil
