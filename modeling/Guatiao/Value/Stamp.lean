import Guatiao.Value.TimeRead

/-!
# The instant a timestamp's text names

RFC 3339 says what a text's fields are and which instant they name. The reader accepts exactly the
texts of such fields whose instant is writable, and reads that instant; what is displayed reads back.
-/

namespace Guatiao.Civil

open Lib Gregorian

/-- The first day of 1970. -/
def epoch : Day := ⟨1970, 1, 1, by omega, by omega, by omega, by decide⟩

/-- A timestamp's fields, as they are written. -/
structure Stamp where
  day : Day
  separator : UInt8
  hour : ℕ
  minute : ℕ
  second : ℕ
  fraction : List UInt8
  zone : Zone

namespace Stamp

/-- A year of four digits, a time of day, at most nine digits of a second, an offset. -/
structure Valid (w : Stamp) : Prop where
  year_nonneg : 0 ≤ w.day.year
  year_le : w.day.year ≤ 9999
  separator : w.separator = ascii 'T' ∨ w.separator = ascii 't'
  hour_le : w.hour ≤ 23
  minute_le : w.minute ≤ 59
  second_le : w.second ≤ 59
  fraction_le : w.fraction.length ≤ 9
  fraction_digits : ∀ b ∈ w.fraction, asciiDigit b = true
  zone : w.zone.Valid

/-- `YYYY-MM-DD`. -/
def dateSpelled (w : Stamp) : List UInt8 :=
  fixed 4 w.day.year.toNat ++ [ascii '-'] ++ fixed 2 w.day.month ++ [ascii '-'] ++ fixed 2 w.day.day

/-- `HH:MM:SS`. -/
def clockSpelled (w : Stamp) : List UInt8 :=
  fixed 2 w.hour ++ [ascii ':'] ++ fixed 2 w.minute ++ [ascii ':'] ++ fixed 2 w.second

/-- The fields one after the other. -/
def text (w : Stamp) : List UInt8 :=
  w.dateSpelled ++ [w.separator] ++ w.clockSpelled ++
    (if w.fraction = [] then [] else ascii '.' :: w.fraction) ++ w.zone.text

/-- Seconds from the epoch in UTC: the local day and time, less the offset. -/
def seconds (w : Stamp) : ℤ :=
  (w.day.number - epoch.number) * 86400 + (w.hour * 3600 + w.minute * 60 + w.second) - w.zone.seconds

/-- The fraction in nanoseconds. -/
def nanos (w : Stamp) : ℕ := valueOf w.fraction * 10 ^ (9 - w.fraction.length)

/-- Whether the instant, in UTC, lies in the years 0000 to 9999. -/
def InYears (w : Stamp) : Prop :=
  (yearStart 0 - epoch.number) * 86400 ≤ w.seconds ∧ w.seconds < (yearStart 10000 - epoch.number) * 86400

/-- The date and time of day that are written. -/
def dateTime (w : Stamp) : DateTime := ⟨.ofDay w.day, ⟨w.hour, w.minute, w.second, w.nanos⟩⟩

variable {w : Stamp}

theorem nanos_lt (h : w.Valid) : w.nanos < nanosPerSecond :=
  calc w.nanos < 10 ^ w.fraction.length * 10 ^ (9 - w.fraction.length) :=
        Nat.mul_lt_mul_of_pos_right (valueOf_lt h.fraction_digits) (Nat.pow_pos (by omega))
    _ = nanosPerSecond := by
        rw [← pow_add, Nat.add_sub_cancel' h.fraction_le]
        rfl

theorem valid_dateTime (h : w.Valid) : w.dateTime.Valid :=
  ⟨Date.valid_ofDay h.year_nonneg h.year_le,
    Time.valid_iff.mpr ⟨h.hour_le, h.minute_le, h.second_le, nanos_lt h⟩⟩

theorem dateTimeText (h : w.Valid) :
    ∃ piece, DateTimeText w.dateTime piece ∧ w.text = piece ++ w.zone.text := by
  have hdt := valid_dateTime h
  refine ⟨dateText w.dateTime.date ++ ([w.separator] ++ (clockText w.dateTime.time ++
    if w.fraction = [] then [] else ascii '.' :: w.fraction)), ⟨hdt.1, _, _, ?_, ⟨hdt.2, _, ?_, rfl⟩, rfl⟩,
    ?_⟩
  · rcases h.separator with hsep | hsep <;> simp [hsep]
  · split
    · rename_i hnil
      exact .inl ⟨rfl, by simp [dateTime, nanos, hnil, valueOf]⟩
    · rename_i hne
      exact .inr ⟨w.fraction, rfl, hne, h.fraction_le, h.fraction_digits, rfl⟩
  · simp [text, dateSpelled, clockSpelled, dateTime, dateText, clockText, Date.ofDay]

theorem of_dateTimeText {dt : DateTime} {piece : List UInt8} {z : Zone} (hpiece : DateTimeText dt piece)
    (hz : z.Valid) : ∃ w : Stamp, w.Valid ∧ w.text = piece ++ z.text ∧ w.dateTime = dt ∧ w.zone = z := by
  obtain ⟨hdate, sep, time, hsep, ⟨htime, fraction, hfraction, rfl⟩, rfl⟩ := hpiece
  obtain ⟨⟨hy0, hy1⟩, -⟩ := Date.valid_iff.mp hdate
  obtain ⟨hh, hm, hs, -⟩ := Time.valid_iff.mp htime
  obtain ⟨date, t⟩ := dt
  have hsep' : sep = ascii 'T' ∨ sep = ascii 't' := by simpa using hsep
  obtain ⟨ds, hlen, hds, hnanos, hwritten⟩ : ∃ ds : List UInt8, ds.length ≤ 9 ∧
      (∀ b ∈ ds, asciiDigit b = true) ∧ t.nanosecond = valueOf ds * 10 ^ (9 - ds.length) ∧
      fraction = if ds = [] then [] else ascii '.' :: ds := by
    rcases hfraction with ⟨rfl, hzero⟩ | ⟨ds, rfl, hne, hlen, hds, hvalue⟩
    · exact ⟨[], by simp, by simp, by simpa [valueOf] using hzero, rfl⟩
    · exact ⟨ds, hlen, hds, hvalue, by rw [if_neg hne]⟩
  refine ⟨⟨date.toDay hdate, sep, t.hour, t.minute, t.second, ds, z⟩,
    ⟨hy0, hy1, hsep', hh, hm, hs, hlen, hds, hz⟩, ?_, ?_, rfl⟩
  · rw [hwritten]
    simp [text, dateSpelled, clockSpelled, dateText, clockText, Date.toDay]
  · rw [dateTime, nanos, ← hnanos]
    rfl

end Stamp

theorem epoch_number : epoch.number = 719528 := by decide +kernel

theorem Zone.seconds_bounds {z : Zone} (h : z.Valid) : -86400 < z.seconds ∧ z.seconds < 86400 := by
  cases z with
  | utc letter =>
    rw [seconds]
    omega
  | east sign hours minutes =>
    obtain ⟨-, hh, hm⟩ := h
    rw [seconds]
    split <;> omega

theorem ok_bind {E A B : Type} (a : A) (f : A → Except E B) : (Except.ok a >>= f) = f a := rfl

theorem Timestamp.parse_of_read {text : List UInt8} {dt : DateTime} {n x o : ℤ} {pos : ℕ}
    (h : readStamp text = .ok (dt, o, pos)) (hdays : dt.date.days = .ok n)
    (hsod : dt.time.secondsOfDay = .ok x) (hn : -719528 ≤ n ∧ n ≤ 2932896)
    (hx : 0 ≤ x ∧ x < 86400) (ho : -86400 < o ∧ o < 86400) :
    parse text = .ok
      (match fromUnix (n * 86400 + x - o) dt.time.nanosecond with
      | some t => .ok t
      | none => .error (.unparsed pos
          "an offset that keeps the instant within the years 0000 to 9999")) := by
  have e1 : i64 (n * daySeconds) = .ok (n * 86400) := by
    rw [daySeconds]
    exact i64_ok (by omega) (by omega)
  have e2 : i64 (n * 86400 + x) = .ok (n * 86400 + x) := i64_ok (by omega) (by omega)
  have e3 : i64 (n * 86400 + x - o) = .ok (n * 86400 + x - o) := i64_ok (by omega) (by omega)
  unfold parse
  rw [h]
  dsimp only
  rw [hdays, ok_bind, e1, ok_bind, hsod, ok_bind, e2, ok_bind, e3, ok_bind]
  cases fromUnix (n * 86400 + x - o) dt.time.nanosecond with
  | some t => rfl
  | none => rfl

theorem Stamp.counts {w : Stamp} (h : w.Valid) : ∃ n x : ℤ, w.dateTime.date.days = .ok n ∧
    w.dateTime.time.secondsOfDay = .ok x ∧ (-719528 ≤ n ∧ n ≤ 2932896) ∧ (0 ≤ x ∧ x < 86400) ∧
    w.seconds = n * 86400 + x - w.zone.seconds := by
  have hin := w.day.number_year
  have hy0 := h.year_nonneg
  have hy1 := h.year_le
  have hh := h.hour_le
  have hm := h.minute_le
  have hs := h.second_le
  unfold yearStart at hin
  refine ⟨w.day.number - 719528, w.hour * 3600 + w.minute * 60 + w.second, Date.days_eq hy0 hy1,
    Time.secondsOfDay_eq (valid_dateTime h).2, by omega, by omega, ?_⟩
  rw [seconds, epoch_number]

theorem Timestamp.fromUnix_eq {seconds : ℤ} {nanos : ℕ} {t : Timestamp} (hn : nanos < nanosPerSecond) :
    fromUnix seconds nanos = some t ↔ t = ⟨seconds, nanos⟩ ∧
      (yearStart 0 - epoch.number) * 86400 ≤ seconds ∧
      seconds < (yearStart 10000 - epoch.number) * 86400 := by
  have hlo : (yearStart 0 - epoch.number) * 86400 = firstDay * daySeconds := by decide +kernel
  have hhi : (yearStart 10000 - epoch.number) * 86400 = (lastDay + 1) * daySeconds := by decide +kernel
  unfold fromUnix
  rw [hlo, hhi]
  by_cases hin : firstDay * daySeconds ≤ seconds ∧ seconds < (lastDay + 1) * daySeconds
  · rw [if_neg (by simp [Nat.not_le.mpr hn, hin.1, hin.2])]
    simp only [Option.some.injEq, hin, and_true]
    exact eq_comm
  · rw [if_pos (by simpa [Nat.not_le.mpr hn, Decidable.imp_iff_not_or] using hin)]
    simp [hin]

/-- The reader answers on every text, and reads an instant exactly where the text is that of fields
whose instant is writable. -/
theorem Timestamp.parse_iff (text : List UInt8) : (∃ r, parse text = .ok r) ∧ ∀ t,
    parse text = .ok (.ok t) ↔
      ∃ w : Stamp, w.Valid ∧ w.InYears ∧ w.text = text ∧ t = ⟨w.seconds, w.nanos⟩ := by
  cases hread : readStamp text with
  | error e =>
    have hparse : parse text = .ok (.error e) := by
      rw [parse, hread]
      rfl
    refine ⟨⟨_, hparse⟩, fun t => ?_⟩
    rw [hparse]
    refine ⟨nofun, ?_⟩
    rintro ⟨w, hw, -, rfl, -⟩
    obtain ⟨piece, hpiece, htext⟩ := Stamp.dateTimeText hw
    obtain ⟨pos, hok⟩ := readStamp_iff.mpr ⟨piece, w.zone, hpiece, hw.zone, rfl, htext⟩
    rw [hread] at hok
    cases hok
  | ok r =>
    obtain ⟨dt, o, pos⟩ := r
    obtain ⟨piece, z, hpiece, hz, rfl, rfl⟩ := readStamp_iff.mp ⟨pos, hread⟩
    -- whatever fields the text is of, they say the date-time and the offset that were read
    have hfields (w : Stamp) (hw : w.Valid) (htext : w.text = piece ++ z.text) :
        w.dateTime = dt ∧ w.zone.seconds = z.seconds := by
      obtain ⟨piece', hpiece', htext'⟩ := Stamp.dateTimeText hw
      obtain ⟨pos', hok⟩ := readStamp_iff.mpr ⟨piece', w.zone, hpiece', hw.zone, rfl, htext'⟩
      rw [htext, hread] at hok
      have hsame := Except.ok.inj hok
      exact ⟨(congrArg Prod.fst hsame).symm, (congrArg (·.2.1) hsame).symm⟩
    obtain ⟨w, hw, htext, hdt, rfl⟩ := Stamp.of_dateTimeText hpiece hz
    obtain ⟨n, x, hdays, hsod, hn, hx, hseconds⟩ := Stamp.counts hw
    rw [← hdt] at hread
    have hparse := parse_of_read hread hdays hsod hn hx (Zone.seconds_bounds hz)
    rw [← hseconds] at hparse
    refine ⟨⟨_, hparse⟩, fun t => ?_⟩
    have hunix : fromUnix w.seconds w.dateTime.time.nanosecond = some t ↔
        t = ⟨w.seconds, w.nanos⟩ ∧ w.InYears := fromUnix_eq (Stamp.nanos_lt hw)
    rw [hparse]
    constructor
    · intro hok
      split at hok
      · rename_i t' hsome
        cases hok
        obtain ⟨ht, hin⟩ := hunix.mp hsome
        exact ⟨w, hw, hin, htext, ht⟩
      · cases hok
    · rintro ⟨w', hw', hin, htext', rfl⟩
      -- the two spellings are of one instant
      obtain ⟨hdt', hzone'⟩ := hfields w' hw' htext'
      obtain ⟨n', x', hdays', hsod', -, -, hseconds'⟩ := Stamp.counts hw'
      rw [hdt', ← hdt, hdays] at hdays'
      rw [hdt', ← hdt, hsod] at hsod'
      have hsame : w'.seconds = w.seconds := by
        rw [hseconds', hseconds, hzone', Except.ok.inj hdays', Except.ok.inj hsod']
      have hnanos : w'.nanos = w.nanos := congrArg (·.time.nanosecond) (hdt'.trans hdt.symm)
      unfold Stamp.InYears at hin
      rw [hsame] at hin
      rw [hunix.mpr ⟨by rw [hsame, hnanos], hin⟩]

/-- What `from_unix` makes. -/
def Timestamp.Valid (t : Timestamp) : Prop := fromUnix t.seconds t.nanoseconds = some t

theorem Timestamp.valid_iff {t : Timestamp} : t.Valid ↔ t.nanoseconds < nanosPerSecond ∧
    firstDay * daySeconds ≤ t.seconds ∧ t.seconds < (lastDay + 1) * daySeconds := by
  unfold Timestamp.Valid fromUnix
  split
  · rename_i h
    refine ⟨nofun, fun hvalid => ?_⟩
    rcases Bool.or_eq_true_iff.mp h with hnanos | hrange
    · exact absurd hvalid.1 (Nat.not_lt.mpr (of_decide_eq_true hnanos))
    · simp [hvalid.2.1, hvalid.2.2] at hrange
  · rename_i h
    rw [Bool.or_eq_true_iff, not_or] at h
    simp only [decide_eq_true_eq, Nat.not_le, Bool.not_eq_true', Bool.not_eq_false,
      Bool.and_eq_true] at h
    exact ⟨fun _ => h, fun _ => rfl⟩

theorem Timestamp.utc_eq {t : Timestamp} (h : t.Valid) : ∃ (d : Day) (clock : Time),
    t.utc = .ok ⟨.ofDay d, clock⟩ ∧ (⟨.ofDay d, clock⟩ : DateTime).Valid ∧
      d.number - 719528 = t.seconds / daySeconds ∧
      clock.secondsOfDay = .ok (t.seconds % daySeconds) ∧ clock.nanosecond = t.nanoseconds := by
  obtain ⟨hn, hlo, hhi⟩ := valid_iff.mp h
  obtain ⟨secs, hsecs⟩ : ∃ secs : ℤ, secs = t.seconds := ⟨_, rfl⟩
  rw [← hsecs] at hlo hhi ⊢
  unfold firstDay daySeconds at hlo
  unfold lastDay daySeconds at hhi
  have hday : firstDay ≤ secs / daySeconds ∧ secs / daySeconds ≤ lastDay := by
    unfold firstDay lastDay daySeconds
    omega
  have hrest : 0 ≤ secs % daySeconds ∧ secs % daySeconds < daySeconds := by
    unfold daySeconds
    omega
  obtain ⟨d, hnumber, hdate, hfrom⟩ := Date.fromDays_eq hday.1 hday.2
  obtain ⟨hclock, hnanos⟩ := Time.fromSecondsOfDay_eq hrest.1 hrest.2 hn
  have hutc : t.utc = .ok ⟨.ofDay d, Time.fromSecondsOfDay (secs % daySeconds) t.nanoseconds⟩ := by
    rw [utc, ← hsecs, hfrom, ok_bind]
    rfl
  have hnano : (Time.fromSecondsOfDay (secs % daySeconds) t.nanoseconds).nanosecond = t.nanoseconds := rfl
  obtain ⟨clock, hc⟩ : ∃ clock, clock = Time.fromSecondsOfDay (secs % daySeconds) t.nanoseconds :=
    ⟨_, rfl⟩
  rw [← hc] at hclock hnanos hutc hnano
  refine ⟨d, clock, hutc, ⟨hdate, hclock⟩, by omega, ?_, hnano⟩
  -- the nanoseconds of the two sides agree, so the whole seconds do
  rw [Time.nanosOfDay, hnano] at hnanos
  have hcancel := mul_right_cancel₀ (by decide : (nanosPerSecond : ℤ) ≠ 0) (add_right_cancel hnanos)
  rw [Time.secondsOfDay_eq hclock, hcancel]

theorem Timestamp.display_eq {t : Timestamp} (h : t.Valid) :
    ∃ w : Stamp, w.Valid ∧ w.InYears ∧ t = ⟨w.seconds, w.nanos⟩ ∧ t.display = .ok w.text := by
  obtain ⟨d, clock, hutc, hdt, hnumber, hsod, hnanos⟩ := utc_eq h
  obtain ⟨w, hw, htext, hwdt, hzone⟩ := Stamp.of_dateTimeText (DateTime.display_text hdt)
    (z := .utc (ascii 'Z')) (.inl rfl)
  obtain ⟨⟨h0, h1⟩, -⟩ := Date.valid_iff.mp hdt.1
  obtain ⟨n, x, hdays, hclock, -, -, hseconds⟩ := Stamp.counts hw
  rw [hwdt, Date.days_eq h0 h1] at hdays
  rw [hwdt, hsod] at hclock
  have hsecs : w.seconds = t.seconds := by
    rw [hseconds, hzone, ← Except.ok.inj hdays, ← Except.ok.inj hclock, hnumber, Zone.seconds, sub_zero,
      mul_comm]
    exact Int.mul_ediv_add_emod t.seconds daySeconds
  have hnano : w.nanos = t.nanoseconds := (congrArg (·.time.nanosecond) hwdt).trans hnanos
  have hsame : t = ⟨w.seconds, w.nanos⟩ := by rw [hsecs, hnano]
  have hrange : fromUnix w.seconds w.nanos = some t := by
    rw [hsecs, hnano]
    exact h
  refine ⟨w, hw, ((fromUnix_eq (Stamp.nanos_lt hw)).mp hrange).2, hsame, ?_⟩
  rw [display, hutc, ok_bind, htext]
  rfl

/-- What a date, a time, a date-time or a timestamp displays reads back as it. A timestamp's text is
read on every input, without an overflow; an instant is read exactly where the text is, to its last
byte, that of RFC 3339 fields in their ranges whose instant is writable; and it is that instant. -/
theorem time_text :
    (∀ d : Date, d.Valid → Date.parse d.display = .ok d) ∧
    (∀ t : Time, t.Valid → Time.parse t.display = .ok t) ∧
    (∀ dt : DateTime, dt.Valid → DateTime.parse dt.display = .ok dt) ∧
    (∀ t : Timestamp, t.Valid →
      ∃ text, t.display = .ok text ∧ Timestamp.parse text = .ok (.ok t)) ∧
    ∀ text, (∃ r, Timestamp.parse text = .ok r) ∧ ∀ t, Timestamp.parse text = .ok (.ok t) ↔
      ∃ w : Stamp, w.Valid ∧ w.InYears ∧ w.text = text ∧ t = ⟨w.seconds, w.nanos⟩ := by
  refine ⟨fun _ => Date.parse_display, fun _ => Time.parse_display, fun _ => DateTime.parse_display,
    fun t ht => ?_, Timestamp.parse_iff⟩
  obtain ⟨w, hw, hin, hsame, hdisplay⟩ := Timestamp.display_eq ht
  exact ⟨w.text, hdisplay, ((Timestamp.parse_iff w.text).2 t).mpr ⟨w, hw, hin, rfl, hsame⟩⟩

/-- Half past eleven at night in a zone an hour behind, at the end of a year. -/
def newYear : Stamp :=
  ⟨⟨2026, 12, 31, by omega, by omega, by omega, by decide⟩, ascii 't', 23, 30, 0, [ascii '5'],
    .east (ascii '-') 1 0⟩

/-- It is read as half past midnight of the new year, which is displayed so. -/
theorem time_text_newYear : Timestamp.parse newYear.text = .ok (.ok ⟨1798763400, 500000000⟩) ∧
    ∃ text, (⟨1798763400, 500000000⟩ : Timestamp).display = .ok text ∧
      Timestamp.parse text = .ok (.ok ⟨1798763400, 500000000⟩) := by
  refine ⟨((time_text.2.2.2.2 newYear.text).2 _).mpr ⟨newYear, ?_, ?_, rfl, ?_⟩,
    time_text.2.2.2.1 ⟨1798763400, 500000000⟩ rfl⟩
  · exact ⟨by decide +kernel, by decide +kernel, .inr rfl, by decide +kernel, by decide +kernel,
      by decide +kernel, by decide +kernel, by decide +kernel, .inr rfl, by decide +kernel, by decide +kernel⟩
  · unfold Stamp.InYears
    decide +kernel
  · decide +kernel

end Guatiao.Civil
