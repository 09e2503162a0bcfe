import Guatiao.Value.Civil
import Guatiao.Value.SpanMade

/-!
# Dates and times with no zone

Every type covers the years 0000 to 9999. A step by a span moves the months first, keeping the day
inside the month it lands in, and then the days and the time as they elapse.
-/

namespace Guatiao.Civil

open Lib Gregorian

/-- Seconds in a day. -/
def daySeconds : ℤ := 86400

/-- Nanoseconds in a day. -/
def dayNanos : ℤ := 86400000000000

/-- Days from 1970-01-01 to 0000-01-01. -/
def firstDay : ℤ := -719528

/-- Days from 1970-01-01 to 9999-12-31. -/
def lastDay : ℤ := 2932896

/-- The writable years. -/
def inYears (y : ℤ) : Bool := 0 ≤ y && y ≤ 9999

/-- A day on the calendar. -/
structure Date where
  year : ℤ
  month : ℕ
  day : ℕ
  deriving DecidableEq, Repr

/-- A time of day, to the nanosecond. -/
structure Time where
  hour : ℕ
  minute : ℕ
  second : ℕ
  nanosecond : ℕ
  deriving DecidableEq, Repr

/-- A date and a time of day. -/
structure DateTime where
  date : Date
  time : Time
  deriving DecidableEq, Repr

namespace Date

/-- The date `year-month-day`, where it is one. -/
def tryNew (year : ℤ) (month day : ℕ) : Option Date :=
  if !inYears year || !(1 ≤ month && month ≤ 12) || day == 0 || daysInMonth year month < day then none
  else some ⟨year, month, day⟩

/-- Days from 1970-01-01, negative before it. -/
def days (d : Date) : Except Overflow ℤ := daysFromCivil d.year d.month d.day

/-- The date `days` after 1970-01-01. -/
def fromDays (days : ℤ) : Except Overflow Date := do
  let (y, m, d) ← civilFromDays days
  pure ⟨lowSigned 32 y, lowBits 8 m, lowBits 8 d⟩

/-- The date after the span's calendar units, then so many days more. -/
def shifted (d : Date) (span : Span) (moreDays : ℤ) : Except Overflow (Option Date) := do
  let months ← i128 ((← i128 ((← span.signed .years) * 12)) + (← span.signed .months))
  let before ← i128 ((← i128 ((← i128 (d.year * 12)) + d.month)) - 1)
  let ym ← i128 (before + months)
  let year := ym / 12
  if (signed 32 year).isOk && inYears year then
    let month := lowBits 8 (← i128 (ym % 12 + 1))
    let landed : Date := ⟨year, month, min d.day (lowBits 8 (daysInMonth year month))⟩
    let weeks ← i128 ((← landed.days) + (← i128 ((← span.signed .weeks) * 7)))
    let days ← i128 ((← i128 (weeks + (← span.signed .days))) + moreDays)
    if days < firstDay || lastDay < days then pure none
    else some <$> fromDays (lowSigned 64 days)
  else pure none

/-- The date a span later, for a span of calendar units only. -/
def checkedAdd (d : Date) (span : Span) : Except Overflow (Option Date) := do
  if (← span.signed .hours) != 0 || (← span.signed .minutes) != 0 || (← span.signed .seconds) != 0 ||
      (← span.signed .nanos) != 0 then pure none
  else d.shifted span 0

end Date

namespace Time

/-- The time `hour:minute:second` and so many billionths, where it is one. -/
def tryNew (hour minute second nanosecond : ℕ) : Option Time :=
  if 23 < hour || 59 < minute || 59 < second || nanosPerSecond ≤ nanosecond then none
  else some ⟨hour, minute, second, nanosecond⟩

/-- Whole seconds since midnight. -/
def secondsOfDay (t : Time) : Except Overflow ℤ := do
  i64 ((← i64 ((← i64 (t.hour * 3600)) + (← i64 (t.minute * 60)))) + t.second)

/-- The time so many seconds after midnight. -/
def fromSecondsOfDay (seconds : ℤ) (nanosecond : ℕ) : Time :=
  ⟨lowBits 8 (seconds.tdiv 3600), lowBits 8 ((seconds.tdiv 60).tmod 60), lowBits 8 (seconds.tmod 60),
    nanosecond⟩

end Time

/-- The date-time a span later. -/
def DateTime.checkedAdd (dt : DateTime) (span : Span) : Except Overflow (Option DateTime) := do
  let hours ← i128 ((← dt.time.secondsOfDay) + (← i128 ((← span.signed .hours) * 3600)))
  let minutes ← i128 (hours + (← i128 ((← span.signed .minutes) * 60)))
  let seconds ← i128 (minutes + (← span.signed .seconds))
  let scaled ← i128 (seconds * nanosPerSecond)
  let nanos ← i128 ((← i128 (scaled + dt.time.nanosecond)) + (← span.signed .nanos))
  let date ← dt.date.shifted span (nanos / dayNanos)
  let ofDay := nanos % dayNanos
  let time := Time.fromSecondsOfDay (lowSigned 64 (ofDay.tdiv nanosPerSecond))
    (lowBits 32 (ofDay.tmod nanosPerSecond))
  pure (date.map fun date => ⟨date, time⟩)

/-- What `try_new` makes. -/
def Date.Valid (d : Date) : Prop := Date.tryNew d.year d.month d.day = some d

/-- What `try_new` makes. -/
def Time.Valid (t : Time) : Prop := Time.tryNew t.hour t.minute t.second t.nanosecond = some t

/-- A valid date and a valid time. -/
def DateTime.Valid (dt : DateTime) : Prop := dt.date.Valid ∧ dt.time.Valid

theorem Date.valid_iff {d : Date} : d.Valid ↔ (0 ≤ d.year ∧ d.year ≤ 9999) ∧
    (1 ≤ d.month ∧ d.month ≤ 12) ∧ 1 ≤ d.day ∧ d.day ≤ monthLength d.year d.month := by
  unfold Date.Valid tryNew
  rw [daysInMonth_eq]
  split
  · rename_i h
    refine ⟨nofun, fun hvalid => ?_⟩
    simp [inYears] at h
    omega
  · rename_i h
    simp [inYears] at h
    exact ⟨fun _ => by omega, fun _ => rfl⟩

theorem Time.valid_iff {t : Time} : t.Valid ↔
    t.hour ≤ 23 ∧ t.minute ≤ 59 ∧ t.second ≤ 59 ∧ t.nanosecond < nanosPerSecond := by
  unfold Time.Valid tryNew
  split
  · rename_i h
    refine ⟨nofun, fun hvalid => ?_⟩
    simp at h
    omega
  · rename_i h
    simp at h
    exact ⟨fun _ => by omega, fun _ => rfl⟩

/-- A valid date as a day of the calendar. -/
def Date.toDay (d : Date) (h : d.Valid) : Day :=
  have hd := Date.valid_iff.mp h
  ⟨d.year, d.month, d.day, hd.2.1.1, hd.2.1.2, hd.2.2.1, hd.2.2.2⟩

/-- A day of the calendar as a date. -/
def Date.ofDay (d : Day) : Date := ⟨d.year, d.month, d.day⟩

theorem Date.valid_ofDay {d : Day} (h0 : 0 ≤ d.year) (h1 : d.year ≤ 9999) : (ofDay d).Valid :=
  Date.valid_iff.mpr ⟨⟨h0, h1⟩, ⟨d.month_pos, d.month_le⟩, d.day_pos, d.day_le⟩

/-- A unit of a span, exactly. -/
def Span.count (s : Span) (p : Part) : ℤ := if s.negative then -(s.units p : ℤ) else s.units p

/-- Nanoseconds since midnight. -/
def Time.nanosOfDay (t : Time) : ℤ :=
  (t.hour * 3600 + t.minute * 60 + t.second) * nanosPerSecond + t.nanosecond

/-- A day and a time as nanoseconds on the calendar's line. -/
def instant (d : Day) (t : Time) : ℤ := d.number * dayNanos + t.nanosOfDay

/-- The days of a span. -/
def Span.dayCount (s : Span) : ℤ := s.count .weeks * 7 + s.count .days

/-- The time of a span, in nanoseconds. -/
def Span.timeCount (s : Span) : ℤ :=
  (s.count .hours * 3600 + s.count .minutes * 60 + s.count .seconds) * nanosPerSecond + s.count .nanos

/-- The months of a span. -/
def Span.monthCount (s : Span) : ℤ := s.count .years * 12 + s.count .months

/-- Where a step by a span leads: the months first, then the days and the time as they elapse. -/
def exactly (d : Day) (t : Time) (s : Span) : ℤ :=
  instant (d.addMonths s.monthCount) t + s.dayCount * dayNanos + s.timeCount

/-- Whether an instant lies in the years 0000 to 9999. -/
def Writable (x : ℤ) : Prop := yearStart 0 * dayNanos ≤ x ∧ x < yearStart 10000 * dayNanos

variable {s : Span}

theorem Span.signed_eq (h : s.Kept) (p : Part) : s.signed p = .ok (s.count p) := by
  have hfits := h.fits p
  unfold i64Max at hfits
  have hlow : lowSigned 64 (s.units p : ℤ) = s.units p := by
    unfold lowSigned
    omega
  unfold signed count
  simp only [hlow]
  split
  · exact i64_ok (by omega) (by omega)
  · rfl

theorem Span.count_bounds (h : s.Kept) (p : Part) :
    -9223372036854775807 ≤ s.count p ∧ s.count p ≤ 9223372036854775807 ∧
      (s.negative = true → s.count p ≤ 0) ∧ (s.negative = false → 0 ≤ s.count p) := by
  have hfits := h.fits p
  unfold i64Max at hfits
  unfold count
  cases s.negative with
  | false =>
    simp only [Bool.false_eq_true, if_false]
    exact ⟨by omega, by omega, nofun, fun _ => by omega⟩
  | true =>
    simp only [if_true]
    exact ⟨by omega, by omega, fun _ => by omega, nofun⟩

theorem Date.fromDays_eq {n : ℤ} (hlo : firstDay ≤ n) (hhi : n ≤ lastDay) :
    ∃ d : Day, d.number = n + 719528 ∧ (ofDay d).Valid ∧ fromDays n = .ok (ofDay d) := by
  unfold firstDay at hlo
  unfold lastDay at hhi
  obtain ⟨d, hnumber, hcivil⟩ := civilFromDays_eq (n := n) (by omega) (by omega)
  have hin := d.number_year
  unfold yearStart at hin
  have h0 : 0 ≤ d.year := by omega
  have h1 : d.year ≤ 9999 := by omega
  refine ⟨d, hnumber, valid_ofDay h0 h1, ?_⟩
  have hmonth := d.month_le
  have hday := d.day_le.trans (monthLength_le _ _)
  have hlow : lowSigned 32 d.year = d.year := by
    unfold lowSigned
    omega
  have hm : lowBits 8 d.month = d.month := lowBits_eq (by omega)
  have hd : lowBits 8 d.day = d.day := lowBits_eq (by omega)
  unfold fromDays
  rw [hcivil]
  simp only [bind, Except.bind, hlow, hm, hd]
  rfl

theorem Date.days_eq {d : Day} (h0 : 0 ≤ d.year) (h1 : d.year ≤ 9999) :
    (ofDay d).days = .ok (d.number - 719528) := by
  have hin := d.number_year
  unfold yearStart at hin
  exact daysFromCivil_eq d (by omega) (by omega)

variable {d : Day}

/-- What `shifted` comes to: the months first, then the days. -/
theorem Date.shifted_eq (h0 : 0 ≤ d.year) (h1 : d.year ≤ 9999) (hs : s.Kept) (more : ℤ)
    (hlo : -1000000000000000000000000000000 ≤ more) (hhi : more ≤ 1000000000000000000000000000000) :
    let landed := d.addMonths s.monthCount
    let n := landed.number + s.dayCount + more - 719528
    (ofDay d).shifted s more =
      if inYears landed.year = true ∧ firstDay ≤ n ∧ n ≤ lastDay then some <$> fromDays n
      else .ok none := by
  intro landed n
  have hyears := s.count_bounds hs .years
  have hmonths := s.count_bounds hs .months
  have hweeks := s.count_bounds hs .weeks
  have hdays := s.count_bounds hs .days
  have hmonth := d.month_le
  have hpos := d.month_pos
  obtain ⟨ym, hym⟩ : ∃ ym, ym = d.year * 12 + d.month - 1 + s.monthCount := ⟨_, rfl⟩
  have hlanded : landed.year = ym / 12 ∧ landed.month = (ym % 12).toNat + 1 ∧
      landed.day = min d.day (monthLength landed.year landed.month) := by
    have heq : d.year * 12 + (d.month - 1) + s.monthCount = ym := by omega
    refine ⟨?_, ?_, rfl⟩
    · rw [← heq]
      rfl
    · rw [← heq]
      rfl
  unfold Span.monthCount at hym
  have hm1 : i128 (s.count .years * 12) = .ok (s.count .years * 12) := i128_ok (by omega) (by omega)
  have hm2 : i128 (s.count .years * 12 + s.count .months) =
      .ok (s.count .years * 12 + s.count .months) := i128_ok (by omega) (by omega)
  have hb1 : i128 (d.year * 12) = .ok (d.year * 12) := i128_ok (by omega) (by omega)
  have hb2 : i128 (d.year * 12 + d.month) = .ok (d.year * 12 + d.month) :=
    i128_ok (by omega) (by omega)
  have hb3 : i128 (d.year * 12 + d.month - 1) = .ok (d.year * 12 + d.month - 1) :=
    i128_ok (by omega) (by omega)
  have hb4 : i128 (d.year * 12 + d.month - 1 + (s.count .years * 12 + s.count .months)) = .ok ym := by
    rw [hym]
    exact i128_ok (by omega) (by omega)
  unfold shifted
  simp only [bind, Except.bind, Span.signed_eq hs, ofDay, hm1, hm2, hb1, hb2, hb3, hb4]
  by_cases hin : inYears landed.year = true
  · have hyear : 0 ≤ landed.year ∧ landed.year ≤ 9999 := by
      simpa [inYears] using hin
    have hok : ((signed 32 (ym / 12)).isOk && inYears (ym / 12)) = true := by
      rw [← hlanded.1, hin, Bool.and_true, signed_ok (by omega) (by omega)]
      rfl
    have hm : i128 (ym % 12 + 1) = .ok (ym % 12 + 1) := i128_ok (by omega) (by omega)
    have hlow : lowBits 8 (ym % 12 + 1) = landed.month := by
      rw [hlanded.2.1, lowBits_toNat (by omega) (by omega)]
      omega
    have hlength := monthLength_le landed.year landed.month
    have hlast : lowBits 8 (daysInMonth (ym / 12) landed.month : ℤ) =
        monthLength landed.year landed.month := by
      rw [← hlanded.1, daysInMonth_eq]
      exact lowBits_eq (by omega)
    have hdate : Date.mk (ym / 12) landed.month
        (min d.day (monthLength landed.year landed.month)) = ofDay landed := by
      rw [← hlanded.1, ← hlanded.2.2]
      rfl
    have hnumber := landed.number_year
    unfold yearStart at hnumber
    have hn : n = landed.number + s.dayCount + more - 719528 := rfl
    unfold Span.dayCount at hn
    have hw : i128 (s.count .weeks * 7) = .ok (s.count .weeks * 7) := i128_ok (by omega) (by omega)
    have hd1 : i128 (landed.number - 719528 + s.count .weeks * 7) =
        .ok (landed.number - 719528 + s.count .weeks * 7) := i128_ok (by omega) (by omega)
    have hd2 : i128 (landed.number - 719528 + s.count .weeks * 7 + s.count .days) =
        .ok (landed.number - 719528 + s.count .weeks * 7 + s.count .days) :=
      i128_ok (by omega) (by omega)
    have hd3 : i128 (landed.number - 719528 + s.count .weeks * 7 + s.count .days + more) = .ok n := by
      rw [show n = landed.number - 719528 + s.count .weeks * 7 + s.count .days + more by omega]
      exact i128_ok (by omega) (by omega)
    simp only [hok, if_true, hm, hlow, hlast, hdate, days_eq hyear.1 hyear.2, hw, hd1, hd2, hd3]
    by_cases hout : n < firstDay ∨ lastDay < n
    · rw [if_pos (by simpa using hout), if_neg (by omega)]
      rfl
    · have hlow64 : lowSigned 64 n = n := by
        unfold firstDay lastDay at hout
        unfold lowSigned
        omega
      rw [if_neg (by simpa using hout), if_pos ⟨hin, by omega, by omega⟩, hlow64]
  · have hnot : ((signed 32 (ym / 12)).isOk && inYears (ym / 12)) = false := by
      rw [← hlanded.1, Bool.eq_false_iff.mpr hin, Bool.and_false]
    rw [hnot, if_neg Bool.false_ne_true, if_neg (fun h => hin h.1)]
    rfl

theorem Span.counts_sign (hs : s.Kept) :
    (s.negative = true → s.monthCount ≤ 0 ∧ s.dayCount ≤ 0 ∧ s.timeCount ≤ 0) ∧
      (s.negative = false → 0 ≤ s.monthCount ∧ 0 ≤ s.dayCount ∧ 0 ≤ s.timeCount) := by
  have hc (p : Part) := (s.count_bounds hs p).2.2
  unfold monthCount dayCount timeCount nanosPerSecond
  constructor
  · intro hsign
    have hneg (p : Part) := (hc p).1 hsign
    have := hneg .years
    have := hneg .months
    have := hneg .weeks
    have := hneg .days
    have := hneg .hours
    have := hneg .minutes
    have := hneg .seconds
    have := hneg .nanos
    omega
  · intro hsign
    have hpos (p : Part) := (hc p).2 hsign
    have := hpos .years
    have := hpos .months
    have := hpos .weeks
    have := hpos .days
    have := hpos .hours
    have := hpos .minutes
    have := hpos .seconds
    have := hpos .nanos
    omega

/-- A step that leaves the years with its months does not come back with its days. -/
theorem writable_iff (h0 : 0 ≤ d.year) (h1 : d.year ≤ 9999) (hs : s.Kept) {x : ℤ}
    (hback : s.negative = true → x < dayNanos) (hforth : s.negative = false → 0 ≤ x) :
    let landed := d.addMonths s.monthCount
    Writable (landed.number * dayNanos + s.dayCount * dayNanos + x) ↔
      inYears landed.year = true ∧ firstDay ≤ landed.number + s.dayCount + x / dayNanos - 719528 ∧
        landed.number + s.dayCount + x / dayNanos - 719528 ≤ lastDay := by
  intro landed
  obtain ⟨hneg, hpos⟩ := s.counts_sign hs
  have hmonth := d.month_le
  have hpos' := d.month_pos
  have hyear : landed.year = (d.year * 12 + (d.month - 1) + s.monthCount) / 12 := rfl
  have hnumber := landed.number_year
  have hstart : yearStart 0 = 0 := by decide
  have hend : yearStart 10000 = 3652425 := by decide
  obtain ⟨q, hq⟩ : ∃ q, q = x / dayNanos := ⟨_, rfl⟩
  obtain ⟨r, hr⟩ : ∃ r, r = x % dayNanos := ⟨_, rfl⟩
  have hx : x = q * dayNanos + r := by
    rw [hq, hr]
    exact (Int.ediv_mul_add_emod x dayNanos).symm
  have hr' : 0 ≤ r ∧ r < dayNanos := by
    rw [hr]
    exact ⟨Int.emod_nonneg _ (by decide), Int.emod_lt_of_pos _ (by decide)⟩
  have hin : inYears landed.year = true ↔ 0 ≤ landed.year ∧ landed.year ≤ 9999 := by
    simp [inYears]
  rw [hin, ← hq]
  unfold Writable firstDay lastDay
  rw [hstart, hend]
  clear hq hr hin hstart hend
  by_cases hinside : 0 ≤ landed.year ∧ landed.year ≤ 9999
  · clear hneg hpos hback hforth hnumber hyear
    unfold dayNanos at *
    omega
  · have hout : landed.year < 0 ∧ s.negative = true ∨ 9999 < landed.year ∧ s.negative = false := by
      cases hsign : s.negative with
      | false =>
        have := (hpos hsign).1
        exact .inr ⟨by omega, rfl⟩
      | true =>
        have := (hneg hsign).1
        exact .inl ⟨by omega, rfl⟩
    refine ⟨fun hw => ?_, fun hw => absurd hw.1 hinside⟩
    rcases hout with ⟨hlow, hsign⟩ | ⟨hhigh, hsign⟩
    · have hsmall := hback hsign
      have hdays := (hneg hsign).2.1
      have hbefore : landed.number < 0 :=
        hnumber.2.trans_le ((yearStart_mono (by omega : landed.year + 1 ≤ 0)).trans (by decide))
      unfold dayNanos at *
      omega
    · have hlarge := hforth hsign
      have hdays := (hpos hsign).2.1
      have hafter : 3652425 ≤ landed.number :=
        (by decide : (3652425 : ℤ) ≤ yearStart 10000).trans
          ((yearStart_mono (by omega : 10000 ≤ landed.year)).trans hnumber.1)
      unfold dayNanos at *
      omega

variable {t : Time}

theorem Time.secondsOfDay_eq (h : t.Valid) :
    t.secondsOfDay = .ok (t.hour * 3600 + t.minute * 60 + t.second) := by
  obtain ⟨hhour, hminute, hsecond, -⟩ := Time.valid_iff.mp h
  unfold secondsOfDay
  -- as integers, so that no product is computed
  obtain ⟨hours, hh⟩ : ∃ x : ℤ, x = t.hour := ⟨_, rfl⟩
  obtain ⟨minutes, hm⟩ : ∃ x : ℤ, x = t.minute := ⟨_, rfl⟩
  obtain ⟨seconds, hs⟩ : ∃ x : ℤ, x = t.second := ⟨_, rfl⟩
  rw [← hh, ← hm, ← hs]
  have h1 : i64 (hours * 3600) = .ok (hours * 3600) := i64_ok (by omega) (by omega)
  have h2 : i64 (minutes * 60) = .ok (minutes * 60) := i64_ok (by omega) (by omega)
  have h3 : i64 (hours * 3600 + minutes * 60) = .ok (hours * 3600 + minutes * 60) :=
    i64_ok (by omega) (by omega)
  simp only [bind, Except.bind, h1, h2, h3]
  exact i64_ok (by omega) (by omega)

theorem Time.fromSecondsOfDay_eq {x : ℤ} {nanos : ℕ} (h0 : 0 ≤ x) (h1 : x < daySeconds)
    (hn : nanos < nanosPerSecond) :
    (fromSecondsOfDay x nanos).Valid ∧ (fromSecondsOfDay x nanos).nanosOfDay = x * nanosPerSecond + nanos := by
  unfold daySeconds at h1
  have hq1 : x.tdiv 3600 = x / 3600 := Int.tdiv_eq_ediv_of_nonneg h0
  have hq2 : x.tdiv 60 = x / 60 := Int.tdiv_eq_ediv_of_nonneg h0
  have hq3 : (x / 60).tmod 60 = x / 60 % 60 := Int.tmod_eq_emod_of_nonneg (by omega)
  have hq4 : x.tmod 60 = x % 60 := Int.tmod_eq_emod_of_nonneg h0
  have hhour : (fromSecondsOfDay x nanos).hour = (x / 3600).toNat := by
    rw [fromSecondsOfDay, hq1]
    exact lowBits_toNat (by omega) (by omega)
  have hminute : (fromSecondsOfDay x nanos).minute = (x / 60 % 60).toNat := by
    rw [fromSecondsOfDay, hq2, hq3]
    exact lowBits_toNat (by omega) (by omega)
  have hsecond : (fromSecondsOfDay x nanos).second = (x % 60).toNat := by
    rw [fromSecondsOfDay, hq4]
    exact lowBits_toNat (by omega) (by omega)
  have hnano : (fromSecondsOfDay x nanos).nanosecond = nanos := rfl
  have hsum : ((x / 3600).toNat : ℤ) * 3600 + ((x / 60 % 60).toNat : ℤ) * 60 + ((x % 60).toNat : ℤ) =
      x := by omega
  constructor
  · rw [Time.valid_iff, hhour, hminute, hsecond, hnano]
    exact ⟨by omega, by omega, by omega, hn⟩
  · rw [Time.nanosOfDay, hhour, hminute, hsecond, hnano, hsum]

/-- Midnight. -/
def Time.midnight : Time := ⟨0, 0, 0, 0⟩

/-- A span with hours, minutes, seconds or nanoseconds. -/
def Span.Timed (s : Span) : Prop :=
  s.units .hours ≠ 0 ∨ s.units .minutes ≠ 0 ∨ s.units .seconds ≠ 0 ∨ s.units .nanos ≠ 0

theorem Span.count_eq_zero {p : Part} : s.count p = 0 ↔ s.units p = 0 := by
  unfold count
  split <;> omega

/-- A date-time's step is exact, or leaves the years. -/
theorem DateTime.checkedAdd_eq (h0 : 0 ≤ d.year) (h1 : d.year ≤ 9999) (ht : t.Valid) (hs : s.Kept) :
    (Writable (exactly d t s) → ∃ d' : Day, ∃ t', (Date.ofDay d').Valid ∧ t'.Valid ∧
      DateTime.checkedAdd ⟨.ofDay d, t⟩ s = .ok (some ⟨.ofDay d', t'⟩) ∧
      instant d' t' = exactly d t s) ∧
    (¬ Writable (exactly d t s) → DateTime.checkedAdd ⟨.ofDay d, t⟩ s = .ok none) := by
  have hh := s.count_bounds hs .hours
  have hm := s.count_bounds hs .minutes
  have hsec := s.count_bounds hs .seconds
  have hns := s.count_bounds hs .nanos
  obtain ⟨th, tm, tsec, tns⟩ := Time.valid_iff.mp ht
  obtain ⟨hneg, hpos⟩ := s.counts_sign hs
  obtain ⟨x, hx⟩ : ∃ x, x = t.nanosOfDay + s.timeCount := ⟨_, rfl⟩
  have htod : 0 ≤ t.nanosOfDay ∧ t.nanosOfDay < dayNanos := by
    unfold Time.nanosOfDay dayNanos
    unfold nanosPerSecond at *
    omega
  have hback : s.negative = true → x < dayNanos := fun hsign => by
    have := (hneg hsign).2.2
    omega
  have hforth : s.negative = false → 0 ≤ x := fun hsign => by
    have := (hpos hsign).2.2
    omega
  have hexact : exactly d t s =
      (d.addMonths s.monthCount).number * dayNanos + s.dayCount * dayNanos + x := by
    rw [exactly, instant, hx]
    ring
  have hw := writable_iff h0 h1 hs hback hforth
  dsimp only at hw
  rw [← hexact] at hw
  -- the machine operations, in order
  have hshift := Date.shifted_eq h0 h1 hs (x / dayNanos)
  have hsod := Time.secondsOfDay_eq ht
  have hsh := Span.signed_eq hs .hours
  have hsm := Span.signed_eq hs .minutes
  have hss := Span.signed_eq hs .seconds
  have hsn := Span.signed_eq hs .nanos
  obtain ⟨sod, hsod'⟩ : ∃ sod : ℤ, sod = t.hour * 3600 + t.minute * 60 + t.second := ⟨_, rfl⟩
  obtain ⟨ns, hns'⟩ : ∃ ns : ℤ, ns = t.nanosecond := ⟨_, rfl⟩
  have hper : (nanosPerSecond : ℤ) = 1000000000 := rfl
  rw [← hsod'] at hsod
  have hsod0 : 0 ≤ sod ∧ sod < 86400 := by omega
  have hns0 : 0 ≤ ns ∧ ns < 1000000000 := by
    rw [hns', ← hper]
    exact ⟨Int.natCast_nonneg _, Int.ofNat_lt.mpr tns⟩
  unfold Time.nanosOfDay Span.timeCount at hx
  rw [hper, ← hsod', ← hns'] at hx
  generalize s.count .hours = h at *
  generalize s.count .minutes = m at *
  generalize s.count .seconds = sec at *
  generalize s.count .nanos = nn at *
  have o1 : i128 (h * 3600) = .ok (h * 3600) := i128_ok (by omega) (by omega)
  have o2 : i128 (sod + h * 3600) = .ok (sod + h * 3600) := i128_ok (by omega) (by omega)
  have o3 : i128 (m * 60) = .ok (m * 60) := i128_ok (by omega) (by omega)
  have o4 : i128 (sod + h * 3600 + m * 60) = .ok (sod + h * 3600 + m * 60) :=
    i128_ok (by omega) (by omega)
  have o5 : i128 (sod + h * 3600 + m * 60 + sec) = .ok (sod + h * 3600 + m * 60 + sec) :=
    i128_ok (by omega) (by omega)
  have o6 : i128 ((sod + h * 3600 + m * 60 + sec) * 1000000000) =
      .ok ((sod + h * 3600 + m * 60 + sec) * 1000000000) := i128_ok (by omega) (by omega)
  have o7 : i128 ((sod + h * 3600 + m * 60 + sec) * 1000000000 + ns) =
      .ok ((sod + h * 3600 + m * 60 + sec) * 1000000000 + ns) := i128_ok (by omega) (by omega)
  have o8 : i128 ((sod + h * 3600 + m * 60 + sec) * 1000000000 + ns + nn) = .ok x := by
    rw [show x = (sod + h * 3600 + m * 60 + sec) * 1000000000 + ns + nn by omega]
    exact i128_ok (by omega) (by omega)
  have hq : -1000000000000000000000000000000 ≤ x / dayNanos ∧
      x / dayNanos ≤ 1000000000000000000000000000000 := by
    unfold dayNanos
    omega
  have hshift' := hshift hq.1 hq.2
  dsimp only at hshift'
  obtain ⟨r, hr⟩ : ∃ r, r = x % dayNanos := ⟨_, rfl⟩
  have hr0 : 0 ≤ r ∧ r < 86400000000000 := by
    rw [hr]
    exact ⟨Int.emod_nonneg _ (by decide), Int.emod_lt_of_pos _ (by decide)⟩
  have hdiv : r.tdiv 1000000000 = r / 1000000000 := Int.tdiv_eq_ediv_of_nonneg hr0.1
  have hmod : r.tmod 1000000000 = r % 1000000000 := Int.tmod_eq_emod_of_nonneg hr0.1
  have hlow : lowSigned 64 (r / 1000000000) = r / 1000000000 := by
    unfold lowSigned
    omega
  have hlow' : lowBits 32 (r % 1000000000) = (r % 1000000000).toNat := lowBits_toNat (by omega) (by omega)
  obtain ⟨hvalid, hnanos⟩ := Time.fromSecondsOfDay_eq (x := r / 1000000000)
    (by omega) (by unfold daySeconds; omega)
    (show (r % 1000000000).toNat < nanosPerSecond by unfold nanosPerSecond; omega)
  have hstep : DateTime.checkedAdd ⟨.ofDay d, t⟩ s =
      ((Date.ofDay d).shifted s (x / dayNanos)).map (Option.map fun date =>
        ⟨date, Time.fromSecondsOfDay (r / 1000000000) (r % 1000000000).toNat⟩) := by
    unfold DateTime.checkedAdd
    rw [hper]
    dsimp only
    rw [← hns', hsod]
    simp only [bind, Except.bind, hsh, hsm, hss, hsn, o1, o2, o3, o4, o5, o6, o7,
      o8, ← hr, hdiv, hmod, hlow, hlow']
    cases (Date.ofDay d).shifted s (x / dayNanos) <;> rfl
  have hline : exactly d t s = ((d.addMonths s.monthCount).number + s.dayCount + x / dayNanos) * dayNanos +
      r := by
    rw [hexact, hr, add_mul, add_mul, add_assoc, add_assoc, Int.ediv_mul_add_emod, ← add_assoc]
  rw [hstep, hshift']
  constructor
  · intro hwritable
    obtain ⟨hin, hfirst, hlast⟩ := hw.mp hwritable
    obtain ⟨d', hnumber, hvalid', hfrom⟩ := Date.fromDays_eq hfirst hlast
    refine ⟨d', _, hvalid', hvalid, ?_, ?_⟩
    · rw [if_pos ⟨hin, hfirst, hlast⟩, hfrom]
      rfl
    · rw [hline, instant, hnanos, hnumber, hper, sub_add_cancel]
      omega
  · intro hnot
    rw [if_neg fun h => hnot (hw.mpr h)]
    rfl

theorem Span.timeCount_eq_zero (h : ¬ s.Timed) : s.timeCount = 0 := by
  unfold Timed at h
  push Not at h
  obtain ⟨hh, hm, hsec, hn⟩ := h
  rw [timeCount, count_eq_zero.mpr hh, count_eq_zero.mpr hm, count_eq_zero.mpr hsec,
    count_eq_zero.mpr hn]
  rfl

theorem Date.checkedAdd_eq (h0 : 0 ≤ d.year) (h1 : d.year ≤ 9999) (hs : s.Kept) :
    (¬ s.Timed → Writable (exactly d .midnight s) → ∃ d' : Day, (ofDay d').Valid ∧
      (ofDay d).checkedAdd s = .ok (some (ofDay d')) ∧
      instant d' .midnight = exactly d .midnight s) ∧
    (s.Timed ∨ ¬ Writable (exactly d .midnight s) → (ofDay d).checkedAdd s = .ok none) := by
  have hread : (ofDay d).checkedAdd s =
      if s.count .hours != 0 || s.count .minutes != 0 || s.count .seconds != 0 || s.count .nanos != 0
      then .ok none else (ofDay d).shifted s 0 := by
    unfold checkedAdd
    simp only [bind, Except.bind, Span.signed_eq hs]
    rfl
  have htimed : (s.count .hours != 0 || s.count .minutes != 0 || s.count .seconds != 0 ||
      s.count .nanos != 0) = true ↔ s.Timed := by
    simp only [Bool.or_eq_true, bne_iff_ne, ne_eq, Span.count_eq_zero, Span.Timed, or_assoc]
  have hshift := Date.shifted_eq h0 h1 hs 0 (by decide) (by decide)
  dsimp only at hshift
  have hw := writable_iff (x := 0) h0 h1 hs (fun _ => by decide) (fun _ => le_refl 0)
  dsimp only at hw
  rw [Int.zero_ediv] at hw
  have hexact (hnot : ¬ s.Timed) : exactly d .midnight s =
      (d.addMonths s.monthCount).number * dayNanos + s.dayCount * dayNanos + 0 := by
    rw [exactly, instant, Span.timeCount_eq_zero hnot, show Time.midnight.nanosOfDay = 0 from rfl]
    ring
  constructor
  · intro hnot hwritable
    rw [hexact hnot, hw] at hwritable
    obtain ⟨hin, hfirst, hlast⟩ := hwritable
    obtain ⟨d', hnumber, hvalid, hfrom⟩ := Date.fromDays_eq hfirst hlast
    refine ⟨d', hvalid, ?_, ?_⟩
    · rw [hread, if_neg fun h => hnot (htimed.mp h), hshift, if_pos ⟨hin, hfirst, hlast⟩, hfrom]
      rfl
    · rw [hexact hnot, instant, hnumber, sub_add_cancel, show Time.midnight.nanosOfDay = 0 from rfl]
      ring
  · intro hout
    by_cases htime : s.Timed
    · rw [hread, if_pos (htimed.mpr htime)]
    · have hnot := hout.resolve_left htime
      rw [hexact htime, hw] at hnot
      rw [hread, if_neg fun h => htime (htimed.mp h), hshift, if_neg hnot]

/-- Every step of a valid date or date-time by a span is computed without an overflow. It answers
nothing exactly where the exact result lies outside the years 0000 to 9999, or where a date is to step
by hours, minutes, seconds or nanoseconds; and what it answers is valid and the exact result. -/
theorem checkedAdd_exact :
    (∀ (dt : DateTime) (h : dt.Valid) (s : Span), s.Made → ∃ r, dt.checkedAdd s = .ok r ∧
      (r = none ↔ ¬ Writable (exactly (dt.date.toDay h.1) dt.time s)) ∧
      ∀ dt', r = some dt' → ∃ h' : dt'.Valid,
        instant (dt'.date.toDay h'.1) dt'.time = exactly (dt.date.toDay h.1) dt.time s) ∧
    ∀ (date : Date) (h : date.Valid) (s : Span), s.Made → ∃ r, date.checkedAdd s = .ok r ∧
      (r = none ↔ s.Timed ∨ ¬ Writable (exactly (date.toDay h) .midnight s)) ∧
      ∀ date', r = some date' → ∃ h' : date'.Valid,
        instant (date'.toDay h') .midnight = exactly (date.toDay h) .midnight s := by
  constructor
  · rintro ⟨date, t⟩ ⟨hd, ht⟩ s hs
    obtain ⟨⟨h0, h1⟩, -⟩ := Date.valid_iff.mp hd
    obtain ⟨hyes, hno⟩ := DateTime.checkedAdd_eq (d := date.toDay hd) h0 h1 ht hs.kept
    by_cases hw : Writable (exactly (date.toDay hd) t s)
    · obtain ⟨d', t', hd', ht', hstep, hexact⟩ := hyes hw
      refine ⟨_, hstep, by simp [hw], ?_⟩
      rintro dt' hdt'
      cases hdt'
      exact ⟨⟨hd', ht'⟩, hexact⟩
    · exact ⟨none, hno hw, by simp [hw], nofun⟩
  · rintro date hd s hs
    obtain ⟨⟨h0, h1⟩, -⟩ := Date.valid_iff.mp hd
    obtain ⟨hyes, hno⟩ := Date.checkedAdd_eq (d := date.toDay hd) h0 h1 hs.kept
    by_cases hout : s.Timed ∨ ¬ Writable (exactly (date.toDay hd) .midnight s)
    · exact ⟨none, hno hout, by simp [hout], nofun⟩
    · push Not at hout
      obtain ⟨d', hd', hstep, hexact⟩ := hyes hout.1 hout.2
      refine ⟨_, hstep, by simp [hout.1, hout.2], ?_⟩
      rintro date' hdate'
      cases hdate'
      exact ⟨hd', hexact⟩

/-- Half an hour before the year 2027. -/
def lateEvening : DateTime := ⟨⟨2026, 12, 31⟩, ⟨23, 30, 0, 0⟩⟩

/-- An hour. -/
def oneHour : Span := Span.new.with_ .hours 1

theorem lateEvening_valid : lateEvening.Valid := ⟨rfl, rfl⟩

/-- An hour later it is half past midnight, and the date steps by a month only to its exact day. -/
theorem checkedAdd_lateEvening :
    (∃ h' : (⟨⟨2027, 1, 1⟩, ⟨0, 30, 0, 0⟩⟩ : DateTime).Valid,
      instant (Date.toDay ⟨2027, 1, 1⟩ h'.1) ⟨0, 30, 0, 0⟩ =
        exactly (lateEvening.date.toDay lateEvening_valid.1) lateEvening.time oneHour) ∧
    ∃ h' : Date.Valid ⟨2027, 1, 31⟩, instant (Date.toDay ⟨2027, 1, 31⟩ h') .midnight =
      exactly (lateEvening.date.toDay lateEvening_valid.1) .midnight (Span.new.with_ .months 1) := by
  constructor
  · obtain ⟨r, hr, -, hexact⟩ := checkedAdd_exact.1 lateEvening lateEvening_valid oneHour
      (.with_ .hours (by decide) 1 .new)
    have hstep : lateEvening.checkedAdd oneHour = .ok (some ⟨⟨2027, 1, 1⟩, ⟨0, 30, 0, 0⟩⟩) := by
      decide +kernel
    rw [hstep] at hr
    exact hexact _ (Except.ok.inj hr).symm
  · obtain ⟨r, hr, -, hexact⟩ := checkedAdd_exact.2 lateEvening.date lateEvening_valid.1 _
      (.with_ .months (by decide) 1 .new)
    have hstep : lateEvening.date.checkedAdd (Span.new.with_ .months 1) = .ok (some ⟨2027, 1, 31⟩) := by
      decide +kernel
    rw [hstep] at hr
    exact hexact _ (Except.ok.inj hr).symm

/-- A date does not step by an hour, though the hour leaves it where it is. -/
theorem not_checkedAdd_exact : ¬ ∀ (date : Date) (h : date.Valid) (s : Span), s.Made →
    (date.checkedAdd s = .ok none ↔ ¬ Writable (exactly (date.toDay h) .midnight s)) := by
  intro hall
  have hiff := hall lateEvening.date lateEvening_valid.1 oneHour (.with_ .hours (by decide) 1 .new)
  refine hiff.mp (by decide +kernel) ?_
  unfold Writable
  decide +kernel

end Guatiao.Civil
