import Guatiao.Lib.Checked
import Guatiao.Lib.Gregorian

/-!
# Days and dates

The calendar is the proleptic Gregorian one. Every machine operation stands for itself, so that one
that overflows would be seen.
-/

namespace Guatiao.Civil

open Lib Gregorian

/-- Days from 1970-01-01 to `y-m-d`, negative before it. -/
def daysFromCivil (y : ℤ) (m d : ℕ) : Except Overflow ℤ := do
  let y ← (if m ≤ 2 then i64 (y - 1) else pure y)
  let era := y / 400
  let yoe ← i64 (y - (← i64 (era * 400)))
  let shifted ← (if m > 2 then i64 (m - 3) else i64 (m + 9))
  let scaled ← i64 ((← i64 (153 * shifted)) + 2)
  let doy ← i64 ((← i64 (scaled.tdiv 5 + d)) - 1)
  let leaps ← i64 ((← i64 ((← i64 (yoe * 365)) + yoe.tdiv 4)) - yoe.tdiv 100)
  let doe ← i64 (leaps + doy)
  i64 ((← i64 ((← i64 (era * 146097)) + doe)) - 719468)

/-- The date `days` after 1970-01-01. -/
def civilFromDays (days : ℤ) : Except Overflow (ℤ × ℕ × ℕ) := do
  let z ← i64 (days + 719468)
  let era := z / 146097
  let doe ← i64 (z - (← i64 (era * 146097)))
  let most ← i64 ((← i64 (doe - doe.tdiv 1460)) + doe.tdiv 36524)
  let yoe := (← i64 (most - doe.tdiv 146096)).tdiv 365
  let before ← i64 ((← i64 ((← i64 (365 * yoe)) + yoe.tdiv 4)) - yoe.tdiv 100)
  let doy ← i64 (doe - before)
  let mp := (← i64 ((← i64 (5 * doy)) + 2)).tdiv 153
  let upto := (← i64 ((← i64 (153 * mp)) + 2)).tdiv 5
  let d := lowBits 32 (← i64 ((← i64 (doy - upto)) + 1))
  let m := lowBits 32 (← (if mp < 10 then i64 (mp + 3) else i64 (mp - 9)))
  let y ← i64 ((← i64 (yoe + (← i64 (era * 400)))) + if m ≤ 2 then 1 else 0)
  pure (y, m, d)

/-- Whether a year has a leap day. -/
def isLeap (y : ℤ) : Bool := y.tmod 4 == 0 && (y.tmod 100 != 0 || y.tmod 400 == 0)

/-- How many days a month has. -/
def daysInMonth (y : ℤ) (m : ℕ) : ℕ :=
  match m with
  | 2 => if isLeap y then 29 else 28
  | 4 | 6 | 9 | 11 => 30
  | _ => 31

example : civilFromDays (-1) = .ok (1969, 12, 31) := by decide

theorem isLeap_iff (y : ℤ) : isLeap y = true ↔ Leap y := by
  simp only [isLeap, Leap, Bool.and_eq_true, Bool.or_eq_true, beq_iff_eq, bne_iff_ne, ne_eq,
    ← Int.dvd_iff_tmod_eq_zero]

theorem daysInMonth_eq (y : ℤ) (m : ℕ) : daysInMonth y m = monthLength y m := by
  have hleap : (if isLeap y then 29 else 28 : ℕ) = if Leap y then 29 else 28 :=
    if_congr (isLeap_iff y) rfl rfl
  unfold daysInMonth
  rw [hleap]
  rfl

/-- Days are numbered as the calendar numbers them, the epoch the day zero. -/
theorem daysFromCivil_eq (d : Day) (hlo : -9223372036854775808 ≤ d.number - 719528)
    (hhi : d.number - 60 < 9223372036854775808) :
    daysFromCivil d.year d.month d.day = .ok (d.number - 719528) := by
  have hpos := d.month_pos
  have hle := d.month_le
  have hday := d.day_pos
  have hday' := d.day_le.trans (monthLength_le _ _)
  obtain ⟨y, hy⟩ : ∃ y, y = if d.month ≤ 2 then d.year - 1 else d.year := ⟨_, rfl⟩
  obtain ⟨s, hs⟩ : ∃ s : ℤ, s = if d.month > 2 then (d.month : ℤ) - 3 else d.month + 9 := ⟨_, rfl⟩
  have hs' : 0 ≤ s ∧ s ≤ 11 := by
    split at hs <;> omega
  have hin := d.number_year
  have hd' : -30000000000000000 ≤ d.year ∧ d.year ≤ 30000000000000000 := by
    unfold yearStart at hin
    omega
  have hy' : -30000000000000001 ≤ y ∧ y ≤ 30000000000000000 := by
    split at hy <;> omega
  have hyear : (if d.month ≤ 2 then i64 (d.year - 1) else pure d.year) = .ok y := by
    rw [hy]
    split
    · exact i64_ok (by omega) (by omega)
    · rfl
  have hshifted : (if d.month > 2 then i64 ((d.month : ℤ) - 3) else i64 (d.month + 9)) = .ok s := by
    rw [hs]
    split <;> exact i64_ok (by omega) (by omega)
  obtain ⟨e, he⟩ : ∃ e, e = y / 400 := ⟨_, rfl⟩
  obtain ⟨yoe, hyoe⟩ : ∃ yoe, yoe = y - e * 400 := ⟨_, rfl⟩
  have hyoe' : 0 ≤ yoe ∧ yoe < 400 := by omega
  have hmarch : marchStart y = e * 146097 + marchStart yoe := by
    rw [← marchStart_era, hyoe]
    congr 1
    omega
  have hyoe'' : 0 ≤ marchStart yoe ∧ marchStart yoe ≤ 146000 := by
    unfold marchStart
    omega
  have hnumber : d.number = e * 146097 + marchStart yoe + (153 * s + 2) / 5 + d.day + 59 := by
    rw [d.number_march, ← hmarch]
    split at hy <;> rename_i hmonth
    · rw [if_neg (by omega)] at hs
      rw [if_pos hmonth, ← hy, hs]
    · rw [if_pos (by omega)] at hs
      rw [if_neg hmonth, ← hy, hs]
  have hera' : i64 (e * 146097) = .ok (e * 146097) := i64_ok (by omega) (by omega)
  have hera : i64 (e * 400) = .ok (e * 400) := i64_ok (by omega) (by omega)
  have hof : i64 (y - e * 400) = .ok yoe := by
    rw [hyoe]
    exact i64_ok (by omega) (by omega)
  have hscale : i64 (153 * s) = .ok (153 * s) := i64_ok (by omega) (by omega)
  have hscaled : i64 (153 * s + 2) = .ok (153 * s + 2) := i64_ok (by omega) (by omega)
  have hfive : (153 * s + 2).tdiv 5 = (153 * s + 2) / 5 := Int.tdiv_eq_ediv_of_nonneg (by omega)
  have hfour : yoe.tdiv 4 = yoe / 4 := Int.tdiv_eq_ediv_of_nonneg (by omega)
  have hcentury : yoe.tdiv 100 = yoe / 100 := Int.tdiv_eq_ediv_of_nonneg (by omega)
  have hadd : i64 ((153 * s + 2) / 5 + d.day) = .ok ((153 * s + 2) / 5 + d.day) :=
    i64_ok (by omega) (by omega)
  have hdoy : i64 ((153 * s + 2) / 5 + d.day - 1) = .ok ((153 * s + 2) / 5 + d.day - 1) :=
    i64_ok (by omega) (by omega)
  have hdays : i64 (yoe * 365) = .ok (yoe * 365) := i64_ok (by omega) (by omega)
  have hleap : i64 (yoe * 365 + yoe / 4) = .ok (yoe * 365 + yoe / 4) := i64_ok (by omega) (by omega)
  have hbefore : i64 (yoe * 365 + yoe / 4 - yoe / 100) = .ok (marchStart yoe) := by
    rw [show marchStart yoe = yoe * 365 + yoe / 4 - yoe / 100 by unfold marchStart; omega]
    exact i64_ok (by omega) (by omega)
  have hdoe : i64 (marchStart yoe + ((153 * s + 2) / 5 + d.day - 1)) =
      .ok (marchStart yoe + ((153 * s + 2) / 5 + d.day - 1)) := i64_ok (by omega) (by omega)
  have hsum : i64 (e * 146097 + (marchStart yoe + ((153 * s + 2) / 5 + d.day - 1))) =
      .ok (e * 146097 + (marchStart yoe + ((153 * s + 2) / 5 + d.day - 1))) :=
    i64_ok (by omega) (by omega)
  unfold daysFromCivil
  rw [hyear, hshifted]
  simp only [bind, Except.bind, ← he, hera, hof, hscale, hscaled, hfive, hfour, hcentury, hadd, hdoy,
    hdays, hleap, hbefore, hdoe, hera', hsum]
  rw [i64_ok (by omega) (by omega), hnumber]
  congr 1
  omega

/-- The date of a day number is the calendar's, counted from the epoch. -/
theorem civilFromDays_eq {n : ℤ} (hlo : -9223372036854775808 ≤ n)
    (hhi : n + 719468 < 9223372036854775808) :
    ∃ d : Day, d.number = n + 719528 ∧ civilFromDays n = .ok (d.year, d.month, d.day) := by
  obtain ⟨e, he⟩ : ∃ e, e = (n + 719468) / 146097 := ⟨_, rfl⟩
  obtain ⟨doe, hdoe⟩ : ∃ doe, doe = n + 719468 - e * 146097 := ⟨_, rfl⟩
  have hdoe' : 0 ≤ doe ∧ doe < 146097 := by omega
  obtain ⟨h0, h400, hstart, hend⟩ := year_of_era hdoe'.1 hdoe'.2
  obtain ⟨yoe, hyoe⟩ : ∃ yoe, yoe = (doe - doe / 1460 + doe / 36524 - doe / 146096) / 365 := ⟨_, rfl⟩
  rw [← hyoe] at h0 h400 hstart hend
  obtain ⟨doy, hdoy⟩ : ∃ doy, doy = doe - marchStart yoe := ⟨_, rfl⟩
  have hsucc := marchStart_succ yoe
  have hdoy' : 0 ≤ doy ∧ doy ≤ 365 := by
    split at hsucc <;> omega
  have hmarch := marchStart_era e yoe
  have hmarch' := marchStart_era e (yoe + 1)
  obtain ⟨mp, hmp⟩ : ∃ mp, mp = (5 * doy + 2) / 153 := ⟨_, rfl⟩
  obtain ⟨d, hnumber, hday, hmonth, hyear⟩ := Day.exists_march (y := e * 400 + yoe) hdoy'.1
    (by rw [add_assoc, hmarch, hmarch']; omega)
  rw [← hmp] at hday hmonth hyear
  refine ⟨d, by omega, ?_⟩
  have hz : i64 (n + 719468) = .ok (n + 719468) := i64_ok (by omega) (by omega)
  have hera : i64 (e * 146097) = .ok (e * 146097) := i64_ok (by omega) (by omega)
  have hof : i64 (n + 719468 - e * 146097) = .ok doe := by
    rw [hdoe]
    exact i64_ok (by omega) (by omega)
  have hq1 : doe.tdiv 1460 = doe / 1460 := Int.tdiv_eq_ediv_of_nonneg hdoe'.1
  have hq2 : doe.tdiv 36524 = doe / 36524 := Int.tdiv_eq_ediv_of_nonneg hdoe'.1
  have hq3 : doe.tdiv 146096 = doe / 146096 := Int.tdiv_eq_ediv_of_nonneg hdoe'.1
  have ht1 : i64 (doe - doe / 1460) = .ok (doe - doe / 1460) := i64_ok (by omega) (by omega)
  have ht2 : i64 (doe - doe / 1460 + doe / 36524) = .ok (doe - doe / 1460 + doe / 36524) :=
    i64_ok (by omega) (by omega)
  have ht3 : i64 (doe - doe / 1460 + doe / 36524 - doe / 146096) =
      .ok (doe - doe / 1460 + doe / 36524 - doe / 146096) := i64_ok (by omega) (by omega)
  have hq4 : (doe - doe / 1460 + doe / 36524 - doe / 146096).tdiv 365 = yoe := by
    rw [hyoe]
    exact Int.tdiv_eq_ediv_of_nonneg (by omega)
  have hq5 : yoe.tdiv 4 = yoe / 4 := Int.tdiv_eq_ediv_of_nonneg h0
  have hq6 : yoe.tdiv 100 = yoe / 100 := Int.tdiv_eq_ediv_of_nonneg h0
  have hb1 : i64 (365 * yoe) = .ok (365 * yoe) := i64_ok (by omega) (by omega)
  have hb2 : i64 (365 * yoe + yoe / 4) = .ok (365 * yoe + yoe / 4) := i64_ok (by omega) (by omega)
  have hb3 : i64 (365 * yoe + yoe / 4 - yoe / 100) = .ok (marchStart yoe) := by
    rw [show marchStart yoe = 365 * yoe + yoe / 4 - yoe / 100 by unfold marchStart; omega]
    exact i64_ok (by omega) (by omega)
  have hd1 : i64 (doe - marchStart yoe) = .ok doy := by
    rw [hdoy]
    exact i64_ok (by omega) (by omega)
  have hd2 : i64 (5 * doy) = .ok (5 * doy) := i64_ok (by omega) (by omega)
  have hd3 : i64 (5 * doy + 2) = .ok (5 * doy + 2) := i64_ok (by omega) (by omega)
  have hq7 : (5 * doy + 2).tdiv 153 = mp := by
    rw [hmp]
    exact Int.tdiv_eq_ediv_of_nonneg (by omega)
  have hm1 : i64 (153 * mp) = .ok (153 * mp) := i64_ok (by omega) (by omega)
  have hm2 : i64 (153 * mp + 2) = .ok (153 * mp + 2) := i64_ok (by omega) (by omega)
  have hq8 : (153 * mp + 2).tdiv 5 = (153 * mp + 2) / 5 := Int.tdiv_eq_ediv_of_nonneg (by omega)
  have hm3 : i64 (doy - (153 * mp + 2) / 5) = .ok (doy - (153 * mp + 2) / 5) :=
    i64_ok (by omega) (by omega)
  have hm4 : i64 (doy - (153 * mp + 2) / 5 + 1) = .ok (d.day : ℤ) := by
    rw [hday]
    exact i64_ok (by omega) (by omega)
  have hm5 : (if mp < 10 then i64 (mp + 3) else i64 (mp - 9)) = .ok (d.month : ℤ) := by
    rw [hmonth]
    split <;> exact i64_ok (by omega) (by omega)
  have hlow1 : lowBits 32 d.day = d.day := lowBits_eq (by have := d.day_le.trans (monthLength_le _ _); omega)
  have hlow2 : lowBits 32 d.month = d.month := lowBits_eq (by have := d.month_le; omega)
  have hy1 : i64 (e * 400) = .ok (e * 400) := i64_ok (by omega) (by omega)
  have hy2 : i64 (yoe + e * 400) = .ok (e * 400 + yoe) := by
    rw [add_comm]
    exact i64_ok (by omega) (by omega)
  have hy3 : i64 (e * 400 + yoe + if d.month ≤ 2 then 1 else 0) = .ok d.year := by
    have hsame : (if d.month ≤ 2 then (1 : ℤ) else 0) = if mp < 10 then 0 else 1 := by
      split at hmonth <;> rename_i hearly
      · rw [if_pos hearly, if_neg (by omega)]
      · rw [if_neg hearly, if_pos (by omega)]
    rw [hsame, ← hyear]
    exact i64_ok (by rw [hyear]; split <;> omega) (by rw [hyear]; split <;> omega)
  unfold civilFromDays
  simp only [bind, Except.bind, hz, ← he, hera, hof, hq1, hq2, hq3, ht1, ht2, ht3, hq4, hq5, hq6, hb1,
    hb2, hb3, hd1, hd2, hd3, hq7, hm1, hm2, hq8, hm3, hm4, hm5, hlow1, hlow2, hy1, hy2, hy3]
  rfl

/-- For every number the arithmetic holds, the day's date reads back as the number and the next
number's date is the next day; and a date's number is the date's. -/
theorem civil_days :
    (∀ n : ℤ, -9223372036854775808 ≤ n → n + 719468 < 9223372036854775808 →
      ∃ d : Day, civilFromDays n = .ok (d.year, d.month, d.day) ∧
        daysFromCivil d.year d.month d.day = .ok n ∧
        (n + 1 + 719468 < 9223372036854775808 →
          civilFromDays (n + 1) = .ok (d.next.year, d.next.month, d.next.day))) ∧
    ∀ d : Day, -2147483648 ≤ d.year → d.year < 2147483648 →
      ∃ n, daysFromCivil d.year d.month d.day = .ok n ∧
        civilFromDays n = .ok (d.year, d.month, d.day) := by
  constructor
  · intro n hlo hhi
    obtain ⟨d, hnumber, hcivil⟩ := civilFromDays_eq hlo hhi
    refine ⟨d, hcivil, ?_, fun hnext => ?_⟩
    · rw [daysFromCivil_eq d (by omega) (by omega), hnumber]
      congr 1
      omega
    · obtain ⟨d', hnumber', hcivil'⟩ := civilFromDays_eq (n := n + 1) (by omega) hnext
      have hsame : d' = d.next := by
        apply Day.number_injective
        rw [d.number_next]
        omega
      rw [hcivil', hsame]
  · intro d hlo hhi
    have hin := d.number_year
    unfold yearStart at hin
    obtain ⟨d', hnumber, hcivil⟩ := civilFromDays_eq (n := d.number - 719528) (by omega) (by omega)
    have hsame : d' = d := by
      apply Day.number_injective
      omega
    exact ⟨_, daysFromCivil_eq d (by omega) (by omega), by rw [hcivil, hsame]⟩

/-- The day before the leap day of 2000, and that day. -/
theorem civil_days_leap :
    (∃ d : Day, civilFromDays 11015 = .ok (d.year, d.month, d.day) ∧
      daysFromCivil d.year d.month d.day = .ok 11015 ∧
      civilFromDays 11016 = .ok (d.next.year, d.next.month, d.next.day)) ∧
    ∃ n, daysFromCivil 2000 2 29 = .ok n ∧ civilFromDays n = .ok (2000, 2, 29) := by
  obtain ⟨d, hcivil, hdays, hnext⟩ := civil_days.1 11015 (by omega) (by omega)
  refine ⟨⟨d, hcivil, hdays, hnext (by omega)⟩, ?_⟩
  exact civil_days.2 ⟨2000, 2, 29, by omega, by omega, by omega, by decide⟩ (by decide) (by decide)

end Guatiao.Civil
