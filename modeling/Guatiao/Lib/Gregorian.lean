import Mathlib.Algebra.BigOperators.Intervals
import Mathlib.Tactic.IntervalCases

/-!
# The Gregorian calendar

Months have their lengths and every fourth year a day more, save the centuries that four hundred
does not divide. Days are numbered in the calendar's order, and the era arithmetic that turns a
number into a date is correct for every integer.
-/

namespace Guatiao.Lib.Gregorian

/-- A year with a twenty-ninth of February. -/
def Leap (y : ℤ) : Prop := 4 ∣ y ∧ (¬ 100 ∣ y ∨ 400 ∣ y)

instance : DecidablePred Leap := fun _ => inferInstanceAs (Decidable (_ ∧ _))

/-- How many days a month has. -/
def monthLength (y : ℤ) (m : ℕ) : ℕ :=
  match m with
  | 2 => if Leap y then 29 else 28
  | 4 | 6 | 9 | 11 => 30
  | _ => 31

/-- A day on the calendar. -/
@[ext] structure Day where
  year : ℤ
  month : ℕ
  day : ℕ
  month_pos : 1 ≤ month
  month_le : month ≤ 12
  day_pos : 1 ≤ day
  day_le : day ≤ monthLength year month

theorem monthLength_pos (y : ℤ) (m : ℕ) : 28 ≤ monthLength y m := by
  unfold monthLength
  split
  · split <;> omega
  all_goals omega

theorem monthLength_le (y : ℤ) (m : ℕ) : monthLength y m ≤ 31 := by
  unfold monthLength
  split
  · split <;> omega
  all_goals omega

namespace Day

/-- The first day of a month. -/
def first (y : ℤ) (m : ℕ) (h1 : 1 ≤ m) (h12 : m ≤ 12) : Day :=
  ⟨y, m, 1, h1, h12, le_refl 1, (by omega : 1 ≤ 28).trans (monthLength_pos y m)⟩

/-- The day after. -/
def next (d : Day) : Day :=
  if hday : d.day < monthLength d.year d.month then
    { d with day := d.day + 1, day_pos := by omega, day_le := hday }
  else if hmonth : d.month < 12 then first d.year (d.month + 1) (by omega) hmonth
  else first (d.year + 1) 1 (le_refl 1) (by omega)

/-- The day so many months later, the day of the month kept inside the month. -/
def addMonths (d : Day) (k : ℤ) : Day :=
  let ym := d.year * 12 + (d.month - 1) + k
  have hmonth : 0 ≤ ym % 12 ∧ ym % 12 < 12 := by omega
  ⟨ym / 12, (ym % 12).toNat + 1, min d.day (monthLength (ym / 12) ((ym % 12).toNat + 1)), by omega,
    by omega, le_min d.day_pos ((by omega : 1 ≤ 28).trans (monthLength_pos _ _)), min_le_right _ _⟩

end Day

/-- How many days come before a year, counted from the year zero. -/
def yearStart (y : ℤ) : ℤ := 365 * y + (y + 3) / 4 - (y + 99) / 100 + (y + 399) / 400

/-- How many days of a year come before a month. -/
def monthStart (y : ℤ) (m : ℕ) : ℕ := ∑ k ∈ Finset.Ico 1 m, monthLength y k

/-- A day's number: how many days come before it, from the first day of the year zero. -/
def Day.number (d : Day) : ℤ := yearStart d.year + monthStart d.year d.month + (d.day - 1)

theorem monthStart_succ (y : ℤ) {m : ℕ} (h : 1 ≤ m) :
    monthStart y (m + 1) = monthStart y m + monthLength y m :=
  Finset.sum_Ico_succ_top h _

theorem monthStart_one (y : ℤ) : monthStart y 1 = 0 := rfl

theorem monthStart_mono (y : ℤ) {m n : ℕ} (h1 : 1 ≤ m) (h : m ≤ n) :
    monthStart y m ≤ monthStart y n := by
  induction h with
  | refl => exact le_refl _
  | @step n hle ih =>
    rw [Nat.succ_eq_add_one, monthStart_succ y (h1.trans hle)]
    omega

theorem monthStart_eq (y : ℤ) {m : ℕ} (h1 : 1 ≤ m) (h12 : m ≤ 13) :
    monthStart y m = if m ≤ 2 then 31 * (m - 1)
      else (153 * (m - 3) + 2) / 5 + 59 + if Leap y then 1 else 0 := by
  by_cases hleap : Leap y
  all_goals interval_cases m <;> simp [monthStart, Finset.sum_Ico_succ_top, monthLength, hleap]

/-- How many days come before the first of March of a year, counted from that of the year zero. -/
def marchStart (y : ℤ) : ℤ := 365 * y + y / 4 - y / 100 + y / 400

theorem yearStart_eq (y : ℤ) : yearStart y = marchStart y + 1 - if Leap y then 1 else 0 := by
  have h4 : (y + 3) / 4 = y / 4 + if 4 ∣ y then 0 else 1 := by
    split <;> omega
  have h100 : (y + 99) / 100 = y / 100 + if 100 ∣ y then 0 else 1 := by
    split <;> omega
  have h400 : (y + 399) / 400 = y / 400 + if 400 ∣ y then 0 else 1 := by
    split <;> omega
  unfold yearStart marchStart Leap
  rw [h4, h100, h400]
  by_cases hfour : 4 ∣ y
  · by_cases hcentury : 100 ∣ y
    · by_cases hera : 400 ∣ y
      · simp [hfour, hcentury, hera]
      · simp [hfour, hcentury, hera]
        omega
    · have hera : ¬ 400 ∣ y := by omega
      simp [hfour, hcentury, hera]
      omega
  · have hcentury : ¬ 100 ∣ y := by omega
    have hera : ¬ 400 ∣ y := by omega
    simp [hfour, hcentury, hera]
    omega

theorem yearStart_succ (y : ℤ) : yearStart (y + 1) = yearStart y + monthStart y 13 := by
  have hmarch : yearStart (y + 1) = marchStart y + 366 := by
    unfold yearStart marchStart
    omega
  rw [hmarch, yearStart_eq, monthStart_eq y (by omega) (le_refl 13),
    if_neg (show ¬ 13 ≤ 2 by omega)]
  split <;> omega

theorem yearStart_mono {x y : ℤ} (h : x ≤ y) : yearStart x ≤ yearStart y := by
  unfold yearStart
  omega

namespace Day

theorem number_next (d : Day) : d.next.number = d.number + 1 := by
  have hday := d.day_le
  unfold next
  split_ifs with hshort hearly
  · simp only [number]
    omega
  · have hmonth := monthStart_succ d.year d.month_pos
    simp only [number, first, hmonth]
    omega
  · have hmonth : d.month + 1 = 13 := by
      have := d.month_le
      omega
    have hlength := monthStart_succ d.year d.month_pos
    rw [hmonth] at hlength
    simp only [number, first, monthStart_one, yearStart_succ, hlength]
    omega

theorem number_year (d : Day) :
    yearStart d.year ≤ d.number ∧ d.number < yearStart (d.year + 1) := by
  have hpos := d.day_pos
  have hle := d.day_le
  have hmonth := monthStart_succ d.year d.month_pos
  have hyear := yearStart_succ d.year
  have hmono := monthStart_mono d.year (m := d.month + 1) (n := 13) (by omega)
    (by have := d.month_le; omega)
  unfold number
  omega

theorem number_month (d : Day) :
    yearStart d.year + monthStart d.year d.month ≤ d.number ∧
      d.number < yearStart d.year + monthStart d.year (d.month + 1) := by
  have hpos := d.day_pos
  have hle := d.day_le
  have hmonth := monthStart_succ d.year d.month_pos
  unfold number
  omega

theorem number_injective : Function.Injective number := by
  intro a b h
  have hyear : a.year = b.year := by
    have ha := a.number_year
    have hb := b.number_year
    by_contra hne
    rcases lt_or_gt_of_ne hne with hlt | hgt
    · have := yearStart_mono (x := a.year + 1) (y := b.year) (by omega)
      omega
    · have := yearStart_mono (x := b.year + 1) (y := a.year) (by omega)
      omega
  have hmonth : a.month = b.month := by
    have ha := a.number_month
    have hb := b.number_month
    rw [← hyear] at hb
    by_contra hne
    rcases lt_or_gt_of_ne hne with hlt | hgt
    · have := monthStart_mono a.year (m := a.month + 1) (n := b.month) (by omega) hlt
      omega
    · have := monthStart_mono a.year (m := b.month + 1) (n := a.month) (by omega) hgt
      omega
  refine Day.ext hyear hmonth ?_
  unfold number at h
  rw [hyear, hmonth] at h
  omega

end Day

/-! ## Years that begin in March

With the leap day at its end, a year's months have one pattern, and four hundred years have one
length. -/

theorem marchStart_succ (y : ℤ) :
    marchStart (y + 1) = marchStart y + 365 + if Leap (y + 1) then 1 else 0 := by
  have hstart : yearStart (y + 1) = marchStart y + 366 := by
    unfold yearStart marchStart
    omega
  have heq := yearStart_eq (y + 1)
  omega

namespace Day

theorem number_march (d : Day) :
    d.number = if d.month ≤ 2 then marchStart (d.year - 1) + (153 * (d.month + 9) + 2) / 5 + d.day + 59
      else marchStart d.year + (153 * (d.month - 3) + 2) / 5 + d.day + 59 := by
  have hpos := d.month_pos
  have hle := d.month_le
  have hday := d.day_pos
  unfold number
  rw [monthStart_eq d.year hpos (by omega)]
  split
  · have hstart : yearStart d.year = marchStart (d.year - 1) + 366 := by
      unfold yearStart marchStart
      omega
    omega
  · rw [yearStart_eq]
    split <;> omega

/-- The day so many days into the year that begins in March of `y`: its months follow one pattern. -/
theorem exists_march {y doy : ℤ} (h0 : 0 ≤ doy) (h1 : marchStart y + doy < marchStart (y + 1)) :
    let mp := (5 * doy + 2) / 153
    ∃ d : Day, d.number = marchStart y + doy + 60 ∧ d.day = doy - (153 * mp + 2) / 5 + 1 ∧
      d.month = (if mp < 10 then mp + 3 else mp - 9) ∧ d.year = y + if mp < 10 then 0 else 1 := by
  intro mp
  obtain ⟨month, hmonth⟩ : ∃ month : ℕ, (month : ℤ) = if mp < 10 then mp + 3 else mp - 9 := by
    refine ⟨(if mp < 10 then mp + 3 else mp - 9).toNat, Int.toNat_of_nonneg ?_⟩
    split <;> omega
  obtain ⟨day, hday⟩ : ∃ day : ℕ, (day : ℤ) = doy - (153 * mp + 2) / 5 + 1 :=
    ⟨_, Int.toNat_of_nonneg (by omega)⟩
  obtain ⟨year, hyear⟩ : ∃ year, year = y + if mp < 10 then 0 else 1 := ⟨_, rfl⟩
  have hsucc := marchStart_succ y
  have hle : doy ≤ 365 := by
    split at hsucc <;> omega
  have hbounds : 1 ≤ month ∧ month ≤ 12 := by
    split at hmonth <;> omega
  have hlen : day ≤ monthLength year month := by
    obtain ⟨hpos, htwelve⟩ := hbounds
    by_cases hfeb : month = 2
    · rw [hfeb] at hmonth ⊢
      have hmp : mp = 11 := by
        split at hmonth <;> omega
      rw [if_neg (by omega)] at hyear
      subst hyear
      unfold monthLength
      split at hsucc <;> rename_i hleap <;> simp only [hleap, if_true, if_false] <;> omega
    · have hmp : mp = month - 3 ∨ month = 1 ∧ mp = 10 := by
        split at hmonth <;> omega
      clear hmonth hsucc
      interval_cases month <;> simp only [monthLength] <;> omega
  refine ⟨⟨year, month, day, hbounds.1, hbounds.2, by omega, hlen⟩, ?_, hday, hmonth, hyear⟩
  · rw [number_march]
    dsimp only
    split at hmonth <;> rename_i hearly
    · rw [if_neg (by omega), hyear, if_pos hearly, add_zero]
      omega
    · rw [if_pos (by omega), hyear, if_neg hearly]
      rw [show y + 1 - 1 = y by omega]
      omega

end Day

theorem marchStart_era (e yoe : ℤ) : marchStart (e * 400 + yoe) = e * 146097 + marchStart yoe := by
  unfold marchStart
  omega

/-- A day of an era, in its century, its four years and its year, is divided back into the year. -/
theorem div_year {doe a b c w : ℤ} (hdoe : doe = 36524 * a + 1461 * b + 365 * c + w)
    (ha : 0 ≤ a ∧ a ≤ 3) (hb : 0 ≤ b ∧ b ≤ 24) (hc : 0 ≤ c ∧ c ≤ 3) (hw : 0 ≤ w ∧ w ≤ 365)
    (hleap : w = 365 → c = 3 ∧ (b < 24 ∨ a = 3)) :
    (doe - doe / 1460 + doe / 36524 - doe / 146096) / 365 = 100 * a + 4 * b + c := by
  have h1460 : doe / 1460 = 25 * a + b ∨ (w ≠ 0 ∧ doe / 1460 = 25 * a + b + 1) := by omega
  have hlast : w = 365 → doe / 1460 = 25 * a + b + 1 := by omega
  have h36524 : doe / 36524 = a + doe / 146096 := by
    have hcentury : doe < 36524 * a + 36524 ∨ (a = 3 ∧ doe = 146096) := by omega
    rcases hcentury with hlt | ⟨rfl, rfl⟩
    · rw [Int.ediv_eq_zero_of_lt (a := doe) (b := 146096) (by omega) (by omega)]
      omega
    · rfl
  omega

theorem year_of_era {doe : ℤ} (h0 : 0 ≤ doe) (h1 : doe < 146097) :
    let yoe := (doe - doe / 1460 + doe / 36524 - doe / 146096) / 365
    0 ≤ yoe ∧ yoe < 400 ∧ marchStart yoe ≤ doe ∧ doe < marchStart (yoe + 1) := by
  obtain ⟨a, ha⟩ : ∃ a, a = min (doe / 36524) 3 := ⟨_, rfl⟩
  obtain ⟨b, hb⟩ : ∃ b, b = (doe - 36524 * a) / 1461 := ⟨_, rfl⟩
  obtain ⟨c, hc⟩ : ∃ c, c = min ((doe - 36524 * a - 1461 * b) / 365) 3 := ⟨_, rfl⟩
  obtain ⟨w, hdoe⟩ : ∃ w, doe = 36524 * a + 1461 * b + 365 * c + w := ⟨_, (add_sub_cancel _ _).symm⟩
  have ha' : 0 ≤ a ∧ a ≤ 3 := by omega
  have hb' : 0 ≤ b ∧ b ≤ 24 := by omega
  have hc' : 0 ≤ c ∧ c ≤ 3 := by omega
  have hw' : 0 ≤ w ∧ w ≤ 365 := by omega
  have hleap : w = 365 → c = 3 ∧ (b < 24 ∨ a = 3) := by omega
  clear ha hb hc
  rw [div_year hdoe ha' hb' hc' hw' hleap]
  unfold marchStart
  have hcentury : (100 * a + 4 * b + c) / 100 = a := by omega
  have hfour : (100 * a + 4 * b + c) / 4 = 25 * a + b := by omega
  have hera : (100 * a + 4 * b + c) / 400 = 0 := by omega
  refine ⟨by omega, by omega, by rw [hcentury, hfour, hera]; omega, ?_⟩
  have hfour' : (100 * a + 4 * b + c + 1) / 4 = 25 * a + b + (c + 1) / 4 := by omega
  rw [hfour']
  rcases (by omega : c ≤ 2 ∨ b < 24 ∧ c = 3 ∨ b = 24 ∧ c = 3) with hc | ⟨hb, rfl⟩ | ⟨rfl, rfl⟩
  · rw [show (100 * a + 4 * b + c + 1) / 100 = a by omega]
    omega
  · rw [show (100 * a + 4 * b + 3 + 1) / 100 = a by omega]
    omega
  · rw [show (100 * a + 4 * 24 + 3 + 1) / 100 = a + 1 by omega]
    omega

end Guatiao.Lib.Gregorian
