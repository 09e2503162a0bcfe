import Guatiao.Value.SpanRead

/-!
# The spans that can be made

Every way of making a span, reading one included, keeps what the type promises: the readers hand on
numbers an `i64` holds and nanoseconds below a second.
-/

namespace Guatiao.Civil

open Lib

variable {c c' : Cursor UInt8}

variable {n nanos turns : ℕ} {units units' : Part → ℕ} {at_ : Part}

theorem wholeFrom_le {start : Cursor UInt8} {whole pos : ℕ} {rest : List UInt8}
    (hwhole : whole ≤ i64Max) (h : wholeFrom start whole rest pos = .ok (n, c')) : n ≤ i64Max := by
  induction rest generalizing whole pos with
  | nil =>
    cases h
    exact hwhole
  | cons b rest ih =>
    rw [wholeFrom] at h
    split at h
    · split at h
      · rename_i w hw
        have hle := (Option.filter_eq_some_iff.mp hw).2
        exact ih (by simpa using hle) h
      · cases h
    · cases h
      exact hwhole

theorem fractionFrom_lt {count k pos : ℕ} {rest : List UInt8} (hcount : count ≤ 9)
    (hnanos : nanos < 10 ^ count) (h : fractionFrom count nanos rest pos = .ok ((k, n), c')) :
    k ≤ 9 ∧ n < 10 ^ k := by
  induction rest generalizing count nanos pos with
  | nil =>
    cases h
    exact ⟨hcount, hnanos⟩
  | cons b rest ih =>
    rw [fractionFrom] at h
    split at h
    · rename_i hb
      split at h
      · cases h
      · have hdigit := byteDigit_lt hb
        refine ih (by omega) ?_ h
        rw [pow_succ]
        omega
    · cases h
      exact ⟨hcount, hnanos⟩

theorem number_le {fraction : Bool} (h : number c = .ok ((n, nanos, fraction), c')) :
    n ≤ i64Max ∧ nanos < nanosPerSecond := by
  unfold number at h
  cases hwhole : wholeFrom c 0 c.rest c.pos with
  | error e =>
    rw [hwhole] at h
    cases h
  | ok p =>
    obtain ⟨whole, c₁⟩ := p
    have hle := wholeFrom_le (Nat.zero_le _) hwhole
    simp only [hwhole, bind, Except.bind] at h
    split at h
    · cases h
    · split at h
      · cases h
        exact ⟨hle, by decide⟩
      · cases hfraction : fractionFrom 0 0 (skip c₁ 1).rest (skip c₁ 1).pos with
        | error e =>
          rw [hfraction] at h
          cases h
        | ok q =>
          obtain ⟨⟨k, m⟩, c₂⟩ := q
          obtain ⟨hk, hm⟩ := fractionFrom_lt (by omega) (by decide) hfraction
          simp only [hfraction] at h
          split at h
          · cases h
          · cases h
            refine ⟨hle, ?_⟩
            calc m * 10 ^ (9 - k) < 10 ^ k * 10 ^ (9 - k) :=
                  Nat.mul_lt_mul_of_pos_right hm (Nat.pow_pos (by omega))
              _ = nanosPerSecond := by
                  rw [← pow_add, show k + (9 - k) = 9 by omega]
                  rfl

/-- Magnitudes that make a kept span. -/
def Fits (units : Part → ℕ) : Prop := (∀ p, units p ≤ i64Max) ∧ units .nanos < nanosPerSecond

theorem Fits.update (h : Fits units) (hn : n ≤ i64Max)
    (hnanos : at_ = .nanos → n < nanosPerSecond) : Fits (Function.update units at_ n) := by
  constructor
  · intro p
    by_cases hp : p = at_
    · rw [hp, Function.update_self]
      exact hn
    · rw [Function.update_of_ne hp]
      exact h.1 p
  · by_cases hp : at_ = .nanos
    · rw [hp, Function.update_self]
      exact hnanos hp
    · rw [Function.update_of_ne (Ne.symm hp)]
      exact h.2

theorem dateUnit_ne_nanos {b : Option UInt8} (h : dateUnit b = some at_) :
    at_ ≠ .nanos := by
  rintro rfl
  unfold dateUnit at h
  split_ifs at h <;> cases h

theorem timeUnit_ne_nanos {b : Option UInt8} (h : timeUnit b = some at_) :
    at_ ≠ .nanos := by
  rintro rfl
  unfold timeUnit at h
  split_ifs at h <;> cases h

theorem isoDate_fits {next : ℕ} {any any' : Bool} (hfits : Fits units)
    (h : isoDate turns next units any c = .ok ((units', any'), c')) : Fits units' := by
  induction turns generalizing next units any c with
  | zero =>
    cases h
    exact hfits
  | succ turns ih =>
    rw [isoDate] at h
    split at h
    · cases hnumber : number c with
      | error e =>
        rw [hnumber] at h
        cases h
      | ok p =>
        obtain ⟨⟨n, nanos, fraction⟩, c₁⟩ := p
        simp only [hnumber, bind, Except.bind] at h
        split at h
        · cases h
        · split at h
          · cases h
          · rename_i at_ hunit
            split at h
            · cases h
            · refine ih (hfits.update (number_le hnumber).1 fun heq => ?_) h
              exact absurd heq (dateUnit_ne_nanos hunit)
    · cases h
      exact hfits

theorem isoTime_fits {next : ℕ} {timed timed' : Bool}
    (hfits : Fits units) (h : isoTime turns next units timed c = .ok ((units', timed'), c')) :
    Fits units' := by
  induction turns generalizing next units timed c with
  | zero =>
    cases h
    exact hfits
  | succ turns ih =>
    rw [isoTime] at h
    split at h
    · cases hnumber : number c with
      | error e =>
        rw [hnumber] at h
        cases h
      | ok p =>
        obtain ⟨⟨n, nanos, fraction⟩, c₁⟩ := p
        obtain ⟨hn, hnanos⟩ := number_le hnumber
        simp only [hnumber, bind, Except.bind] at h
        split at h
        · cases h
        · rename_i at_ hunit
          split at h
          · cases h
          · split at h
            · cases h
            · have hset : Fits (Function.update units at_ n) :=
                hfits.update hn fun heq => absurd heq (timeUnit_ne_nanos hunit)
              refine ih ?_ h
              split
              · exact hset.update (hnanos.le.trans (by decide)) fun _ => hnanos
              · exact hset
    · cases h
      exact hfits

theorem iso_fits (h : iso c = .ok units) : Fits units := by
  unfold iso at h
  cases hdate : isoDate c.rest.length 0 (fun _ => 0) false c with
  | error e =>
    rw [hdate] at h
    cases h
  | ok p =>
    obtain ⟨⟨units₁, any₁⟩, c₁⟩ := p
    have hfits := isoDate_fits ⟨fun _ => Nat.zero_le _, by decide⟩ hdate
    simp only [hdate, bind, Except.bind] at h
    split at h
    · cases h
    · rename_i q hq
      have hfits' : Fits q.1.1 := by
        split at hq
        · cases htime : isoTime (skip c₁ 1).rest.length Part.hours.at_ units₁ false (skip c₁ 1) with
          | error e =>
            rw [htime] at hq
            cases hq
          | ok r =>
            obtain ⟨⟨units₂, timed⟩, c₂⟩ := r
            simp only [htime] at hq
            split at hq
            · cases hq
            · cases hq
              exact isoTime_fits hfits htime
        · cases hq
          exact hfits
      split at h
      · cases h
      · split at h
        · cases h
        · cases h
          exact hfits'

/-- Every whole unit but the seconds fits an `i64`. -/
def WholeFits (units : Part → ℕ) : Prop := ∀ p, p ≠ .seconds → p ≠ .nanos → units p ≤ i64Max

theorem place_fits {slot nanosPer : ℕ} (hfits : WholeFits units)
    (hn : n ≤ i64Max) (h : place units slot nanosPer n nanos = some units') : WholeFits units' := by
  have hset : WholeFits (Function.update units (slotPart slot) n) := by
    intro p hs hnanos
    by_cases hp : p = slotPart slot
    · rw [hp, Function.update_self]
      exact hn
    · rw [Function.update_of_ne hp]
      exact hfits p hs hnanos
  intro p hs hnanos
  unfold place at h
  split at h
  · cases h
    split
    · rw [Function.update_of_ne hnanos]
      exact hset p hs hnanos
    · exact hset p hs hnanos
  · obtain ⟨total, -, rfl⟩ := Option.map_eq_some_iff.mp h
    dsimp only
    rw [Function.update_of_ne hs, Function.update_of_ne hnanos]
    exact hfits p hs hnanos

theorem friendlyFrom_fits {seen : ℕ → Bool}
    (hfits : WholeFits units) (h : friendlyFrom turns units seen c = .ok units') :
    WholeFits units' := by
  induction turns generalizing units seen c with
  | zero =>
    cases h
    exact hfits
  | succ turns ih =>
    rw [friendlyFrom] at h
    split at h
    · cases hnumber : number c with
      | error e =>
        rw [hnumber] at h
        cases h
      | ok p =>
        obtain ⟨⟨n, nanos, fraction⟩, c₁⟩ := p
        simp only [hnumber, bind, Except.bind] at h
        split at h
        · cases h
        · split at h
          · cases h
          · split at h
            · cases h
            · split at h
              · cases h
              · rename_i units₁ hplace
                exact ih (place_fits hfits (number_le hnumber).1 hplace) h
    · cases h
      exact hfits

theorem friendly_fits (h : friendly c = .ok units) : Fits units := by
  unfold friendly at h
  dsimp only at h
  split at h
  · cases h
  · cases hread : friendlyFrom (skipSpaces c).rest.length (fun _ => 0) (fun _ => false)
        (skipSpaces c) with
    | error e =>
      rw [hread] at h
      cases h
    | ok units₁ =>
      have hfits := friendlyFrom_fits (fun _ _ _ => Nat.zero_le _) hread
      simp only [hread, bind, Except.bind] at h
      split at h
      · cases h
      · rename_i hmax
        cases h
        have hlt : units₁ .nanos % nanosPerSecond < nanosPerSecond := Nat.mod_lt _ (by decide)
        have hseconds : ∀ n, Function.update (Function.update units₁ .seconds
            (units₁ .seconds + units₁ .nanos / nanosPerSecond)) .nanos n .seconds ≤ i64Max :=
          fun _ => Nat.not_lt.mp hmax
        constructor
        · intro p
          by_cases hp : p = .nanos
          · rw [hp, Function.update_self]
            exact (Nat.mod_lt _ (by decide)).le.trans (by decide)
          · by_cases hs : p = .seconds
            · rw [hs]
              exact hseconds _
            · rw [Function.update_of_ne hp, Function.update_of_ne hs]
              exact hfits p hs hp
        · exact hlt

namespace Span

theorem kept_of_parse {text : List UInt8} {s : Span} (h : parse text = .ok s) : s.Kept := by
  unfold parse at h
  simp only [bind, Except.bind] at h
  split at h
  · cases h
  · rename_i units hread
    cases h
    have hfits : Fits units := by
      split at hread
      · exact iso_fits hread
      · exact friendly_fits hread
    exact kept_normalised hfits.1 hfits.2

/-- The spans that can be made: through the builders, from a duration, or from a text. -/
inductive Made : Span → Prop
  | new : Made new
  | with_ {s : Span} (at_ : Part) (hat : at_ ≠ .nanos) (n : ℤ) : Made s → Made (s.with_ at_ n)
  | nanoseconds {s : Span} (n : ℤ) : Made s → Made (s.nanoseconds n)
  | abs {s : Span} : Made s → Made s.abs
  | negate {s : Span} : Made s → Made s.negate
  | ofDuration (d : Duration) : Made (ofDuration d)
  | parse {text : List UInt8} {s : Span} : parse text = .ok s → Made s

theorem Made.kept {s : Span} (h : Made s) : s.Kept := by
  induction h with
  | new => exact kept_new
  | with_ at_ hat n _ ih => exact ih.with_ hat n
  | nanoseconds n _ ih => exact ih.nanoseconds n
  | abs _ ih => exact ih.abs
  | negate _ ih => exact ih.negate
  | ofDuration d => exact kept_ofDuration d
  | parse hread => exact kept_of_parse hread

end Span

/-- Every span's text reads back as the span, and every duration is its span's duration. -/
theorem spans_round_trip :
    (∀ s : Span, s.Made → Span.parse s.display = .ok s) ∧
      ∀ d : Duration, (Span.ofDuration d).toDuration = some d :=
  ⟨fun _ h => Span.parse_display h.kept, toDuration_ofDuration⟩

/-- One and a half hours, run backwards. -/
theorem spans_round_trip_backwards :
    Span.parse (((Span.new.with_ .hours 1).with_ .minutes 30).negate.display) =
      .ok ((Span.new.with_ .hours 1).with_ .minutes 30).negate :=
  spans_round_trip.1 _ (((Span.Made.new.with_ .hours (by decide) 1).with_ .minutes (by decide) 30).negate)

end Guatiao.Civil
