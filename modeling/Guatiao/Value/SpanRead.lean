import Guatiao.Value.Span

/-!
# A span's text reads back

A number is read to the end of its digits, and every unit a span displays is read into its place.
-/

namespace Guatiao.Civil

open Lib

variable {ds fs tail : List UInt8} {c : Cursor UInt8}

theorem wholeFrom_digits (start : Cursor UInt8) (hds : ∀ b ∈ ds, asciiDigit b = true)
    (htail : NoDigit tail) (whole : ℕ) (hmax : whole * 10 ^ ds.length + valueOf ds ≤ i64Max)
    (pos : ℕ) : wholeFrom start whole (ds ++ tail) pos =
      .ok (whole * 10 ^ ds.length + valueOf ds, ⟨tail, pos + ds.length⟩) := by
  induction ds generalizing whole pos with
  | nil =>
    rw [List.nil_append, List.length_nil, pow_zero, Nat.mul_one, show valueOf [] = 0 from rfl]
    cases tail with
    | nil => rfl
    | cons b tail =>
      rw [wholeFrom, htail b rfl]
      rfl
  | cons b ds ih =>
    have hb := hds b List.mem_cons_self
    have hrest := ih (fun b hb => hds b (List.mem_cons_of_mem _ hb)) (whole * 10 + byteDigit b)
    rw [valueOf_cons, List.length_cons, pow_succ] at hmax
    have hsum : whole * (10 ^ ds.length * 10) + (byteDigit b * 10 ^ ds.length + valueOf ds) =
        (whole * 10 + byteDigit b) * 10 ^ ds.length + valueOf ds := by ring
    have hle : whole * 10 + byteDigit b ≤ i64Max := by
      have hpow : 1 ≤ 10 ^ ds.length := Nat.one_le_pow _ _ (by omega)
      have := Nat.le_mul_of_pos_right (whole * 10 + byteDigit b) hpow
      omega
    have hmax64 : i64Max < 2 ^ 64 := by decide
    rw [List.cons_append, wholeFrom, hb, if_pos rfl, fitsU64_eq (by omega), Option.bind_some,
      fitsU64_eq (by omega), Option.filter_some_pos (by simpa using hle)]
    rw [hsum] at hmax
    dsimp only
    rw [hrest hmax, valueOf_cons, List.length_cons, pow_succ, hsum]
    congr 3
    omega

theorem fractionFrom_digits (hfs : ∀ b ∈ fs, asciiDigit b = true) (htail : NoDigit tail)
    (count : ℕ) (hcount : count + fs.length ≤ 9) (nanos pos : ℕ) :
    fractionFrom count nanos (fs ++ tail) pos =
      .ok ((count + fs.length, nanos * 10 ^ fs.length + valueOf fs), ⟨tail, pos + fs.length⟩) := by
  induction fs generalizing count nanos pos with
  | nil =>
    rw [List.nil_append, List.length_nil, pow_zero, Nat.mul_one, show valueOf [] = 0 from rfl]
    cases tail with
    | nil => rfl
    | cons b tail =>
      rw [fractionFrom, htail b rfl]
      rfl
  | cons b fs ih =>
    have hb := hfs b List.mem_cons_self
    rw [List.length_cons] at hcount
    have hrest := ih (fun b hb => hfs b (List.mem_cons_of_mem _ hb)) (count + 1) (by omega)
    rw [List.cons_append, fractionFrom, hb, if_pos rfl, if_neg (by omega), hrest, valueOf_cons,
      List.length_cons, pow_succ]
    congr 2
    · congr 1
      · omega
      · ring
    · congr 1
      omega

theorem number_whole (hne : ds ≠ []) (hds : ∀ b ∈ ds, asciiDigit b = true) (hmax : valueOf ds ≤ i64Max)
    (htail : NoDigit tail) (hpoint : tail.head? ≠ some (ascii '.')) (hc : c.rest = ds ++ tail) :
    number c = .ok ((valueOf ds, 0, false), ⟨tail, c.pos + ds.length⟩) := by
  have hwhole := wholeFrom_digits c hds htail 0 (by simpa using hmax) c.pos
  have hpos := List.length_pos_iff.mpr hne
  rw [Nat.zero_mul, Nat.zero_add] at hwhole
  simp only [number, hc, hwhole, bind, Except.bind]
  rw [if_neg (by omega), if_pos (by simpa using hpoint)]
  rfl

theorem number_fraction (hne : ds ≠ []) (hds : ∀ b ∈ ds, asciiDigit b = true)
    (hmax : valueOf ds ≤ i64Max) (hfne : fs ≠ []) (hfs : ∀ b ∈ fs, asciiDigit b = true)
    (hlen : fs.length ≤ 9) (htail : NoDigit tail) (hc : c.rest = ds ++ ascii '.' :: (fs ++ tail)) :
    ∃ pos, number c = .ok ((valueOf ds, valueOf fs * 10 ^ (9 - fs.length), true), ⟨tail, pos⟩) := by
  have hwhole := wholeFrom_digits c hds (noDigit_cons (b := ascii '.') rfl (fs ++ tail))
    0 (by simpa using hmax) c.pos
  have hpos := List.length_pos_iff.mpr hne
  have hfpos := List.length_pos_iff.mpr hfne
  have hfraction := fractionFrom_digits hfs htail 0 (by omega) 0 (c.pos + ds.length + 1)
  rw [Nat.zero_mul, Nat.zero_add] at hwhole hfraction
  rw [Nat.zero_add] at hfraction
  refine ⟨c.pos + ds.length + 1 + fs.length, ?_⟩
  simp only [number, hc, hwhole, bind, Except.bind]
  rw [if_neg (by omega), if_neg (by simp)]
  simp only [skip, List.drop_succ_cons, List.drop_zero, hfraction]
  rw [if_neg (by omega)]
  rfl

/-- Designators of one part of a duration, in order: each is a letter read as its own unit. -/
structure Designators (unit : Option UInt8 → Option Part) (next bound : ℕ)
    (ps : List (Part × UInt8)) : Prop where
  read : ∀ p ∈ ps, unit (some (upper p.2)) = some p.1
  letter : ∀ p ∈ ps, asciiDigit p.2 = false ∧ p.2 ≠ ascii '.'
  sorted : ps.Pairwise fun p q => p.1.at_ < q.1.at_
  later : ∀ p ∈ ps, next ≤ p.1.at_ ∧ p.1.at_ < bound

variable {next bound n : ℕ} {p : Part × UInt8} {ps : List (Part × UInt8)} {u units units' : Part → ℕ}

theorem Designators.rest {unit : Option UInt8 → Option Part} (h : Designators unit next bound (p :: ps)) :
    Designators unit (p.1.at_ + 1) bound ps where
  read q hq := h.read q (List.mem_cons_of_mem _ hq)
  letter q hq := h.letter q (List.mem_cons_of_mem _ hq)
  sorted := (List.pairwise_cons.mp h.sorted).2
  later q hq := ⟨(List.pairwise_cons.mp h.sorted).1 q hq, (h.later q (List.mem_cons_of_mem _ hq)).2⟩

theorem Designators.mono {unit : Option UInt8 → Option Part} {next' : ℕ}
    (h : Designators unit next bound ps) (hle : next' ≤ next) :
    Designators unit next' bound ps :=
  { h with later := fun q hq => ⟨hle.trans (h.later q hq).1, (h.later q hq).2⟩ }

theorem number_unit {d : UInt8} (hn : n ≤ i64Max)
    (hd : asciiDigit d = false ∧ d ≠ ascii '.') (rest : List UInt8) (pos : ℕ) :
    ∃ pos', number ⟨decimal n ++ d :: rest, pos⟩ = .ok ((n, 0, false), ⟨d :: rest, pos'⟩) := by
  have hread := number_whole (c := ⟨decimal n ++ d :: rest, pos⟩) (decimal_ne_nil n) (all_decimal n)
    (by rwa [valueOf_decimal]) (noDigit_cons hd.1 rest)
    (fun hpoint => hd.2 (Option.some.inj hpoint)) rfl
  rw [valueOf_decimal] at hread
  exact ⟨_, hread⟩

theorem head_decimal (n : ℕ) (rest : List UInt8) :
    (decimal n ++ rest).head?.any asciiDigit = true := by
  cases hdigits : decimal n with
  | nil => exact absurd hdigits (decimal_ne_nil n)
  | cons b bs => exact all_decimal n b (by rw [hdigits]; exact List.mem_cons_self)

theorem isoDate_unit
    (hps : Designators dateUnit next bound (p :: ps)) (hn : n ≤ i64Max) (turns : ℕ) (units : Part → ℕ)
    (any : Bool) (rest : List UInt8) (pos : ℕ) :
    ∃ pos', isoDate (turns + 1) next units any ⟨decimal n ++ p.2 :: rest, pos⟩ =
      isoDate turns (p.1.at_ + 1) (Function.update units p.1 n) true ⟨rest, pos'⟩ := by
  obtain ⟨pos', hnumber⟩ := number_unit hn (hps.letter p List.mem_cons_self) rest pos
  refine ⟨pos' + 1, ?_⟩
  have hunit := hps.read p List.mem_cons_self
  have hlater := (hps.later p List.mem_cons_self).1
  simp only [isoDate, head_decimal, if_true, hnumber, bind, Except.bind, Bool.false_eq_true, if_false,
    List.head?_cons, Option.map_some, hunit, Nat.not_lt.mpr hlater, skip, List.drop_succ_cons,
    List.drop_zero]

theorem isoTime_unit (hps : Designators timeUnit next bound (p :: ps)) (hbound : bound ≤ Part.seconds.at_)
    (hn : n ≤ i64Max) (turns : ℕ) (units : Part → ℕ) (timed : Bool) (rest : List UInt8) (pos : ℕ) :
    ∃ pos', isoTime (turns + 1) next units timed ⟨decimal n ++ p.2 :: rest, pos⟩ =
      isoTime turns (p.1.at_ + 1) (Function.update units p.1 n) true ⟨rest, pos'⟩ := by
  obtain ⟨pos', hnumber⟩ := number_unit hn (hps.letter p List.mem_cons_self) rest pos
  refine ⟨pos' + 1, ?_⟩
  have hunit := hps.read p List.mem_cons_self
  obtain ⟨hlater, hlt⟩ := hps.later p List.mem_cons_self
  have hne : decimal n ++ p.2 :: rest ≠ [] := by simp
  have hseconds : p.1 ≠ .seconds := by
    intro heq
    rw [heq] at hlt
    exact absurd hbound (Nat.not_le.mpr hlt)
  simp only [isoTime, hne, ne_eq, not_false_eq_true, if_true, hnumber, bind, Except.bind,
    List.head?_cons, Option.map_some, hunit, Nat.not_lt.mpr hlater, Bool.false_and, Bool.false_eq_true,
    if_false, hseconds, skip, List.drop_succ_cons, List.drop_zero]

/-- What some units of a span leave when they are read into others. -/
def Filled (u units : Part → ℕ) (ps : List (Part × UInt8)) (units' : Part → ℕ) : Prop :=
  ∀ p, units' p = if p ∈ ps.map Prod.fst ∧ u p ≠ 0 then u p else units p

theorem Filled.nil : Filled u units [] units := by
  intro p
  rw [if_neg fun h => absurd h.1 List.not_mem_nil]

theorem Filled.cons_zero
    (h : Filled u units ps units') (hzero : u p.1 = 0) : Filled u units (p :: ps) units' := by
  intro q
  rw [h q]
  by_cases hq : q = p.1
  · rw [hq, if_neg fun hand => hand.2 hzero, if_neg fun hand => hand.2 hzero]
  · simp only [List.map_cons, List.mem_cons, hq, false_or]

theorem Filled.cons_update (h : Filled u (Function.update units p.1 (u p.1)) ps units')
    (hne : u p.1 ≠ 0) : Filled u units (p :: ps) units' := by
  intro q
  rw [h q]
  by_cases hq : q = p.1
  · rw [hq, Function.update_self, ite_self, if_pos ⟨List.mem_cons_self, hne⟩]
  · rw [Function.update_of_ne hq]
    simp only [List.map_cons, List.mem_cons, hq, false_or]

theorem isoDate_units (hfits : ∀ p, u p ≤ i64Max) (bound : ℕ) (hps : Designators dateUnit next bound ps)
    (htail : NoDigit tail) (turns : ℕ) (units : Part → ℕ) (any : Bool) (pos : ℕ)
    (hturns : (ps.flatMap (Span.unitText u) ++ tail).length ≤ turns) :
    ∃ units' pos', isoDate turns next units any ⟨ps.flatMap (Span.unitText u) ++ tail, pos⟩ =
        .ok ((units', any || ps.any fun p => u p.1 != 0), ⟨tail, pos'⟩) ∧
      Filled u units ps units' := by
  induction ps generalizing next turns units any pos with
  | nil =>
    refine ⟨units, pos, ?_, .nil⟩
    have hhead : tail.head?.any asciiDigit = false := by
      cases hb : tail.head? with
      | none => rfl
      | some b => exact htail b hb
    cases turns with
    | zero => simp [isoDate]
    | succ turns => simp [isoDate, hhead]
  | cons p ps ih =>
    rw [List.flatMap_cons] at hturns ⊢
    by_cases hzero : u p.1 = 0
    · have htext : Span.unitText u p = [] := if_pos hzero
      rw [htext, List.nil_append] at hturns ⊢
      have hle := (hps.later p List.mem_cons_self).1
      obtain ⟨units', pos', hread, hfilled⟩ :=
        ih (hps.rest.mono (Nat.le_succ_of_le hle)) turns units any pos hturns
      refine ⟨units', pos', ?_, hfilled.cons_zero hzero⟩
      rw [hread]
      simp [hzero]
    · have htext : Span.unitText u p = decimal (u p.1) ++ [p.2] := if_neg hzero
      rw [htext, List.append_assoc, List.append_assoc, List.singleton_append] at hturns ⊢
      rw [List.length_append, List.length_cons] at hturns
      obtain ⟨k, rfl⟩ : ∃ k, turns = k + 1 := ⟨turns - 1, by omega⟩
      obtain ⟨pos₁, hunit⟩ := isoDate_unit hps (hfits p.1) k units any
        (ps.flatMap (Span.unitText u) ++ tail) pos
      obtain ⟨units', pos', hread, hfilled⟩ := ih hps.rest k (Function.update units p.1 (u p.1)) true pos₁
        (by omega)
      refine ⟨units', pos', ?_, hfilled.cons_update hzero⟩
      rw [hunit, hread]
      simp [hzero]

theorem isoTime_units (tail : List UInt8) (hfits : ∀ p, u p ≤ i64Max)
    (hps : Designators timeUnit next Part.seconds.at_ ps) (hnext : next ≤ Part.seconds.at_)
    (turns : ℕ) (units : Part → ℕ) (timed : Bool) (pos : ℕ)
    (hturns : (ps.flatMap (Span.unitText u) ++ tail).length ≤ turns) :
    ∃ turns' next' units' pos',
      isoTime turns next units timed ⟨ps.flatMap (Span.unitText u) ++ tail, pos⟩ =
        isoTime turns' next' units' (timed || ps.any fun p => u p.1 != 0) ⟨tail, pos'⟩ ∧
      tail.length ≤ turns' ∧ next' ≤ Part.seconds.at_ ∧ Filled u units ps units' := by
  induction ps generalizing next turns units timed pos with
  | nil => exact ⟨turns, next, units, pos, by simp, hturns, hnext, .nil⟩
  | cons p ps ih =>
    rw [List.flatMap_cons] at hturns ⊢
    obtain ⟨hle, hlt⟩ := hps.later p List.mem_cons_self
    by_cases hzero : u p.1 = 0
    · have htext : Span.unitText u p = [] := if_pos hzero
      rw [htext, List.nil_append] at hturns ⊢
      obtain ⟨turns', next', units', pos', hread, hlen, hbound, hfilled⟩ :=
        ih (hps.rest.mono (Nat.le_succ_of_le hle)) hnext turns units timed pos hturns
      refine ⟨turns', next', units', pos', ?_, hlen, hbound, hfilled.cons_zero hzero⟩
      rw [hread]
      simp [hzero]
    · have htext : Span.unitText u p = decimal (u p.1) ++ [p.2] := if_neg hzero
      rw [htext, List.append_assoc, List.append_assoc, List.singleton_append] at hturns ⊢
      rw [List.length_append, List.length_cons] at hturns
      obtain ⟨k, rfl⟩ : ∃ k, turns = k + 1 := ⟨turns - 1, by omega⟩
      obtain ⟨pos₁, hunit⟩ := isoTime_unit hps (Nat.le_refl _) (hfits p.1) k units timed
        (ps.flatMap (Span.unitText u) ++ tail) pos
      obtain ⟨turns', next', units', pos', hread, hlen, hbound, hfilled⟩ :=
        ih hps.rest hlt k (Function.update units p.1 (u p.1)) true pos₁ (by omega)
      refine ⟨turns', next', units', pos', ?_, hlen, hbound, hfilled.cons_update hzero⟩
      rw [hunit, hread, List.any_cons, show (u p.1 != 0) = true from bne_iff_ne.mpr hzero,
        Bool.true_or, Bool.or_true]

theorem isoTime_end (turns next : ℕ) (units : Part → ℕ) (timed : Bool) (pos : ℕ) :
    isoTime turns next units timed ⟨[], pos⟩ = .ok ((units, timed), ⟨[], pos⟩) := by
  cases turns with
  | zero => rfl
  | succ turns => rfl

theorem isoTime_seconds {nanos : ℕ} (hn : n ≤ i64Max) (hnanos : nanos < nanosPerSecond)
    {turns : ℕ} (hnext : next ≤ Part.seconds.at_) (units : Part → ℕ) (timed : Bool) (pos : ℕ)
    (hturns : 0 < turns) :
    ∃ pos', isoTime turns next units timed ⟨decimal n ++ writeFraction nanos ++ [ascii 'S'], pos⟩ =
      .ok ((Function.update (Function.update units .seconds n) .nanos nanos, true), ⟨[], pos'⟩) := by
  obtain ⟨k, rfl⟩ : ∃ k, turns = k + 1 := ⟨turns - 1, by omega⟩
  obtain ⟨fraction, pos', hnumber⟩ : ∃ fraction pos',
      number ⟨decimal n ++ writeFraction nanos ++ [ascii 'S'], pos⟩ =
        .ok ((n, nanos, fraction), ⟨[ascii 'S'], pos'⟩) := by
    rw [List.append_assoc]
    by_cases hzero : nanos = 0
    · obtain ⟨pos', hread⟩ := number_unit hn (d := ascii 'S') ⟨rfl, by decide⟩ [] pos
      refine ⟨false, pos', ?_⟩
      rw [hzero, show writeFraction 0 = [] from rfl, List.nil_append]
      exact hread
    · obtain ⟨fs, hwrite, hfne, hlen, hfs, hvalue⟩ := writeFraction_digits hzero hnanos
      obtain ⟨pos', hread⟩ := number_fraction
        (c := ⟨decimal n ++ ascii '.' :: (fs ++ [ascii 'S']), pos⟩)
        (decimal_ne_nil _) (all_decimal _) (by rwa [valueOf_decimal]) hfne hfs hlen
        (noDigit_cons (b := ascii 'S') rfl []) rfl
      refine ⟨true, pos', ?_⟩
      rw [valueOf_decimal, hvalue] at hread
      rw [hwrite, List.cons_append]
      exact hread
  have hnil : decimal n ++ writeFraction nanos ++ [ascii 'S'] ≠ [] := by simp
  have hunit : timeUnit (some (upper (ascii 'S'))) = some .seconds := by decide
  refine ⟨pos' + 1, ?_⟩
  simp only [isoTime, hnil, ne_eq, not_false_eq_true, if_true, hnumber, bind, Except.bind,
    List.head?_cons, Option.map_some, hunit, Nat.not_lt.mpr hnext, if_false, bne_self_eq_false,
    Bool.and_false, Bool.false_eq_true, skip, List.drop_succ_cons, List.drop_zero]
  exact isoTime_end k _ _ _ _

theorem dateUnits_designators : Designators dateUnit 0 4 Span.dateUnits :=
  ⟨by decide, by decide, by decide, by decide⟩

theorem timeUnits_designators :
    Designators timeUnit Part.hours.at_ Part.seconds.at_ Span.timeUnits :=
  ⟨by decide, by decide, by decide, by decide⟩

theorem Filled.eq_of_mem
    (h : Filled u units ps units') {p : Part} (hp : p ∈ ps.map Prod.fst) (hzero : units p = 0) :
    units' p = u p := by
  rw [h p]
  by_cases hu : u p = 0
  · rw [if_neg fun hand => hand.2 hu, hzero, hu]
  · rw [if_pos ⟨hp, hu⟩]

theorem Filled.eq_of_not_mem
    (h : Filled u units ps units') {p : Part} (hp : p ∉ ps.map Prod.fst) : units' p = units p := by
  rw [h p, if_neg fun hand => hp hand.1]

/-- Behind the `T`, the time units of a span are read into their places. -/
theorem isoTime_span (hfits : ∀ p, u p ≤ i64Max) (hnanos : u .nanos < nanosPerSecond)
    (hany : [Part.hours, .minutes, .seconds, .nanos].any (fun p => u p != 0) = true)
    (units : Part → ℕ) (hzero : ∀ p ∈ [Part.hours, .minutes, .seconds, .nanos], units p = 0) (pos : ℕ) {text : List UInt8}
    (htext : text = Span.timeUnits.flatMap (Span.unitText u) ++ Span.secondsText u) :
    ∃ units' pos', isoTime text.length Part.hours.at_ units false ⟨text, pos⟩ =
        .ok ((units', true), ⟨[], pos'⟩) ∧
      (∀ p ∈ [Part.hours, .minutes, .seconds, .nanos], units' p = u p) ∧
      ∀ p ∉ [Part.hours, .minutes, .seconds, .nanos], units' p = units p := by
  obtain ⟨turns', next', units₁, pos₁, hread, hlen, hbound, hfilled⟩ :=
    isoTime_units (Span.secondsText u) hfits timeUnits_designators (by decide) text.length units
      false pos (by rw [htext])
  rw [← htext] at hread
  have hearly (p : Part) (hp : p ∈ [Part.hours, .minutes]) :
      p ∈ [Part.hours, .minutes, .seconds, .nanos] := List.mem_append_left [Part.seconds, .nanos] hp
  have hwhole (p : Part) (hp : p ∈ [Part.hours, .minutes]) : units₁ p = u p :=
    hfilled.eq_of_mem hp (hzero p (hearly p hp))
  have hrest (p : Part) (hp : p ∉ [Part.hours, .minutes]) : units₁ p = units p :=
    hfilled.eq_of_not_mem hp
  by_cases hseconds : u .seconds = 0 ∧ u .nanos = 0
  · refine ⟨units₁, pos₁, ?_, ?_, fun p hp => hrest p fun hmem =>
      hp (hearly p hmem)⟩
    · have htimed : (Span.timeUnits.any fun p => u p.1 != 0) = true := by
        simpa [hseconds.1, hseconds.2, Span.timeUnits] using hany
      rw [hread, show Span.secondsText u = [] from if_pos hseconds, isoTime_end, htimed]
      rfl
    · intro p hp
      rcases List.mem_append.mp (show p ∈ [Part.hours, .minutes] ++ [.seconds, .nanos] from hp) with
        hwhole' | hlate
      · exact hwhole p hwhole'
      · have hout : p ∉ [Part.hours, .minutes] := by
          revert hlate
          cases p <;> decide
        rw [hrest p hout, hzero p hp]
        rcases List.mem_pair.mp hlate with rfl | rfl
        · exact hseconds.1.symm
        · exact hseconds.2.symm
  · have htail : Span.secondsText u =
        decimal (u .seconds) ++ writeFraction (u .nanos) ++ [ascii 'S'] := if_neg hseconds
    rw [htail] at hread hlen
    obtain ⟨pos', hlast⟩ := isoTime_seconds (hfits .seconds) hnanos hbound units₁
      (false || Span.timeUnits.any fun p => u p.1 != 0) pos₁
      (Nat.lt_of_lt_of_le (List.length_pos_iff.mpr (by simp)) hlen)
    refine ⟨_, pos', hread.trans hlast, ?_, ?_⟩
    · intro p hp
      cases p with
      | hours => exact hwhole .hours (by decide)
      | minutes => exact hwhole .minutes (by decide)
      | seconds => rfl
      | nanos => rfl
      | years => exact absurd hp (by decide)
      | months => exact absurd hp (by decide)
      | weeks => exact absurd hp (by decide)
      | days => exact absurd hp (by decide)
    · intro p hp
      cases p with
      | years => exact hrest .years (by decide)
      | months => exact hrest .months (by decide)
      | weeks => exact hrest .weeks (by decide)
      | days => exact hrest .days (by decide)
      | hours => exact absurd (by decide) hp
      | minutes => exact absurd (by decide) hp
      | seconds => exact absurd (by decide) hp
      | nanos => exact absurd (by decide) hp

namespace Span

variable {s : Span}

/-- The text behind the `P` of a span that is not zero. -/
def unitsText (u : Part → ℕ) : List UInt8 :=
  dateUnits.flatMap (unitText u) ++
    if [Part.hours, .minutes, .seconds, .nanos].any (fun p => u p != 0) then
      ascii 'T' :: (timeUnits.flatMap (unitText u) ++ secondsText u)
    else []

/-- The units a span displays are read back. -/
theorem iso_unitsText (h : s.Kept) (hne : s.isZero = false) (pos : ℕ) :
    iso ⟨unitsText s.units, pos⟩ = .ok s.units := by
  obtain ⟨tail, htail⟩ : ∃ tail, tail =
      if [Part.hours, .minutes, .seconds, .nanos].any (fun p => s.units p != 0) then
        ascii 'T' :: (timeUnits.flatMap (unitText s.units) ++ secondsText s.units)
      else [] := ⟨_, rfl⟩
  have htext : unitsText s.units = dateUnits.flatMap (unitText s.units) ++ tail := by
    rw [htail]
    rfl
  have hstop : NoDigit tail := by
    rw [htail]
    split
    · exact noDigit_cons rfl _
    · exact noDigit_nil
  obtain ⟨units₁, pos₁, hdate, hfilled⟩ := isoDate_units h.fits 4 dateUnits_designators hstop
    (unitsText s.units).length (fun _ => 0) false pos (by rw [htext])
  rw [← htext] at hdate
  have hin (p : Part) (hp : p ∈ dateUnits.map Prod.fst) : units₁ p = s.units p :=
    hfilled.eq_of_mem hp rfl
  have hout (p : Part) (hp : p ∉ dateUnits.map Prod.fst) : units₁ p = 0 :=
    hfilled.eq_of_not_mem hp
  unfold iso
  simp only [hdate, bind, Except.bind]
  by_cases hany : [Part.hours, .minutes, .seconds, .nanos].any (fun p => s.units p != 0) = true
  · rw [if_pos hany] at htail
    obtain ⟨units₂, pos₂, htime, hin₂, hout₂⟩ := isoTime_span h.fits h.nanos hany units₁
      (fun p hp => hout p (by revert hp; cases p <;> decide)) (pos₁ + 1) rfl
    have hunits : units₂ = s.units := by
      funext p
      by_cases hp : p ∈ [Part.hours, .minutes, .seconds, .nanos]
      · exact hin₂ p hp
      · rw [hout₂ p hp]
        exact hin p (by revert hp; cases p <;> decide)
    rw [hunits] at htime
    simp only [htail, List.head?_cons, true_or, if_true, skip, List.drop_succ_cons, List.drop_zero, htime,
      Bool.not_true, Bool.false_eq_true, if_false, ne_eq, not_true_eq_false, pure, Except.pure]
  · rw [if_neg hany] at htail
    have hzero (p : Part) (hp : p ∈ [Part.hours, .minutes, .seconds, .nanos]) : s.units p = 0 := by
      by_contra hne
      exact hany (List.any_eq_true.mpr ⟨p, hp, bne_iff_ne.mpr hne⟩)
    have hunits : units₁ = s.units := by
      funext p
      by_cases hp : p ∈ [Part.hours, .minutes, .seconds, .nanos]
      · rw [hzero p hp]
        exact hout p (by revert hp; cases p <;> decide)
      · exact hin p (by revert hp; cases p <;> decide)
    have hdated : (dateUnits.any fun p => s.units p.1 != 0) = true := by
      by_contra hnone
      have hall : s.isZero = true := isZero_iff.mpr fun p => by
        by_cases hp : p ∈ [Part.hours, .minutes, .seconds, .nanos]
        · exact hzero p hp
        · by_contra hne
          refine hnone (List.any_eq_true.mpr ?_)
          have hmem : p ∈ dateUnits.map Prod.fst := by
            revert hp
            cases p <;> decide
          obtain ⟨q, hq, rfl⟩ := List.mem_map.mp hmem
          exact ⟨q, hq, bne_iff_ne.mpr hne⟩
      rw [hne] at hall
      cases hall
    simp only [htail, List.head?_nil, reduceCtorEq, or_self, if_false, pure, Except.pure, ne_eq,
      not_true_eq_false, hdated, Bool.or_true, Bool.not_true, Bool.false_eq_true, hunits]

theorem fromParts_self (h : s.Kept) : fromParts s.units s.negative = s := by
  unfold fromParts normalised
  split
  · rename_i hzero
    have hsign : s.negative = false := by
      by_contra hne
      have := h.sign (by simpa using hne)
      rw [show s.isZero = true from hzero] at this
      cases this
    rw [← hsign]
  · rfl

theorem iso_zero (pos : ℕ) : iso ⟨[ascii 'T', ascii '0', ascii 'S'], pos⟩ = .ok fun _ => 0 := by
  have hdigit : asciiDigit (ascii 'T') = false := by decide
  obtain ⟨pos', hread⟩ := isoTime_seconds (show 0 ≤ i64Max by decide)
    (show 0 < nanosPerSecond by decide) (show Part.hours.at_ ≤ Part.seconds.at_ by decide) (fun _ => 0) false (pos + 1)
    (show 0 < 2 by decide)
  have htext : decimal 0 ++ writeFraction 0 ++ [ascii 'S'] = [ascii '0', ascii 'S'] := by decide
  have hunits : Function.update (Function.update (fun _ : Part => 0) .seconds 0) .nanos 0 =
      fun _ => 0 := by
    funext p
    cases p <;> rfl
  rw [htext, hunits] at hread
  simp [iso, isoDate, hdigit, bind, Except.bind, skip, hread, pure, Except.pure]

theorem parse_display (h : s.Kept) : parse s.display = .ok s := by
  obtain ⟨body, hbody⟩ : ∃ body, body = if s.isZero then [ascii 'T', ascii '0', ascii 'S']
      else unitsText s.units := ⟨_, rfl⟩
  have hiso (pos : ℕ) : iso ⟨body, pos⟩ = .ok s.units := by
    rw [hbody]
    split
    · rename_i hzero
      rw [iso_zero, funext (isZero_iff.mp hzero)]
    · rename_i hne
      exact iso_unitsText h (by simpa using hne) pos
  have hself := fromParts_self h
  have hdisplay : s.display = (if s.negative then [ascii '-'] else []) ++ ascii 'P' :: body := by
    rw [hbody]
    rfl
  rw [hdisplay]
  cases hsign : s.negative with
  | false =>
    rw [hsign] at hself
    have hminus : (ascii 'P' == ascii '-') = false := by decide
    have hplus : (ascii 'P' == ascii '+') = false := by decide
    simp [parse, signOf, Cursor.start, hminus, hplus, skip, hiso, hself, bind, Except.bind, pure, Except.pure]
  | true =>
    rw [hsign] at hself
    simp [parse, signOf, Cursor.start, skip, hiso, hself, bind, Except.bind, pure, Except.pure]

end Span

end Guatiao.Civil
