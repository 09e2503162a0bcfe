import Mathlib.Algebra.Order.BigOperators.Group.List
import Guatiao.Value.SpanMade

/-!
# The friendly form, token by token

A friendly text is a row of numbers with their units. What the tokens mean is the sum of their parts,
which no order changes; the reader puts the seconds into their slot instead of adding them, and so
forgets what parts of a second before them had carried there.
-/

namespace Guatiao.Civil

open Lib

/-- A token of the friendly form: a number, a unit it may stand before, and the spaces behind. -/
structure Token where
  digits : List UInt8
  fraction : Option (List UInt8)
  letters : List UInt8
  slot : ℕ
  nanosPer : ℕ
  spaces : ℕ
  digits_ne : digits ≠ []
  all_digits : ∀ b ∈ digits, asciiDigit b = true
  digits_le : valueOf digits ≤ i64Max
  fraction_digits : ∀ fs ∈ fraction, fs ≠ [] ∧ fs.length ≤ 9 ∧ ∀ b ∈ fs, asciiDigit b = true
  seconds_of_fraction : fraction ≠ none → slot = 6
  unit : friendlyUnit letters = some (slot, nanosPer, letters.length)

namespace Token

/-- A token's number. -/
def n (t : Token) : ℕ := valueOf t.digits

/-- The nanoseconds of a token's fraction. -/
def nanos (t : Token) : ℕ := t.fraction.elim 0 fun fs => valueOf fs * 10 ^ (9 - fs.length)

/-- A token as it is written. -/
def text (t : Token) : List UInt8 :=
  t.digits ++ t.fraction.elim [] (fun fs => ascii '.' :: fs) ++ t.letters ++
    List.replicate t.spaces (ascii ' ')

/-- The nanoseconds a part of a second comes to. -/
def total (t : Token) : ℕ := t.n * t.nanosPer

/-- Whether a token is a part of a second. -/
def sub (t : Token) : Bool := 6 < t.slot

/-- What a token adds to a whole unit other than the seconds. -/
def whole (t : Token) (p : Part) : ℕ := if t.slot < 6 ∧ slotPart t.slot = p then t.n else 0

/-- The seconds a token writes or carries. -/
def secondsPart (t : Token) : ℕ :=
  if t.slot = 6 then t.n else if t.sub then t.total / nanosPerSecond else 0

/-- The nanoseconds below a second that a token adds. -/
def nanosPart (t : Token) : ℕ :=
  if t.slot = 6 then t.nanos else if t.sub then t.total % nanosPerSecond else 0

/-- The nanoseconds that a token of seconds or of a part of a second means. -/
def meaning (t : Token) : ℕ :=
  if t.slot = 6 then t.n * nanosPerSecond + t.nanos else if t.sub then t.total else 0

end Token

/-- A friendly text: a sign, spaces and the tokens. -/
def friendlyText (negative : Bool) (spaces : ℕ) (ts : List Token) : List UInt8 :=
  (if negative then [ascii '-'] else []) ++ List.replicate spaces (ascii ' ') ++ ts.flatMap Token.text

/-- What some tokens mean together: each whole unit counted, and the parts of a second added up. -/
def sumOf (ts : List Token) (p : Part) : ℕ :=
  match p with
  | .seconds => (ts.map Token.meaning).sum / nanosPerSecond
  | .nanos => (ts.map Token.meaning).sum % nanosPerSecond
  | p => (ts.map fun t => t.whole p).sum

variable {t : Token} {ts : List Token}

/-- What every unit's spelling is. -/
def Spelled (letters : List UInt8) (slot len : ℕ) : Prop :=
  len = letters.length ∧ letters ≠ [] ∧ (∀ b ∈ letters, isLetter b = true) ∧
    (∀ b ∈ letters, asciiDigit b = false ∧ b ≠ ascii '.') ∧ slot ≤ 9

theorem spelled_of_friendlyUnit {letters : List UInt8} {slot nanosPer len : ℕ}
    (h : friendlyUnit letters = some (slot, nanosPer, len)) : Spelled letters slot len := by
  have hall : ∀ row ∈ friendlyUnits, Spelled row.1 row.2.1 row.2.2.2 := by
    unfold Spelled
    decide +kernel
  obtain ⟨before, after, heq, -⟩ := List.lookup_eq_some_iff.mp h
  exact hall (letters, slot, nanosPer, len) (by rw [heq]; simp)

theorem Token.spelled (t : Token) : Spelled t.letters t.slot t.letters.length :=
  spelled_of_friendlyUnit t.unit

/-- What may follow a token: another one, or nothing. -/
def Behind (rest : List UInt8) : Prop := ∀ b, rest.head? = some b → asciiDigit b = true

theorem head_text (t : Token) (rest : List UInt8) : Behind (t.text ++ rest) := by
  intro b hb
  obtain ⟨d, ds, hdigits⟩ := List.exists_cons_of_ne_nil t.digits_ne
  rw [Token.text, hdigits] at hb
  cases hb
  exact t.all_digits b (by rw [hdigits]; exact List.mem_cons_self)

theorem behind_flatMap (ts : List Token) : Behind (ts.flatMap Token.text) := by
  cases ts with
  | nil => nofun
  | cons t ts => exact head_text t _

theorem isLetter_of_digit {b : UInt8} (h : asciiDigit b = true) : isLetter b = false := by
  have hb := asciiDigit_iff.mp h
  have hle (l : UInt8) (hl : 57 < l.toNat) : decide (l ≤ b) = false := by
    rw [decide_eq_false_iff_not, UInt8.le_iff_toNat_le]
    omega
  simp only [isLetter, hle (ascii 'a') (by decide), hle (ascii 'A') (by decide),
    hle 0x80 (by decide), Bool.false_and, Bool.or_false]

theorem takeWhile_append_stop {α : Type} {p : α → Bool} {xs ys : List α} (hxs : ∀ x ∈ xs, p x = true)
    (hys : ∀ y, ys.head? = some y → p y = false) : (xs ++ ys).takeWhile p = xs := by
  rw [List.takeWhile_append_of_pos hxs]
  cases ys with
  | nil => simp
  | cons y ys => simp [hys y rfl]

theorem number_token (t : Token) (rest : List UInt8) (pos : ℕ) :
    ∃ pos', number ⟨t.text ++ rest, pos⟩ = .ok ((t.n, t.nanos, t.fraction.isSome),
      ⟨t.letters ++ (List.replicate t.spaces (ascii ' ') ++ rest), pos'⟩) := by
  obtain ⟨-, hne, -, hhead, -⟩ := t.spelled
  obtain ⟨l, ls, hletters⟩ := List.exists_cons_of_ne_nil hne
  obtain ⟨hdigit, hpoint⟩ := hhead l (by rw [hletters]; exact List.mem_cons_self)
  have hstop : NoDigit (t.letters ++ (List.replicate t.spaces (ascii ' ') ++ rest)) := by
    rw [hletters]
    exact noDigit_cons hdigit _
  cases hfraction : t.fraction with
  | none =>
    have hread := number_whole (c := ⟨t.text ++ rest, pos⟩) t.digits_ne t.all_digits t.digits_le hstop
      (by rw [hletters]; exact fun heq => hpoint (Option.some.inj heq))
      (by simp [Token.text, hfraction])
    refine ⟨pos + t.digits.length, ?_⟩
    rw [hread, Token.nanos, hfraction]
    rfl
  | some fs =>
    obtain ⟨hfne, hlen, hfs⟩ := t.fraction_digits fs hfraction
    obtain ⟨pos', hread⟩ := number_fraction (c := ⟨t.text ++ rest, pos⟩) t.digits_ne t.all_digits
      t.digits_le hfne hfs hlen hstop (by simp [Token.text, hfraction])
    refine ⟨pos', ?_⟩
    rw [hread, Token.nanos, hfraction]
    rfl

/-- What a token does to the units. -/
def Token.put (units : Part → ℕ) (t : Token) : Option (Part → ℕ) :=
  place units t.slot t.nanosPer t.n t.nanos

/-- A token whose unit has not come yet is put into the units, and the next is read behind it. -/
theorem friendlyFrom_token (turns : ℕ) (units : Part → ℕ) {seen : ℕ → Bool} {t : Token}
    (hseen : seen t.slot = false) {rest : List UInt8} (hrest : Behind rest) (pos : ℕ) :
    (∀ units', t.put units = some units' → ∃ pos',
      friendlyFrom (turns + 1) units seen ⟨t.text ++ rest, pos⟩ =
        friendlyFrom turns units' (Function.update seen t.slot true) ⟨rest, pos'⟩) ∧
    (t.put units = none → ∃ e, friendlyFrom (turns + 1) units seen ⟨t.text ++ rest, pos⟩ = .error e) := by
  obtain ⟨-, hne, hletter, -, -⟩ := t.spelled
  obtain ⟨pos₁, hnumber⟩ := number_token t rest pos
  have hnil : t.text ++ rest ≠ [] := by
    intro hnil
    exact t.digits_ne (by simp [Token.text] at hnil; exact hnil.1)
  have hspace : ∀ b ∈ List.replicate t.spaces (ascii ' '), (b == ascii ' ') = true := by
    intro b hb
    rw [(List.mem_replicate.mp hb).2]
    rfl
  have hletters : (t.letters ++ (List.replicate t.spaces (ascii ' ') ++ rest)).takeWhile isLetter =
      t.letters := by
    refine takeWhile_append_stop hletter fun b hb => ?_
    cases hspaces : t.spaces with
    | zero =>
      rw [hspaces] at hb
      exact isLetter_of_digit (hrest b hb)
    | succ k =>
      rw [hspaces] at hb
      cases hb
      rfl
  have hbehind : ∀ b, rest.head? = some b → (b == ascii ' ') = false := by
    intro b hb
    have hdigit := hrest b hb
    by_contra hne
    have heq : b = ascii ' ' := by simpa using hne
    rw [heq] at hdigit
    cases hdigit
  have hfraction : (t.fraction.isSome && t.slot != 6) = false := by
    cases hf : t.fraction with
    | none => rfl
    | some fs =>
      rw [t.seconds_of_fraction (by rw [hf]; nofun)]
      rfl
  have hskip (pos : ℕ) : ∃ pos',
      skipSpaces (skip ⟨t.letters ++ (List.replicate t.spaces (ascii ' ') ++ rest), pos⟩ t.letters.length) =
        ⟨rest, pos'⟩ := by
    refine ⟨pos + t.letters.length + t.spaces, ?_⟩
    simp only [skip, skipSpaces, List.drop_left', takeWhile_append_stop hspace hbehind,
      List.length_replicate]
  obtain ⟨pos', hbehind'⟩ := hskip pos₁
  have hunfold : friendlyFrom (turns + 1) units seen ⟨t.text ++ rest, pos⟩ =
      (t.put units).elim
        (refuse ⟨t.text ++ rest, pos⟩ "a part of a second no larger than a u64 of nanoseconds")
        fun units' => friendlyFrom turns units' (Function.update seen t.slot true) ⟨rest, pos'⟩ := by
    rw [friendlyFrom, if_pos hnil]
    simp only [hnumber, bind, Except.bind, hletters, t.unit, hfraction, Bool.false_eq_true, if_false,
      hseen, hbehind', Token.put]
    cases place units t.slot t.nanosPer t.n t.nanos <;> rfl
  constructor
  · intro units' hput
    exact ⟨pos', by rw [hunfold, hput]; rfl⟩
  · intro hput
    exact ⟨_, by rw [hunfold, hput]; rfl⟩

/-- The tokens of a text are put into the units one after the other. -/
theorem friendlyFrom_tokens (turns : ℕ) (units : Part → ℕ) (seen : ℕ → Bool)
    (hseen : ∀ t ∈ ts, seen t.slot = false) (hnodup : (ts.map Token.slot).Nodup) (pos : ℕ)
    (hturns : (ts.flatMap Token.text).length ≤ turns) :
    (∀ units', ts.foldlM Token.put units = some units' →
      friendlyFrom turns units seen ⟨ts.flatMap Token.text, pos⟩ = .ok units') ∧
    (ts.foldlM Token.put units = none →
      ∃ e, friendlyFrom turns units seen ⟨ts.flatMap Token.text, pos⟩ = .error e) := by
  induction ts generalizing turns units seen pos with
  | nil =>
    refine ⟨fun units' hfold => ?_, nofun⟩
    cases hfold
    cases turns with
    | zero => rfl
    | succ turns => rfl
  | cons t ts ih =>
    rw [List.flatMap_cons, List.length_append] at hturns
    rw [List.flatMap_cons, List.foldlM_cons]
    have hlen : 0 < t.text.length := by
      have := List.length_pos_iff.mpr t.digits_ne
      simp only [Token.text, List.length_append]
      omega
    obtain ⟨k, rfl⟩ : ∃ k, turns = k + 1 := ⟨turns - 1, by omega⟩
    obtain ⟨hnot, hrest⟩ := List.nodup_cons.mp hnodup
    have hseen' : ∀ t' ∈ ts, Function.update seen t.slot true t'.slot = false := by
      intro t' ht'
      have hne : t'.slot ≠ t.slot := by
        intro heq
        rw [← heq] at hnot
        exact hnot (List.mem_map_of_mem ht')
      rw [Function.update_of_ne hne]
      exact hseen t' (List.mem_cons_of_mem _ ht')
    obtain ⟨hput, hnone⟩ := friendlyFrom_token k units (hseen t List.mem_cons_self)
      (behind_flatMap ts) pos
    cases ht : t.put units with
    | none =>
      obtain ⟨e, he⟩ := hnone ht
      exact ⟨nofun, fun _ => ⟨e, he⟩⟩
    | some units₁ =>
      obtain ⟨pos', hread⟩ := hput units₁ ht
      rw [hread]
      exact ih k units₁ _ hseen' hrest pos' (by omega)

/-- A token's effect on the units, when its part of a second fits. -/
def Token.putTo (units : Part → ℕ) (t : Token) : Part → ℕ
  | .seconds =>
    if t.slot = 6 then t.n
    else if t.sub then units .seconds + t.total / nanosPerSecond else units .seconds
  | .nanos => units .nanos + t.nanosPart
  | p => if t.slot < 6 ∧ slotPart t.slot = p then t.n else units p

/-- Whether a token's part of a second fits a `u64` of nanoseconds. -/
def Token.fits (t : Token) : Bool := !t.sub || t.total < 2 ^ 64

theorem put_eq (units : Part → ℕ) (h : t.fits = true) : t.put units = some (t.putTo units) := by
  have hslot := t.spelled.2.2.2.2
  unfold Token.put place
  by_cases hsub : t.slot ≤ 6
  · have hnot : t.sub = false := by
      simpa [Token.sub] using hsub
    rw [if_pos hsub]
    dsimp only
    congr 1
    funext p
    by_cases hsix : t.slot = 6
    · rw [if_pos hsix, hsix]
      cases p <;> simp [Token.putTo, slotPart, Part.all, Function.update, Token.nanosPart, hsix]
    · have hlt : t.slot < 6 := by omega
      rw [if_neg hsix]
      generalize hs : t.slot = slot at hlt
      interval_cases slot <;> cases p <;>
        simp [Token.putTo, slotPart, Part.all, Function.update, Token.nanosPart, hs, Token.sub]
  · have hyes : t.sub = true := by
      simpa [Token.sub] using hsub
    have htotal : t.total < 2 ^ 64 := by
      simpa [Token.fits, hyes] using h
    rw [if_neg hsub, show t.n * t.nanosPer = t.total from rfl, fitsU64_eq htotal, Option.map_some]
    congr 1
    funext p
    cases p <;> simp [Token.putTo, Function.update, Token.nanosPart, hyes] <;> omega

theorem put_none (units : Part → ℕ) (h : t.fits = false) : t.put units = none := by
  simp only [Token.fits, Bool.or_eq_false_iff, Bool.not_eq_false', decide_eq_false_iff_not] at h
  have hsub : ¬ t.slot ≤ 6 := by
    have := h.1
    simpa [Token.sub] using this
  unfold Token.put place
  rw [if_neg hsub]
  have hnone : fitsU64 (t.n * t.nanosPer) = none := if_neg h.2
  rw [hnone]
  rfl

theorem foldlM_put (units : Part → ℕ) (h : ∀ t ∈ ts, t.fits = true) :
    ts.foldlM Token.put units = some (ts.foldl Token.putTo units) := by
  induction ts generalizing units with
  | nil => rfl
  | cons t ts ih =>
    rw [List.foldlM_cons, put_eq units (h t List.mem_cons_self)]
    exact ih _ fun t ht => h t (List.mem_cons_of_mem _ ht)

theorem foldlM_put_none (units : Part → ℕ) (ht : t ∈ ts) (h : t.fits = false) :
    ts.foldlM Token.put units = none := by
  induction ts generalizing units with
  | nil => cases ht
  | cons t' ts ih =>
    rw [List.foldlM_cons]
    rcases List.mem_cons.mp ht with rfl | hmem
    · rw [put_none units h]
      rfl
    · cases t'.put units with
      | none => rfl
      | some units' => exact ih units' hmem

theorem foldl_nanos (units : Part → ℕ) (ts : List Token) :
    ts.foldl Token.putTo units .nanos = units .nanos + (ts.map Token.nanosPart).sum := by
  induction ts generalizing units with
  | nil => rfl
  | cons t ts ih =>
    rw [List.foldl_cons, ih, List.map_cons, List.sum_cons, ← Nat.add_assoc]
    rfl

theorem slotPart_inj {a b : ℕ} (ha : a < 6) (hb : b < 6) (h : slotPart a = slotPart b) : a = b := by
  interval_cases a <;> interval_cases b <;> first | rfl | cases h

theorem putTo_whole {p : Part} (hs : p ≠ .seconds) (hn : p ≠ .nanos) (units : Part → ℕ) (t : Token) :
    t.putTo units p = if t.slot < 6 ∧ slotPart t.slot = p then t.n else units p := by
  cases p with
  | seconds => exact absurd rfl hs
  | nanos => exact absurd rfl hn
  | _ => rfl

theorem foldl_whole {p : Part} (hs : p ≠ .seconds) (hn : p ≠ .nanos) (units : Part → ℕ)
    (hnodup : (ts.map Token.slot).Nodup)
    (hzero : units p = 0 ∨ ∀ t ∈ ts, ¬ (t.slot < 6 ∧ slotPart t.slot = p)) :
    ts.foldl Token.putTo units p = units p + (ts.map fun t => t.whole p).sum := by
  induction ts generalizing units with
  | nil => rfl
  | cons t ts ih =>
    obtain ⟨hnot, hrest⟩ := List.nodup_cons.mp hnodup
    rw [List.foldl_cons, List.map_cons, List.sum_cons]
    by_cases hmatch : t.slot < 6 ∧ slotPart t.slot = p
    · have hstart : units p = 0 := hzero.resolve_right fun hall => hall t List.mem_cons_self hmatch
      have hothers : ∀ t' ∈ ts, ¬ (t'.slot < 6 ∧ slotPart t'.slot = p) := by
        rintro t' ht' ⟨hlt, hpart⟩
        have hsame := slotPart_inj hlt hmatch.1 (hpart.trans hmatch.2.symm)
        exact hnot (by rw [← hsame]; exact List.mem_map_of_mem ht')
      rw [ih _ hrest (.inr hothers), putTo_whole hs hn, if_pos hmatch, hstart, Token.whole, if_pos hmatch,
        Nat.zero_add]
    · have hothers : t.putTo units p = 0 ∨ ∀ t' ∈ ts, ¬ (t'.slot < 6 ∧ slotPart t'.slot = p) := by
        rw [putTo_whole hs hn, if_neg hmatch]
        exact hzero.imp id fun hall t' ht' => hall t' (List.mem_cons_of_mem _ ht')
      rw [ih _ hrest hothers, putTo_whole hs hn, if_neg hmatch, Token.whole, if_neg hmatch, Nat.zero_add]

theorem foldl_seconds (units : Part → ℕ)
    (hcarry : (units .seconds = 0 ∧ ∀ t ∈ ts, t.sub = true → t.total < nanosPerSecond) ∨
      ∀ t ∈ ts, t.slot ≠ 6) (hnodup : (ts.map Token.slot).Nodup) :
    ts.foldl Token.putTo units .seconds = units .seconds + (ts.map Token.secondsPart).sum := by
  induction ts generalizing units with
  | nil => rfl
  | cons t ts ih =>
    obtain ⟨hnot, hrest⟩ := List.nodup_cons.mp hnodup
    rw [List.foldl_cons, List.map_cons, List.sum_cons]
    by_cases hsix : t.slot = 6
    · have hothers : ∀ t' ∈ ts, t'.slot ≠ 6 := by
        intro t' ht' heq
        exact hnot (by rw [hsix, ← heq]; exact List.mem_map_of_mem ht')
      have hzero : units .seconds = 0 := by
        rcases hcarry with ⟨hzero, -⟩ | hnone
        · exact hzero
        · exact absurd hsix (hnone t List.mem_cons_self)
      rw [ih _ (.inr hothers) hrest, Token.putTo, if_pos hsix, Token.secondsPart, if_pos hsix, hzero,
        Nat.zero_add]
    · have hstep : t.putTo units .seconds = units .seconds + t.secondsPart := by
        rw [Token.putTo, if_neg hsix, Token.secondsPart, if_neg hsix]
        split <;> rfl
      have hnext : (t.putTo units .seconds = 0 ∧ ∀ t ∈ ts, t.sub = true → t.total < nanosPerSecond) ∨
          ∀ t ∈ ts, t.slot ≠ 6 := by
        rcases hcarry with ⟨hzero, hsmall⟩ | hnone
        · refine .inl ⟨?_, fun t' ht' => hsmall t' (List.mem_cons_of_mem _ ht')⟩
          rw [hstep, hzero, Token.secondsPart, if_neg hsix, Nat.zero_add]
          split
          · exact Nat.div_eq_of_lt (hsmall t List.mem_cons_self ‹_›)
          · rfl
        · exact .inr fun t' ht' => hnone t' (List.mem_cons_of_mem _ ht')
      rw [ih _ hnext hrest, hstep, Nat.add_assoc]

theorem sum_meaning (ts : List Token) : (ts.map Token.meaning).sum =
    (ts.map Token.secondsPart).sum * nanosPerSecond + (ts.map Token.nanosPart).sum := by
  induction ts with
  | nil => rfl
  | cons t ts ih =>
    have htotal := Nat.div_add_mod' t.total nanosPerSecond
    have hone : t.meaning = t.secondsPart * nanosPerSecond + t.nanosPart := by
      unfold Token.meaning Token.secondsPart Token.nanosPart
      split
      · rfl
      · split
        · exact htotal.symm
        · rfl
    rw [List.map_cons, List.sum_cons, ih, hone, List.map_cons, List.sum_cons, List.map_cons,
      List.sum_cons]
    ring

/-- The units at the end of the text, what is past a second carried. -/
def carried (units : Part → ℕ) : Part → ℕ :=
  let units := Function.update units .seconds (units .seconds + units .nanos / nanosPerSecond)
  Function.update units .nanos (units .nanos % nanosPerSecond)

theorem skipSpaces_replicate {rest : List UInt8} (hrest : Behind rest) (spaces pos : ℕ) :
    ∃ pos', skipSpaces ⟨List.replicate spaces (ascii ' ') ++ rest, pos⟩ = ⟨rest, pos'⟩ := by
  have hspace : ∀ b ∈ List.replicate spaces (ascii ' '), (b == ascii ' ') = true := by
    intro b hb
    rw [(List.mem_replicate.mp hb).2]
    rfl
  have hstop : ∀ b, rest.head? = some b → (b == ascii ' ') = false := by
    intro b hb
    have hdigit := hrest b hb
    by_contra hne
    have heq : b = ascii ' ' := by simpa using hne
    rw [heq] at hdigit
    cases hdigit
  refine ⟨pos + spaces, ?_⟩
  simp only [skip, skipSpaces, takeWhile_append_stop hspace hstop, List.length_replicate,
    List.drop_left' List.length_replicate]

/-- What the tokens leave, when every part of a second fits. -/
def tally (ts : List Token) : Part → ℕ := ts.foldl Token.putTo fun _ => 0

theorem flatMap_ne_nil (hne : ts ≠ []) : ts.flatMap Token.text ≠ [] := by
  obtain ⟨t, ts, rfl⟩ := List.exists_cons_of_ne_nil hne
  intro hnil
  have htext := (List.append_eq_nil_iff.mp hnil).1
  exact t.digits_ne (by simp [Token.text] at htext; exact htext.1)

theorem friendly_tokens (hne : ts ≠ []) (hnodup : (ts.map Token.slot).Nodup)
    (hfits : ∀ t ∈ ts, t.fits = true) (spaces pos : ℕ) :
    friendly ⟨List.replicate spaces (ascii ' ') ++ ts.flatMap Token.text, pos⟩ =
      if i64Max < carried (tally ts) .seconds then
        .error (.unparsed 0 "seconds no greater than 9223372036854775807")
      else .ok (carried (tally ts)) := by
  obtain ⟨pos', hskip⟩ := skipSpaces_replicate (behind_flatMap ts) spaces pos
  have hread := (friendlyFrom_tokens (ts.flatMap Token.text).length (fun _ => 0)
    (fun _ => false) (fun _ _ => rfl) hnodup pos' (Nat.le_refl _)).1 _ (foldlM_put _ hfits)
  unfold friendly
  rw [hskip]
  dsimp only
  rw [if_neg (flatMap_ne_nil hne), hread]
  rfl

theorem friendly_unfit (hne : ts ≠ []) (hnodup : (ts.map Token.slot).Nodup) (ht : t ∈ ts)
    (hfits : t.fits = false) (spaces pos : ℕ) :
    ∃ e, friendly ⟨List.replicate spaces (ascii ' ') ++ ts.flatMap Token.text, pos⟩ = .error e := by
  obtain ⟨pos', hskip⟩ := skipSpaces_replicate (behind_flatMap ts) spaces pos
  obtain ⟨e, he⟩ := (friendlyFrom_tokens (ts.flatMap Token.text).length (fun _ => 0)
    (fun _ => false) (fun _ _ => rfl) hnodup pos' (Nat.le_refl _)).2
    (foldlM_put_none _ ht hfits)
  refine ⟨e, ?_⟩
  unfold friendly
  rw [hskip]
  dsimp only
  rw [if_neg (flatMap_ne_nil hne), he]
  rfl

/-- A friendly text is read behind its sign. -/
theorem parse_friendlyText (negative : Bool) (spaces : ℕ) (ts : List Token) : ∃ pos,
    Span.parse (friendlyText negative spaces ts) =
      (friendly ⟨List.replicate spaces (ascii ' ') ++ ts.flatMap Token.text, pos⟩).map
        (Span.fromParts · negative) := by
  obtain ⟨rest, hrest⟩ : ∃ rest, rest = List.replicate spaces (ascii ' ') ++ ts.flatMap Token.text :=
    ⟨_, rfl⟩
  have hhead : ∀ b, rest.head? = some b → asciiDigit b = true ∨ b = ascii ' ' := by
    intro b hb
    rw [hrest] at hb
    cases spaces with
    | zero => exact .inl (behind_flatMap ts b hb)
    | succ spaces =>
      cases hb
      exact .inr rfl
  have hnot (c : UInt8) (hc : asciiDigit c = false ∧ c ≠ ascii ' ') : rest.head? ≠ some c := by
    intro hb
    rcases hhead c hb with hdigit | hspace
    · rw [hc.1] at hdigit
      cases hdigit
    · exact hc.2 hspace
  have hminus := hnot (ascii '-') ⟨rfl, by decide⟩
  have hplus := hnot (ascii '+') ⟨rfl, by decide⟩
  have hupper := hnot (ascii 'P') ⟨rfl, by decide⟩
  have hlower := hnot (ascii 'p') ⟨rfl, by decide⟩
  rw [← hrest]
  have htext : friendlyText negative spaces ts = (if negative then [ascii '-'] else []) ++ rest := by
    rw [hrest, friendlyText, List.append_assoc]
  rw [htext]
  cases negative with
  | false =>
    refine ⟨0, ?_⟩
    simp only [Bool.false_eq_true, if_false, List.nil_append, Span.parse, Span.signOf, Cursor.start,
      beq_eq_false_iff_ne.mpr hminus, beq_eq_false_iff_ne.mpr hplus, Bool.not_false, Bool.true_and,
      Bool.false_and, hupper, hlower, or_self]
    cases friendly ⟨rest, 0⟩ <;> rfl
  | true =>
    refine ⟨1, ?_⟩
    simp only [if_true, List.singleton_append, Span.parse, Span.signOf, Cursor.start, List.head?_cons,
      beq_self_eq_true, Bool.not_true, Bool.false_and, Bool.false_eq_true, if_false, skip,
      List.drop_succ_cons, List.drop_zero, Nat.zero_add, hupper, hlower, or_self]
    cases friendly ⟨rest, 1⟩ <;> rfl

variable {negative : Bool} {spaces : ℕ} {ts' : List Token} {s : Span}

/-- If some order of the tokens is read, every order is, and as what the tokens mean together. -/
def OrderFree (negative : Bool) (spaces : ℕ) (ts : List Token) : Prop :=
  (∃ ts' s, ts'.Perm ts ∧ Span.parse (friendlyText negative spaces ts') = .ok s) →
    ∀ ts', ts'.Perm ts →
      Span.parse (friendlyText negative spaces ts') = .ok (Span.fromParts (sumOf ts) negative)

/-- A token of seconds stands beside a part of a second that comes to a second or more, and neither is
too large to be read. -/
structure Loses (ts : List Token) : Prop where
  carries : ∃ t ∈ ts, t.sub = true ∧ nanosPerSecond ≤ t.total
  fits : ∀ t ∈ ts, t.fits = true
  seconds : ∃ t ∈ ts, t.slot = 6 ∧ t.n + (ts.map Token.nanosPart).sum / nanosPerSecond ≤ i64Max

theorem sumOf_perm (h : ts'.Perm ts) : sumOf ts' = sumOf ts := by
  have hmeaning := (h.map Token.meaning).sum_eq
  funext p
  cases p with
  | seconds => exact congrArg (· / nanosPerSecond) hmeaning
  | nanos => exact congrArg (· % nanosPerSecond) hmeaning
  | _ => exact (h.map _).sum_eq

theorem carried_seconds (ts : List Token) : carried (tally ts) .seconds =
    tally ts .seconds + (ts.map Token.nanosPart).sum / nanosPerSecond := by
  have hnanos : tally ts .nanos = (ts.map Token.nanosPart).sum := by
    rw [tally, foldl_nanos, Nat.zero_add]
  rw [← hnanos]
  rfl

theorem sumOf_seconds (ts : List Token) : sumOf ts .seconds =
    (ts.map Token.secondsPart).sum + (ts.map Token.nanosPart).sum / nanosPerSecond := by
  rw [sumOf, sum_meaning, Nat.add_comm, Nat.add_mul_div_right _ _ (by decide), Nat.add_comm]

theorem carried_eq_sumOf (hnodup : (ts.map Token.slot).Nodup)
    (hcarry : (∀ t ∈ ts, t.sub = true → t.total < nanosPerSecond) ∨ ∀ t ∈ ts, t.slot ≠ 6) :
    carried (tally ts) = sumOf ts := by
  have hnanos : tally ts .nanos = (ts.map Token.nanosPart).sum := by
    rw [tally, foldl_nanos, Nat.zero_add]
  have hwhole (p : Part) (hs : p ≠ .seconds) (hn : p ≠ .nanos) :
      carried (tally ts) p = (ts.map fun t => t.whole p).sum := by
    rw [carried, Function.update_of_ne hn, Function.update_of_ne hs, tally,
      foldl_whole hs hn _ hnodup (.inl rfl), Nat.zero_add]
  funext p
  cases p with
  | seconds =>
    rw [carried_seconds, sumOf_seconds, tally,
      foldl_seconds _ (hcarry.imp (fun h => ⟨rfl, h⟩) id) hnodup, Nat.zero_add]
  | nanos =>
    rw [sumOf, sum_meaning, Nat.add_comm, Nat.add_mul_mod_self_right, ← hnanos]
    rfl
  | years => exact hwhole .years nofun nofun
  | months => exact hwhole .months nofun nofun
  | weeks => exact hwhole .weeks nofun nofun
  | days => exact hwhole .days nofun nofun
  | hours => exact hwhole .hours nofun nofun
  | minutes => exact hwhole .minutes nofun nofun

theorem parse_tokens (hne : ts ≠ []) (hnodup : (ts.map Token.slot).Nodup)
    (hfits : ∀ t ∈ ts, t.fits = true) (hmax : carried (tally ts) .seconds ≤ i64Max) :
    Span.parse (friendlyText negative spaces ts) =
      .ok (Span.fromParts (carried (tally ts)) negative) := by
  obtain ⟨pos, hparse⟩ := parse_friendlyText negative spaces ts
  rw [hparse, friendly_tokens hne hnodup hfits, if_neg (Nat.not_lt.mpr hmax)]
  rfl

theorem read_tokens (hnodup : (ts.map Token.slot).Nodup)
    (hread : Span.parse (friendlyText negative spaces ts) = .ok s) :
    ts ≠ [] ∧ (∀ t ∈ ts, t.fits = true) ∧ carried (tally ts) .seconds ≤ i64Max := by
  obtain ⟨pos, hparse⟩ := parse_friendlyText negative spaces ts
  rw [hparse] at hread
  have hne : ts ≠ [] := by
    rintro rfl
    obtain ⟨pos', hskip⟩ := skipSpaces_replicate (show Behind [] from nofun) spaces pos
    rw [List.flatMap_nil, friendly, hskip] at hread
    cases hread
  have hfits : ∀ t ∈ ts, t.fits = true := by
    intro t ht
    by_contra hunfit
    obtain ⟨e, he⟩ := friendly_unfit hne hnodup ht (by simpa using hunfit) spaces pos
    rw [he] at hread
    cases hread
  refine ⟨hne, hfits, ?_⟩
  rw [friendly_tokens hne hnodup hfits] at hread
  by_contra hmax
  rw [if_pos (Nat.not_le.mp hmax)] at hread
  cases hread

theorem le_tally_seconds (hnodup : (ts.map Token.slot).Nodup) (ht : t ∈ ts) (hsix : t.slot = 6)
    (units : Part → ℕ) : t.n ≤ ts.foldl Token.putTo units .seconds := by
  induction ts generalizing units with
  | nil => cases ht
  | cons t' ts ih =>
    obtain ⟨hnot, hrest⟩ := List.nodup_cons.mp hnodup
    rw [List.foldl_cons]
    rcases List.mem_cons.mp ht with rfl | hmem
    · have hothers : ∀ t' ∈ ts, t'.slot ≠ 6 := by
        intro t' ht' heq
        exact hnot (by rw [hsix, ← heq]; exact List.mem_map_of_mem ht')
      rw [foldl_seconds _ (.inr hothers) hrest, Token.putTo, if_pos hsix]
      exact Nat.le_add_right _ _
    · exact ih hrest hmem _

/-- The order of friendly tokens shows exactly where a part of a second that comes to a second or more
stands beside the seconds. -/
theorem orderFree_iff (hnodup : (ts.map Token.slot).Nodup) :
    OrderFree negative spaces ts ↔ ¬ Loses ts := by
  constructor
  · rintro hfree ⟨⟨sub, hsub, hissub, hcarries⟩, hfits, seconds, hseconds, hsix, hmax⟩
    obtain ⟨before, after, rfl⟩ := List.append_of_mem hseconds
    -- the seconds after everything else
    obtain ⟨late, hlate⟩ : ∃ late, late = before ++ after ++ [seconds] := ⟨_, rfl⟩
    have hperm : late.Perm (before ++ seconds :: after) := by
      rw [hlate]
      exact (List.perm_append_singleton seconds (before ++ after)).trans List.perm_middle.symm
    have hnodup' := (hperm.map Token.slot).nodup_iff.mpr hnodup
    have htally : tally late .seconds = seconds.n := by
      rw [tally, hlate, List.foldl_append, List.foldl_cons, List.foldl_nil, Token.putTo, if_pos hsix]
    have hnanos := (hperm.map Token.nanosPart).sum_eq
    have hmax' : carried (tally late) .seconds ≤ i64Max := by
      rw [carried_seconds, htally, hnanos]
      exact hmax
    have hne : late ≠ [] := by
      rw [hlate]
      simp
    have hread : Span.parse (friendlyText negative spaces late) =
        .ok (Span.fromParts (carried (tally late)) negative) := parse_tokens hne hnodup'
      (fun t ht => hfits t (hperm.mem_iff.mp ht)) hmax'
    have hsum := hfree ⟨late, _, hperm, hread⟩ late hperm
    rw [hread] at hsum
    have hunits := congrArg Span.units (Except.ok.inj hsum)
    rw [Span.fromParts, Span.fromParts, Span.normalised_units, Span.normalised_units] at hunits
    have hseconds' := congrFun hunits .seconds
    dsimp only at hseconds'
    rw [carried_seconds, htally, hnanos, sumOf_seconds] at hseconds'
    have hlow : seconds.n + sub.total / nanosPerSecond ≤
        ((before ++ seconds :: after).map Token.secondsPart).sum := by
      have hother : sub ∈ before ++ after := by
        rcases List.mem_append.mp hsub with hmem | hmem
        · exact List.mem_append_left _ hmem
        · rcases List.mem_cons.mp hmem with rfl | hmem
          · rw [Token.sub, hsix] at hissub
            cases hissub
          · exact List.mem_append_right _ hmem
      have hnot : sub.slot ≠ 6 := by
        intro heq
        rw [Token.sub, heq] at hissub
        cases hissub
      have hpart : sub.secondsPart = sub.total / nanosPerSecond := by
        rw [Token.secondsPart, if_neg hnot, if_pos hissub]
      have hone : seconds.secondsPart = seconds.n := if_pos hsix
      have hle := List.le_sum_of_mem (List.mem_map_of_mem (f := Token.secondsPart) hother)
      rw [hpart, List.map_append, List.sum_append] at hle
      rw [List.map_append, List.sum_append, List.map_cons, List.sum_cons, hone]
      omega
    have hpos : 0 < sub.total / nanosPerSecond := Nat.div_pos hcarries (by decide)
    omega
  · rintro hkeeps ⟨ts₁, s, hperm₁, hread⟩ ts' hperm
    obtain ⟨hne₁, hfits₁, hmax₁⟩ := read_tokens ((hperm₁.map Token.slot).nodup_iff.mpr hnodup) hread
    have hfits : ∀ t ∈ ts, t.fits = true := fun t ht => hfits₁ t (hperm₁.mem_iff.mpr ht)
    have hcarry : (∀ t ∈ ts, t.sub = true → t.total < nanosPerSecond) ∨ ∀ t ∈ ts, t.slot ≠ 6 := by
      by_contra hneither
      push Not at hneither
      obtain ⟨⟨sub, hsub, hissub, hcarries⟩, seconds, hseconds, hsix⟩ := hneither
      refine hkeeps ⟨⟨sub, hsub, hissub, hcarries⟩, hfits, seconds, hseconds, hsix, ?_⟩
      have hle := le_tally_seconds ((hperm₁.map Token.slot).nodup_iff.mpr hnodup)
        (hperm₁.mem_iff.mpr hseconds) hsix fun _ => 0
      rw [carried_seconds, (hperm₁.map Token.nanosPart).sum_eq] at hmax₁
      exact (Nat.add_le_add_right hle _).trans hmax₁
    have hsum (ts' : List Token) (hperm : ts'.Perm ts) : carried (tally ts') = sumOf ts := by
      rw [← sumOf_perm hperm]
      refine carried_eq_sumOf ((hperm.map Token.slot).nodup_iff.mpr hnodup) ?_
      exact hcarry.imp (fun h t ht => h t (hperm.mem_iff.mp ht)) fun h t ht => h t (hperm.mem_iff.mp ht)
    rw [← hsum ts' hperm]
    refine parse_tokens ?_ ((hperm.map Token.slot).nodup_iff.mpr hnodup)
      (fun t ht => hfits t (hperm.mem_iff.mp ht)) ?_
    · rintro rfl
      have hnil : ts = [] := List.nil_perm.mp hperm
      rw [hnil] at hperm₁
      exact hne₁ (List.perm_nil.mp hperm₁)
    · rw [hsum ts' hperm, ← hsum ts₁ hperm₁]
      exact hmax₁

/-- Five seconds. -/
def fiveSeconds : Token :=
  ⟨[ascii '5'], none, [ascii 's'], 6, 0, 0, by decide +kernel, by decide +kernel, by decide +kernel, nofun,
    by decide +kernel, by decide +kernel⟩

/-- A thousand milliseconds. -/
def thousandMillis : Token :=
  ⟨[ascii '1', ascii '0', ascii '0', ascii '0'], none, [ascii 'm', ascii 's'], 7, 1000000, 0,
    by decide +kernel, by decide +kernel, by decide +kernel, nofun, by decide +kernel, by decide +kernel⟩

/-- Half a second beside five seconds shows no order. -/
theorem orderFree_half : OrderFree false 0
    [⟨[ascii '5', ascii '0', ascii '0'], none, [ascii 'm', ascii 's'], 7, 1000000, 0, by decide +kernel,
      by decide +kernel, by decide +kernel, nofun, by decide +kernel, by decide +kernel⟩, fiveSeconds] := by
  refine (orderFree_iff (by decide)).mpr fun hloses => ?_
  obtain ⟨t, ht, hsub, htotal⟩ := hloses.carries
  revert hsub htotal
  rcases List.mem_pair.mp ht with rfl | rfl <;> decide

/-- Five seconds and a thousand milliseconds are six seconds, and five when the seconds come last. -/
theorem not_orderFree : ¬ ∀ (negative : Bool) (spaces : ℕ) (ts : List Token),
    (ts.map Token.slot).Nodup → OrderFree negative spaces ts := by
  intro hall
  have hfree := hall false 0 [fiveSeconds, thousandMillis] (by decide)
  obtain ⟨s, hs⟩ : ∃ s, Span.parse (friendlyText false 0 [fiveSeconds, thousandMillis]) = .ok s :=
    ⟨_, rfl⟩
  have hlast := hfree ⟨_, s, List.Perm.refl _, hs⟩ [thousandMillis, fiveSeconds] (List.Perm.swap _ _ _)
  have hfive : (Span.parse (friendlyText false 0 [thousandMillis, fiveSeconds])).map
      (fun s => s.units .seconds) = .ok 5 := by decide +kernel
  rw [hlast] at hfive
  revert hfive
  decide +kernel

end Guatiao.Civil
