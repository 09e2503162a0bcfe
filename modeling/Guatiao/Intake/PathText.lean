import Guatiao.Intake.Path
import Guatiao.Lib.Bracketed

/-!
# A path and its text

The parser reads a text segment by segment, and so do the segments of a path, the cut before its last
segment and the list of where each ends. All of them accept the texts of one grammar and see the same
segments in them.
-/

namespace Guatiao.Intake

open Lib

/-- A parsed path: the text it was parsed from. -/
structure Path where
  text : Text
  deriving DecidableEq

/-- The loop of `parse`, on what is left and where that starts, in at most so many rounds. -/
def parseFrom : ℕ → Text → ℕ → Except PathError Unit
  | _, [], _ => .ok ()
  | 0, _ :: _, at_ => .error (.emptyField at_)
  | fuel + 1, c :: rest, at_ =>
    match step (c :: rest) (at_ == 0) with
    | .ok (some (_, read)) => parseFrom fuel ((c :: rest).drop read) (at_ + read)
    | .ok none => .error (.emptyField at_)
    | .error e => .error (offsetBy at_ e)

/-- Where a place in a text is, counted in the bytes before it. -/
def bytesTo (text : Text) (at_ : ℕ) : ℕ := ((text.take at_).map Char.utf8Size).sum

/-- Reads a path, checking the whole of it. The place of an error is one of the text's bytes. -/
def parse (text : Text) : Except PathError Path :=
  if text = [] then .error .empty
  else if text.head? = some '.' then .error (.emptyField 0)
  else
    match parseFrom text.length text 0 with
    | .ok () => .ok ⟨text⟩
    | .error e => .error (e.movedBy (bytesTo text))

example : parse "à..b".toList = .error (.emptyField 3) := by decide

/-- The segments of a path that are still to come: what is left, and where that starts. -/
structure Segments where
  rest : Text
  at_ : ℕ

/-- The next segment. -/
def Segments.next (it : Segments) : Option (Segment × Segments) :=
  match step it.rest (it.at_ == 0) with
  | .ok (some (segment, read)) => some (segment, ⟨it.rest.drop read, it.at_ + read⟩)
  | _ => none

/-- At most so many segments, each with the place behind it. -/
def Segments.walk : ℕ → Segments → List (Segment × ℕ)
  | 0, _ => []
  | fuel + 1, it =>
    match it.next with
    | some (segment, it') => (segment, it'.at_) :: it'.walk fuel
    | none => []

/-- A path's segments, each with the place behind it. -/
def Path.walk (p : Path) : List (Segment × ℕ) := Segments.walk p.text.length ⟨p.text, 0⟩

/-- A path's segments, in order. -/
def Path.segments (p : Path) : List Segment := p.walk.map Prod.fst

/-- The loop of `split_last`: the last segment and where it starts. -/
def splitLastFrom : ℕ → Text → ℕ → Option (ℕ × Segment) → Option (ℕ × Segment)
  | _, [], _, last => last
  | 0, _ :: _, _, _ => none
  | fuel + 1, c :: rest, at_, _ =>
    match step (c :: rest) (at_ == 0) with
    | .ok (some (segment, read)) =>
      splitLastFrom fuel ((c :: rest).drop read) (at_ + read) (some (at_, segment))
    | _ => none

/-- A path without its last segment, and that segment; none for a text that is not a path or has one
segment only. -/
def splitLast (text : Text) : Option (Text × Segment) :=
  match parse text with
  | .error _ => none
  | .ok _ =>
    match splitLastFrom text.length text 0 none with
    | some (start, segment) => if 0 < start then some (text.take start, segment) else none
    | none => none

/-- The text of some segments: each as it displays, with a dot before a name that is not the first. -/
def assemble : List Segment → Text
  | [] => []
  | segment :: segments => segment.display ++ render segments

/-- The characters that may stand behind a backslash. -/
def Escapable (c : Char) : Prop := c = '"' ∨ c = '\\'

/-- What a piece is read as. -/
def Segment.ofPiece : Piece → Segment
  | .name n => .field n
  | .bare inside =>
    match indexOf inside with
    | some at_ => .index at_
    | none => .key inside
  | .quoted body => .key (body.map Prod.snd)

/-- The piece a segment is written as. -/
def Segment.piece : Segment → Piece
  | .field name => .name name
  | .index at_ => .bare (toString at_).toList
  | .key k =>
    if needsQuoting k then .quoted (k.map fun c => (c == '"' || c == '\\', c)) else .bare k

theorem nameEnds_iff {c : Char} : nameEnds c = true ↔ EndsName c := by
  simp [nameEnds, EndsName, or_assoc]

theorem written_escaped (key : Text) :
    Piece.written (key.map fun c => (c == '"' || c == '\\', c)) = escaped key := by
  induction key with
  | nil => rfl
  | cons c key ih =>
    rw [List.map_cons, Piece.written_cons, ih, escaped]
    split
    · rfl
    · rfl

theorem written_eq {body : List (Bool × Char)} (h : (Piece.quoted body).Valid Escapable) :
    Piece.written body = escaped (body.map Prod.snd) := by
  rw [← written_escaped, List.map_map]
  congr 1
  conv_lhs => rw [← List.map_id body]
  refine List.map_congr_left fun x hx => ?_
  obtain ⟨hesc, hplain⟩ := h x hx
  obtain ⟨b, c⟩ := x
  cases b with
  | true =>
    rcases hesc rfl with hc | hc <;> simp [Function.comp, show c = _ from hc]
  | false =>
    obtain ⟨hquote, hback⟩ := hplain rfl
    simp [Function.comp, show c ≠ '"' from hquote, show c ≠ '\\' from hback]

variable {p : Piece} {rest k text : Text} {read : ℕ} {s : Segment}

theorem step_piece (h : p.Valid Escapable) (first : Bool) (hrest : Boundary rest) :
    step (p.text first ++ rest) first = .ok (some (.ofPiece p, (p.text first).length)) := by
  cases p with
  | name n =>
    have hbare : isBareName n = true :=
      isBareName_iff.mpr ⟨h.1, fun c hc => by
        rw [Bool.eq_false_iff]
        exact fun hends => h.2 c hc (nameEnds_iff.mp hends)⟩
    cases first with
    | true => exact step_name hbare hrest
    | false =>
      have hstep := step_dot hbare hrest
      rw [Nat.add_comm] at hstep
      exact hstep
  | bare inside =>
    obtain ⟨hne, hquote, hplain⟩ := h
    have hstep := step_open first (bracket_bare rest hne hquote hplain)
    have hlen : ((Piece.bare inside).text first).length = inside.length + 2 := by
      simp [Piece.text]
    rw [hlen]
    cases hindex : indexOf inside with
    | none => simpa [Piece.text, Segment.ofPiece, hindex] using hstep
    | some at_ => simpa [Piece.text, Segment.ofPiece, hindex] using hstep
  | quoted body =>
    have hstep := step_open first (bracket_quoted (body.map Prod.snd) rest)
    rw [← written_eq h] at hstep
    simpa [Piece.text, Segment.ofPiece] using hstep

/-- What a quoted key is read from. -/
theorem quotedFrom_sound {out : Text} {at_ : ℕ} {quoted : Text}
    (h : quotedFrom out at_ quoted = .ok (k, read)) : ∃ body tail,
      (Piece.quoted body).Valid Escapable ∧ k = out ++ body.map Prod.snd ∧
      quoted = Piece.written body ++ '"' :: tail ∧ read = at_ + (Piece.written body).length + 1 := by
  induction out, at_, quoted using quotedFrom.induct with
  | case1 out at_ => cases h
  | case2 out at_ tail =>
    cases h
    exact ⟨[], tail, (fun _ hx => by cases hx), by simp, rfl, rfl⟩
  | case3 out at_ rest ih =>
    obtain ⟨body, tail, hbody, hk, hquoted, hread⟩ := ih h
    refine ⟨(true, '"') :: body, tail, List.forall_mem_cons.mpr ⟨⟨fun _ => .inl rfl, (by intros; contradiction)⟩, hbody⟩, ?_, ?_,
      ?_⟩
    · simp [hk]
    · simp [hquoted]
    · simp [hread]
      omega
  | case4 out at_ rest ih =>
    obtain ⟨body, tail, hbody, hk, hquoted, hread⟩ := ih h
    refine ⟨(true, '\\') :: body, tail, List.forall_mem_cons.mpr ⟨⟨fun _ => .inr rfl, (by intros; contradiction)⟩, hbody⟩, ?_,
      ?_, ?_⟩
    · simp [hk]
    · simp [hquoted]
    · simp [hread]
      omega
  | case5 out at_ rest hquote hback =>
    have herror : quotedFrom out at_ ('\\' :: rest) = .error (.badEscape (at_ + 1)) := by
      rw [quotedFrom]
      all_goals assumption
    rw [herror] at h
    cases h
  | case6 out at_ c rest hquote hq hb hback ih =>
    have hnext : quotedFrom out at_ (c :: rest) = quotedFrom (out ++ [c]) (at_ + 1) rest := by
      rw [quotedFrom]
      all_goals assumption
    rw [hnext] at h
    obtain ⟨body, tail, hbody, hk, hquoted, hread⟩ := ih h
    refine ⟨(false, c) :: body, tail, List.forall_mem_cons.mpr ⟨⟨(by intros; contradiction), fun _ => ⟨hquote, hback⟩⟩, hbody⟩,
      ?_, ?_, ?_⟩
    · simp [hk]
    · simp [hquoted]
    · simp [hread]
      omega

theorem bare_of_close {inside : Text} {close : ℕ} (h : inside.findIdx? (· == ']') = some close)
    (hhead : inside.head? ≠ some '"') (hzero : close ≠ 0) (hopen : (inside.take close).any (· == '[') ≠ true) :
    (Piece.bare (inside.take close)).Valid Escapable ∧ (inside.take close).length = close ∧
      inside = inside.take close ++ ']' :: inside.drop (close + 1) := by
  obtain ⟨hlt, his, hnot⟩ := List.findIdx?_eq_some_iff_getElem.mp h
  have hsplit : inside = inside.take close ++ ']' :: inside.drop (close + 1) := by
    rw [← beq_iff_eq.mp his, ← List.drop_eq_getElem_cons hlt, List.take_append_drop]
  have hlen : (inside.take close).length = close := List.length_take_of_le (Nat.le_of_lt hlt)
  refine ⟨⟨fun hnil => hzero (by rw [← hlen, hnil]; rfl), fun hquote => ?_, fun c hc => ⟨?_, ?_⟩⟩, hlen,
    hsplit⟩
  · apply hhead
    rw [hsplit, List.head?_append, hquote]
    rfl
  · rintro rfl
    exact hopen (List.any_eq_true.mpr ⟨_, hc, beq_self_eq_true _⟩)
  · rintro rfl
    obtain ⟨i, hi, hget⟩ := List.mem_take_iff_getElem.mp hc
    exact absurd (hnot i (by omega)) (by simp [hget])

theorem quoted_sound {quoted : Text} (h : bracket ('[' :: '"' :: quoted) = .ok (s, read)) : ∃ body tail,
      (Piece.quoted body).Valid Escapable ∧ s = .key (body.map Prod.snd) ∧
      quoted = Piece.written body ++ '"' :: ']' :: tail ∧ read = (Piece.written body).length + 4 := by
  have hdrop (body tail : List Char) : ('"' :: (body ++ '"' :: tail)).drop (1 + (0 + body.length + 1)) =
      tail := by
    rw [show 1 + (0 + body.length + 1) = (body ++ ['"']).length + 1 by simp; omega,
      List.drop_succ_cons, show body ++ '"' :: tail = (body ++ ['"']) ++ tail by simp, List.drop_left]
  unfold bracket at h
  simp only [List.drop_succ_cons, List.drop_zero, List.head?_cons, beq_self_eq_true, if_true] at h
  split at h
  · cases h
  · rename_i k r hkey
    obtain ⟨body, tail, hbody, rfl, rfl, rfl⟩ := quotedFrom_sound hkey
    rw [hdrop] at h
    split at h
    · rename_i hclose
      cases h
      cases tail with
      | nil => simp at hclose
      | cons c tail =>
        simp only [List.head?_cons, Option.some_beq_some, beq_iff_eq] at hclose
        refine ⟨body, tail, hbody, rfl, ?_, ?_⟩
        · rw [hclose]
        · omega
    · cases h

theorem bracket_sound {inside : Text}
    (h : bracket ('[' :: inside) = .ok (s, read)) : ∃ p tail, p.Valid Escapable ∧ s = .ofPiece p ∧
      ∀ first, '[' :: inside = p.text first ++ tail ∧ read = (p.text first).length := by
  by_cases hhead : inside.head? = some '"'
  · obtain ⟨quoted, rfl⟩ : ∃ quoted, inside = '"' :: quoted := by
      cases inside with
      | nil => cases hhead
      | cons c quoted => exact ⟨quoted, by rw [Option.some.inj hhead]⟩
    obtain ⟨body, tail, hbody, rfl, rfl, rfl⟩ := quoted_sound h
    exact ⟨.quoted body, tail, hbody, rfl, fun first => ⟨by simp [Piece.text], by simp [Piece.text]⟩⟩
  · unfold bracket at h
    simp only [List.drop_succ_cons, List.drop_zero, beq_iff_eq, hhead, if_false] at h
    split at h
    · cases h
    · rename_i close hclose
      split at h
      · cases h
      · rename_i hzero
        split at h
        · cases h
        · rename_i hopen
          obtain ⟨hvalid, hlen, hsplit⟩ := bare_of_close hclose hhead hzero hopen
          obtain ⟨hs, hread⟩ : s = .ofPiece (.bare (inside.take close)) ∧ read = 1 + close + 1 := by
            cases hindex : indexOf (inside.take close) with
            | some at_ =>
              rw [hindex] at h
              cases h
              exact ⟨by rw [Segment.ofPiece, hindex], rfl⟩
            | none =>
              rw [hindex] at h
              cases h
              exact ⟨by rw [Segment.ofPiece, hindex], rfl⟩
          refine ⟨.bare (inside.take close), inside.drop (close + 1), hvalid, hs, fun first => ⟨?_, ?_⟩⟩
          · conv_lhs => rw [hsplit]
            simp [Piece.text]
          · rw [hread]
            simp [Piece.text, hlen]
            omega

theorem name_sound {body : Text} (hzero : body.findIdx nameEnds ≠ 0) :
    (Piece.name (body.take (body.findIdx nameEnds))).Valid Escapable ∧
      (body.take (body.findIdx nameEnds)).length = body.findIdx nameEnds := by
  have hlen : (body.take (body.findIdx nameEnds)).length = body.findIdx nameEnds :=
    List.length_take_of_le List.findIdx_le_length
  refine ⟨⟨fun hnil => hzero (by rw [← hlen, hnil]; rfl), fun c hc hends => ?_⟩, hlen⟩
  obtain ⟨i, hi, rfl⟩ := List.mem_take_iff_getElem.mp hc
  have hnot := List.not_of_lt_findIdx (show i < body.findIdx nameEnds by omega)
  rw [nameEnds_iff.mpr hends] at hnot
  cases hnot

/-- A segment that is read is a piece at the front of the text. -/
theorem step_sound {first : Bool}
    (h : step rest first = .ok (some (s, read))) (hdot : first = true → rest.head? ≠ some '.') :
    ∃ p tail, p.Valid Escapable ∧ s = .ofPiece p ∧ rest = p.text first ++ tail ∧
      read = (p.text first).length := by
  unfold step at h
  split at h
  · cases h
  · rename_i hne
    dsimp only at h
    by_cases hskip : rest.head? = some '.'
    · obtain ⟨body, rfl⟩ : ∃ body, rest = '.' :: body := by
        cases rest with
        | nil => cases hskip
        | cons c body => exact ⟨body, by rw [Option.some.inj hskip]⟩
      have hfirst : first = false := by
        cases first with
        | false => rfl
        | true => exact absurd hskip (hdot rfl)
      subst hfirst
      simp only [List.head?_cons, beq_self_eq_true, if_true, Nat.one_ne_zero, decide_false, Bool.false_and,
        Bool.false_eq_true, if_false, List.drop_succ_cons, List.drop_zero, beq_iff_eq] at h
      split at h
      · cases h
      · split at h
        · cases h
        · split at h
          · cases h
          · rename_i hzero
            obtain ⟨hvalid, hlen⟩ := name_sound hzero
            cases h
            refine ⟨_, body.drop (body.findIdx nameEnds), hvalid, rfl, ?_, ?_⟩
            · simp [Piece.text]
            · simp [Piece.text, hlen]
              omega
    · simp only [beq_iff_eq, hskip, if_false, decide_true, Bool.true_and, Bool.and_eq_true,
        Bool.not_eq_true', bne_iff_ne, ne_eq, List.drop_zero, Nat.zero_add, Nat.zero_ne_one] at h
      split at h
      · cases h
      · rename_i hsep
        split at h
        · rename_i hopen
          obtain ⟨inside, rfl⟩ : ∃ inside, rest = '[' :: inside := by
            cases rest with
            | nil => cases hopen
            | cons c inside => exact ⟨inside, by rw [Option.some.inj hopen]⟩
          split at h
          · cases h
          · rename_i segment n hbracket
            cases h
            obtain ⟨p, tail, hp, hs, hall⟩ := bracket_sound hbracket
            exact ⟨p, tail, hp, hs, hall first⟩
        · rename_i hopen
          have hfirst : first = true := by
            by_contra hnot
            exact hsep ⟨by simpa using hnot, hopen⟩
          subst hfirst
          split at h
          · cases h
          · split at h
            · cases h
            · rename_i hzero
              obtain ⟨hvalid, hlen⟩ := name_sound hzero
              cases h
              refine ⟨_, rest.drop (rest.findIdx nameEnds), hvalid, rfl, ?_, ?_⟩
              · simp [Piece.text]
              · simp [Piece.text, hlen]

/-- The segments of some pieces, each with the place behind it. -/
def ends : Bool → ℕ → List Piece → List (Segment × ℕ)
  | _, _, [] => []
  | first, at_, p :: pieces =>
    (.ofPiece p, at_ + (p.text first).length) :: ends false (at_ + (p.text first).length) pieces

variable {pieces : List Piece} {first : Bool} {at_ fuel : ℕ}

/-- Whether a place is the start of a path. -/
def Starts (first : Bool) (at_ : ℕ) : Prop := (at_ == 0) = first

theorem Starts.next (hp : p.Valid Escapable) (first : Bool) (at_ : ℕ) :
    Starts false (at_ + (p.text first).length) := by
  have hpos := List.length_pos_iff.mpr (Piece.text_ne_nil hp first)
  unfold Starts
  rw [beq_eq_false_iff_ne]
  omega

theorem step_spelling (hp : p.Valid Escapable) (h : Starts first at_) (pieces : List Piece) :
    step (Piece.spelling first (p :: pieces)) (at_ == 0) =
      .ok (some (.ofPiece p, (p.text first).length)) := by
  rw [h, Piece.spelling_cons]
  exact step_piece hp first (Piece.follows_spelling pieces)

theorem parseFrom_spelling (hall : ∀ p ∈ pieces, p.Valid Escapable) (h : Starts first at_)
    (hfuel : pieces.length ≤ fuel) : parseFrom fuel (Piece.spelling first pieces) at_ = .ok () := by
  induction pieces generalizing fuel first at_ with
  | nil => cases fuel <;> rfl
  | cons p pieces ih =>
    obtain ⟨hp, hrest⟩ := List.forall_mem_cons.mp hall
    cases fuel with
    | zero => simp at hfuel
    | succ fuel =>
      have hstep := step_spelling hp h pieces
      have htail := ih hrest (.next hp first at_) (Nat.le_of_succ_le_succ hfuel)
      rw [Piece.spelling_cons] at hstep ⊢
      cases htext : p.text first with
      | nil => exact absurd htext (Piece.text_ne_nil hp first)
      | cons c text =>
        rw [htext] at hstep htail
        rw [List.cons_append] at hstep ⊢
        rw [parseFrom, hstep]
        dsimp only
        rw [← List.cons_append, List.drop_left]
        exact htail

theorem walk_spelling (hall : ∀ p ∈ pieces, p.Valid Escapable) (h : Starts first at_)
    (hfuel : pieces.length ≤ fuel) :
    Segments.walk fuel ⟨Piece.spelling first pieces, at_⟩ = ends first at_ pieces := by
  induction pieces generalizing fuel first at_ with
  | nil => cases fuel <;> rfl
  | cons p pieces ih =>
    obtain ⟨hp, hrest⟩ := List.forall_mem_cons.mp hall
    cases fuel with
    | zero => simp at hfuel
    | succ fuel =>
      have htail := ih hrest (.next hp first at_) (Nat.le_of_succ_le_succ hfuel)
      rw [Segments.walk, Segments.next, step_spelling hp h]
      dsimp only
      rw [Piece.spelling_cons, List.drop_left, htail]
      rfl

theorem spelledFrom_spelling {before : Text} (hall : ∀ p ∈ pieces, p.Valid Escapable)
    (h : Starts first before.length) (hfuel : pieces.length ≤ fuel) :
    spelledFrom false (before ++ Piece.spelling first pieces) fuel before.length =
      some (ends first before.length pieces) := by
  induction pieces generalizing fuel first before with
  | nil =>
    cases fuel with
    | zero => rfl
    | succ fuel => simp [spelledFrom, ends]
  | cons p pieces ih =>
    obtain ⟨hp, hrest⟩ := List.forall_mem_cons.mp hall
    have hpos := List.length_pos_iff.mpr (Piece.text_ne_nil hp first)
    cases fuel with
    | zero => simp at hfuel
    | succ fuel =>
      have hnext := Starts.next hp first before.length
      rw [← List.length_append] at hnext
      have htail := ih hrest hnext (Nat.le_of_succ_le_succ hfuel)
      have hlong : ¬ (before ++ Piece.spelling first (p :: pieces)).length ≤ before.length := by
        simp only [Piece.spelling_cons, List.length_append]
        omega
      rw [spelledFrom, if_neg hlong, List.drop_left, Bool.not_false, Bool.and_true, step_spelling hp h]
      dsimp only
      rw [List.append_assoc, List.length_append] at htail
      rw [Piece.spelling_cons, htail]
      rfl

theorem splitLastFrom_spelling (hall : ∀ q ∈ pieces ++ [p], q.Valid Escapable)
    (h : Starts first at_) (hfuel : pieces.length < fuel) (last : Option (ℕ × Segment)) :
    splitLastFrom fuel (Piece.spelling first (pieces ++ [p])) at_ last =
      some (at_ + (Piece.spelling first pieces).length, .ofPiece p) := by
  induction pieces generalizing fuel first at_ last with
  | nil =>
    have hp := hall p (by simp)
    cases fuel with
    | zero => simp at hfuel
    | succ fuel =>
      have hstep := step_spelling hp h []
      rw [List.nil_append]
      rw [Piece.spelling_cons, Piece.spelling_nil, List.append_nil] at hstep ⊢
      cases htext : p.text first with
      | nil => exact absurd htext (Piece.text_ne_nil hp first)
      | cons c text =>
        rw [htext] at hstep
        rw [splitLastFrom, hstep]
        dsimp only
        rw [List.drop_length]
        cases fuel <;> rfl
  | cons q pieces ih =>
    rw [List.cons_append] at hall ⊢
    obtain ⟨hq, hrest⟩ := List.forall_mem_cons.mp hall
    cases fuel with
    | zero => simp at hfuel
    | succ fuel =>
      have hstep := step_spelling hq h (pieces ++ [p])
      have htail := ih hrest (.next hq first at_) (Nat.lt_of_succ_lt_succ hfuel)
      rw [Piece.spelling_cons] at hstep ⊢
      rw [Piece.spelling_cons, List.length_append, ← Nat.add_assoc]
      cases htext : q.text first with
      | nil => exact absurd htext (Piece.text_ne_nil hq first)
      | cons c text =>
        rw [htext] at hstep htail
        rw [List.cons_append] at hstep ⊢
        rw [splitLastFrom, hstep]
        dsimp only
        rw [← List.cons_append, List.drop_left]
        exact htail _

theorem parseFrom_sound (hdot : at_ = 0 → rest.head? ≠ some '.')
    (h : parseFrom fuel rest at_ = .ok ()) : ∃ pieces : List Piece, (∀ p ∈ pieces, p.Valid Escapable) ∧
      rest = Piece.spelling (at_ == 0) pieces := by
  induction fuel generalizing rest at_ with
  | zero =>
    cases rest with
    | nil => exact ⟨[], nofun, rfl⟩
    | cons c rest => cases h
  | succ fuel ih =>
    cases rest with
    | nil => exact ⟨[], nofun, rfl⟩
    | cons c rest =>
      rw [parseFrom] at h
      split at h
      · rename_i s read hstep
        obtain ⟨p, tail, hp, -, htext, rfl⟩ := step_sound hstep fun hfirst => hdot (beq_iff_eq.mp hfirst)
        rw [htext, List.drop_left] at h
        have hnext : (at_ + (p.text (at_ == 0)).length == 0) = false := Starts.next hp _ at_
        obtain ⟨pieces, hall, htail⟩ := ih (fun hzero => by simp [hzero] at hnext) h
        rw [hnext] at htail
        exact ⟨p :: pieces, List.forall_mem_cons.mpr ⟨hp, hall⟩, by rw [htext, htail]; rfl⟩
      · cases h
      · cases h

theorem spelledFrom_sound {l : List (Segment × ℕ)} (hdot : at_ = 0 → text.head? ≠ some '.')
    (hfuel : text.length ≤ at_ + fuel) (h : spelledFrom false text fuel at_ = some l) :
    ∃ pieces : List Piece, (∀ p ∈ pieces, p.Valid Escapable) ∧
      text.drop at_ = Piece.spelling (at_ == 0) pieces := by
  induction fuel generalizing at_ l with
  | zero => exact ⟨[], nofun, List.drop_eq_nil_of_le hfuel⟩
  | succ fuel ih =>
    rw [spelledFrom] at h
    split at h
    · rename_i hle
      exact ⟨[], nofun, List.drop_eq_nil_of_le hle⟩
    · rw [Bool.not_false, Bool.and_true] at h
      split at h
      · rename_i s read hstep
        obtain ⟨p, tail, hp, -, htext, rfl⟩ := step_sound hstep fun hfirst => by
          have hzero := beq_iff_eq.mp hfirst
          rw [hzero, List.drop_zero]
          exact hdot hzero
        obtain ⟨more, hmore, -⟩ := Option.map_eq_some_iff.mp h
        have hpos := List.length_pos_iff.mpr (Piece.text_ne_nil hp (at_ == 0))
        have hnext : (at_ + (p.text (at_ == 0)).length == 0) = false := Starts.next hp _ at_
        obtain ⟨pieces, hall, htail⟩ := ih (fun hzero => by simp [hzero] at hnext) (by omega) hmore
        rw [hnext, ← List.drop_drop, htext, List.drop_left] at htail
        exact ⟨p :: pieces, List.forall_mem_cons.mpr ⟨hp, hall⟩, by rw [htext, htail]; rfl⟩
      · cases h

theorem parse_iff {path : Path} : parse text = .ok path ↔ path = ⟨text⟩ ∧
    ∃ pieces : List Piece, pieces ≠ [] ∧ (∀ p ∈ pieces, p.Valid Escapable) ∧
      text = Piece.spelling true pieces := by
  unfold parse
  by_cases hne : text = []
  · rw [if_pos hne]
    refine ⟨nofun, ?_⟩
    rintro ⟨-, pieces, hsome, hall, htext⟩
    have hlen := Piece.length_le_spelling hall true
    rw [← htext, hne] at hlen
    exact absurd (List.length_eq_zero_iff.mp (Nat.le_zero.mp hlen)) hsome
  · rw [if_neg hne]
    by_cases hdot : text.head? = some '.'
    · rw [if_pos hdot]
      refine ⟨nofun, ?_⟩
      rintro ⟨-, pieces, hsome, hall, htext⟩
      cases pieces with
      | nil => exact absurd rfl hsome
      | cons p pieces =>
        rw [htext] at hdot
        exact absurd hdot (Piece.head_text_ne_dot (hall p List.mem_cons_self) _)
    · rw [if_neg hdot]
      constructor
      · intro h
        split at h
        · rename_i hloop
          cases h
          obtain ⟨pieces, hall, htext⟩ := parseFrom_sound (fun _ => hdot) hloop
          refine ⟨rfl, pieces, ?_, hall, htext⟩
          rintro rfl
          exact hne htext
        · cases h
      · rintro ⟨rfl, pieces, -, hall, rfl⟩
        have hloop := parseFrom_spelling hall (show Starts true 0 from rfl)
          (Piece.length_le_spelling hall true)
        rw [hloop]

theorem length_ends (first : Bool) (at_ : ℕ) (pieces : List Piece) :
    (ends first at_ pieces).length = pieces.length := by
  induction pieces generalizing first at_ with
  | nil => rfl
  | cons p pieces ih => simp [ends, ih]

theorem ends_segments (first : Bool) (at_ : ℕ) (pieces : List Piece) :
    (ends first at_ pieces).map Prod.fst = pieces.map Segment.ofPiece := by
  induction pieces generalizing first at_ with
  | nil => rfl
  | cons p pieces ih => simp [ends, ih]

theorem take_ends (first : Bool) (at_ : ℕ) (pieces : List Piece) (n : ℕ) :
    (ends first at_ pieces).take n = ends first at_ (pieces.take n) := by
  induction pieces generalizing first at_ n with
  | nil => simp [ends]
  | cons p pieces ih =>
    cases n with
    | zero => rfl
    | succ n => simp [ends, ih]

theorem getElem?_ends {i : ℕ} {e : ℕ} (h : (ends first at_ pieces)[i]? = some (s, e)) :
    e = at_ + (Piece.spelling first (pieces.take (i + 1))).length := by
  induction pieces generalizing first at_ i with
  | nil => cases h
  | cons p pieces ih =>
    cases i with
    | zero =>
      cases h
      simp
    | succ i =>
      rw [ih h, List.take_succ_cons, Piece.spelling_cons, List.length_append, Nat.add_assoc]

theorem ends_concat (p : Piece) (hne : pieces ≠ []) : ends first at_ (pieces ++ [p]) =
    ends first at_ pieces ++ [(.ofPiece p, at_ + (Piece.spelling first (pieces ++ [p])).length)] := by
  induction pieces generalizing first at_ with
  | nil => exact absurd rfl hne
  | cons q pieces ih =>
    cases pieces with
    | nil => simp [ends, Nat.add_assoc]
    | cons r pieces =>
      have htail : ends false (at_ + (q.text first).length) (r :: pieces ++ [p]) = _ :=
        ih (List.cons_ne_nil r pieces)
      rw [List.cons_append, ends, htail, Piece.spelling_cons, List.length_append, ← Nat.add_assoc]
      rfl

/-- What every reader sees in the text of pieces. -/
structure Seen (text : Text) (pieces : List Piece) : Prop where
  parsed : parse text = .ok ⟨text⟩
  walked : (Path.mk text).walk = ends true 0 pieces
  spelled : spelled text false = some (ends true 0 pieces)

theorem seen_spelling (hne : pieces ≠ []) (hall : ∀ p ∈ pieces, p.Valid Escapable) :
    Seen (Piece.spelling true pieces) pieces where
  parsed := parse_iff.mpr ⟨rfl, pieces, hne, hall, rfl⟩
  walked := walk_spelling hall rfl (Piece.length_le_spelling hall true)
  spelled := by
    have hread : spelledFrom false ([] ++ Piece.spelling true pieces) _ 0 = _ :=
      spelledFrom_spelling hall (show Starts true 0 from rfl) (Piece.length_le_spelling hall true)
    rw [List.nil_append, List.length_nil] at hread
    cases pieces with
    | nil => exact absurd rfl hne
    | cons p pieces =>
      have hdot := Piece.head_text_ne_dot (hall p List.mem_cons_self) (Piece.spelling false pieces)
      rw [← Piece.spelling_cons] at hdot
      simp only [Intake.spelled, hread, Bool.not_false, Bool.true_and, beq_iff_eq, hdot, if_false, ends]

/-- The cut before the last segment is at the end of the one before it. -/
theorem splitLast_spelling (hne : pieces ≠ []) (hall : ∀ p ∈ pieces, p.Valid Escapable) :
    splitLast (Piece.spelling true pieces) =
      match (ends true 0 pieces).reverse with
      | (last, _) :: (_, e) :: _ => some ((Piece.spelling true pieces).take e, last)
      | _ => none := by
  have hparse := (seen_spelling hne hall).parsed
  obtain rfl | ⟨init, p, rfl⟩ := List.eq_nil_or_concat pieces
  · exact absurd rfl hne
  · rw [List.concat_eq_append] at hall hparse ⊢
    have hlen := Piece.length_le_spelling hall true
    rw [List.length_append, List.length_singleton] at hlen
    have hloop := splitLastFrom_spelling hall (show Starts true 0 from rfl) hlen none
    rw [splitLast, hparse]
    dsimp only
    rw [hloop]
    cases init with
    | nil => rfl
    | cons q init =>
      have hq := List.length_pos_iff.mpr (Piece.text_ne_nil (hall q List.mem_cons_self) true)
      have hstart : 0 < 0 + (Piece.spelling true (q :: init)).length := by
        rw [Piece.spelling_cons, List.length_append]
        omega
      dsimp only
      rw [if_pos hstart, ends_concat p (List.cons_ne_nil q init), List.reverse_append,
        List.reverse_singleton, List.singleton_append]
      have hsome : (ends true 0 (q :: init)).reverse ≠ [] := by
        rw [ne_eq, List.reverse_eq_nil_iff]
        exact List.cons_ne_nil _ _
      cases hrev : (ends true 0 (q :: init)).reverse with
      | nil => exact absurd hrev hsome
      | cons se before =>
        obtain ⟨s, e⟩ := se
        have hget : (ends true 0 (q :: init))[init.length]? = some (s, e) := by
          have hlast : (ends true 0 (q :: init)).getLast? = some (s, e) := by
            rw [← List.head?_reverse, hrev]
            rfl
          rw [List.getLast?_eq_getElem?, length_ends] at hlast
          exact hlast
        have hend := getElem?_ends hget
        rw [show (q :: init).take (init.length + 1) = q :: init from List.take_of_length_le (Nat.le_refl _)] at hend
        dsimp only
        rw [hend]

theorem digitChar_toNat {c : Char} (h : c.isDigit = true) :
    c.toNat - '0'.toNat < 10 ∧ Nat.digitChar (c.toNat - '0'.toNat) = c := by
  have hrange : 48 ≤ c.toNat ∧ c.toNat ≤ 57 := by
    simp only [Char.isDigit, Bool.and_eq_true, decide_eq_true_eq] at h
    exact ⟨UInt32.le_iff_toNat_le.mp h.1, UInt32.le_iff_toNat_le.mp h.2⟩
  have hzero : '0'.toNat = 48 := rfl
  refine ⟨by omega, ?_⟩
  conv_rhs => rw [← Char.ofNat_toNat c]
  obtain ⟨hlo, hhi⟩ := hrange
  generalize c.toNat = n at hlo hhi ⊢
  interval_cases n <;> rfl

theorem toDigits_ofDigitChars (hne : text ≠ []) (hall : ∀ c ∈ text, c.isDigit = true)
    (hzero : 1 < text.length → text.head? ≠ some '0') :
    Nat.toDigits 10 (Nat.ofDigitChars 10 text 0) = text := by
  induction text using List.reverseRecOn with
  | nil => exact absurd rfl hne
  | append_singleton init c ih =>
    obtain ⟨hlt, hchar⟩ := digitChar_toNat (hall c (by simp))
    rw [Nat.ofDigitChars_append, Nat.ofDigitChars_cons, Nat.ofDigitChars_nil]
    cases init with
    | nil =>
      rw [Nat.ofDigitChars_nil, Nat.mul_zero, Nat.zero_add, Nat.toDigits_of_lt_base hlt, hchar]
      rfl
    | cons d init =>
      have hhead : (d :: init).head? ≠ some '0' := by
        have hlong := hzero (by simp)
        simpa using hlong
      have hinit := ih (List.cons_ne_nil d init) (fun x hx => hall x (List.mem_append_left _ hx))
        fun _ => hhead
      have hpos : 0 < Nat.ofDigitChars 10 (d :: init) 0 := by
        refine Nat.pos_of_ne_zero fun h0 => hhead ?_
        rw [h0] at hinit
        rw [← hinit]
        rfl
      rw [← Nat.toDigits_append_toDigits (by omega) hpos hlt, hinit, Nat.toDigits_of_lt_base hlt, hchar]

theorem toString_of_indexOf {n : ℕ} (h : indexOf text = some n) :
    n < usizeCount ∧ (toString n).toList = text := by
  unfold indexOf at h
  split at h
  · cases h
  · rename_i hdigits
    split at h
    · cases h
    · rename_i hzero
      dsimp only at h
      split at h
      · rename_i hlt
        cases h
        simp only [Bool.or_eq_true, List.isEmpty_iff, Bool.not_eq_true', not_or, Bool.not_eq_false,
          List.all_eq_true] at hdigits
        simp only [Bool.and_eq_true, decide_eq_true_eq, beq_iff_eq, not_and] at hzero
        refine ⟨hlt, ?_⟩
        rw [Nat.toString_eq_ofList_toDigits, String.toList_ofList]
        exact toDigits_ofDigitChars hdigits.1 hdigits.2 hzero
      · cases h

theorem Segment.piece_bare (h : needsQuoting k = false) : (key k).piece = .bare k := by
  simp [piece, h]

theorem Segment.piece_quoted (h : needsQuoting k = true) :
    (key k).piece = .quoted (k.map fun c => (c == '"' || c == '\\', c)) := by
  simp [piece, h]

theorem spellable_ofPiece (h : p.Valid Escapable) : (Segment.ofPiece p).Spellable := by
  cases p with
  | name n =>
    exact isBareName_iff.mpr ⟨h.1, fun c hc => by
      rw [Bool.eq_false_iff]
      exact fun hends => h.2 c hc (nameEnds_iff.mp hends)⟩
  | bare inside =>
    unfold Segment.ofPiece
    dsimp only
    split
    · rename_i n hindex
      exact (toString_of_indexOf hindex).1
    · trivial
  | quoted body => trivial

theorem Segment.Spellable.valid_piece (h : s.Spellable) : s.piece.Valid Escapable := by
  cases s with
  | field name =>
    obtain ⟨hne, hplain⟩ := isBareName_iff.mp h
    refine ⟨hne, fun c hc hends => ?_⟩
    have hnot := hplain c hc
    rw [nameEnds_iff.mpr hends] at hnot
    cases hnot
  | index n =>
    have hall (c : Char) (hc : c ∈ (toString n).toList) : c.isDigit = true := by
      rw [Nat.toString_eq_ofList_toDigits, String.toList_ofList] at hc
      exact Nat.isDigit_of_mem_toDigits (by omega) (by omega) hc
    refine ⟨?_, fun hquote => ?_, fun c hc => ⟨?_, ?_⟩⟩
    · rw [Nat.toString_eq_ofList_toDigits, String.toList_ofList]
      exact Nat.toDigits_ne_nil
    · exact absurd (hall _ (List.mem_of_mem_head? hquote)) (by decide)
    · rintro rfl
      exact absurd (hall _ hc) (by decide)
    · rintro rfl
      exact absurd (hall _ hc) (by decide)
  | key k =>
    cases hquoted : needsQuoting k with
    | false =>
      obtain ⟨hne, hquote, hplain, -⟩ := bare_of_needsQuoting hquoted
      rw [piece_bare hquoted]
      exact ⟨hne, hquote, hplain⟩
    | true =>
      rw [piece_quoted hquoted]
      intro x hx
      obtain ⟨c, -, rfl⟩ := List.mem_map.mp hx
      simp [Escapable]

theorem Segment.ofPiece_piece (h : s.Spellable) : ofPiece s.piece = s := by
  cases s with
  | field name => rfl
  | index n => simp only [piece, ofPiece, indexOf_toString h]
  | key k =>
    cases hquoted : needsQuoting k with
    | false =>
      obtain ⟨-, -, -, hindex⟩ := bare_of_needsQuoting hquoted
      simp [piece_bare hquoted, ofPiece, hindex]
    | true => simp [piece_quoted hquoted, ofPiece, Function.comp_def]

theorem Segment.text_piece (s : Segment) : s.piece.text true = s.display ∧ s.piece.text false = s.behind := by
  cases s with
  | field name => exact ⟨rfl, rfl⟩
  | index n => exact ⟨rfl, rfl⟩
  | key k => cases hquoted : needsQuoting k <;> simp [piece, behind, display, hquoted, Piece.text, written_escaped]

theorem spelling_render (segments : List Segment) :
    Piece.spelling false (segments.map Segment.piece) = render segments := by
  induction segments with
  | nil => rfl
  | cons s segments ih => rw [List.map_cons, Piece.spelling_cons, ih, s.text_piece.2, render_cons]

theorem spelling_assemble (segments : List Segment) :
    Piece.spelling true (segments.map Segment.piece) = assemble segments := by
  cases segments with
  | nil => rfl
  | cons s segments => rw [List.map_cons, Piece.spelling_cons, spelling_render, s.text_piece.1, assemble]

theorem parse_assemble {segments : List Segment} (hne : segments ≠ []) (hall : ∀ s ∈ segments, s.Spellable) :
    ∃ path, parse (assemble segments) = .ok path ∧ path.segments = segments := by
  have hpieces : ∀ p ∈ segments.map Segment.piece, p.Valid Escapable := by
    intro p hp
    obtain ⟨s, hs, rfl⟩ := List.mem_map.mp hp
    exact (hall s hs).valid_piece
  have hseen := seen_spelling (fun hnil => hne (List.map_eq_nil_iff.mp hnil)) hpieces
  rw [spelling_assemble] at hseen
  refine ⟨_, hseen.parsed, ?_⟩
  rw [Path.segments, hseen.walked, ends_segments, List.map_map]
  conv_rhs => rw [← List.map_id segments]
  exact List.map_congr_left fun s hs => Segment.ofPiece_piece (hall s hs)

theorem parse_of_spelled {l : List (Segment × ℕ)} (h : spelled text false = some l) :
    parse text = .ok ⟨text⟩ := by
  unfold spelled at h
  split at h
  · cases h
  · rename_i hdot
    have hdot' : text.head? ≠ some '.' := by simpa using hdot
    obtain ⟨l', hfrom⟩ : ∃ l', spelledFrom false text text.length 0 = some l' := by
      cases hfrom : spelledFrom false text text.length 0 with
      | none =>
        rw [hfrom] at h
        cases h
      | some l' => exact ⟨l', rfl⟩
    obtain ⟨pieces, hall, htext⟩ := spelledFrom_sound (fun _ => hdot') (by omega) hfrom
    rw [List.drop_zero] at htext
    refine parse_iff.mpr ⟨rfl, pieces, ?_, hall, htext⟩
    rintro rfl
    rw [htext] at h
    cases h

/-- Every list of at least one segment reads back from the text it displays as. The segments of a text
that is accepted can be spelled again and read back; where each ends, as they are spelled, is where the
path's own segments end, and the text up to there is the path of the segments up to there; and the last
is cut off at the end of the one before it. A text that is refused is spelled and cut by neither. -/
theorem path_round_trip :
    (∀ segments : List Segment, segments ≠ [] → (∀ s ∈ segments, s.Spellable) →
      ∃ path, parse (assemble segments) = .ok path ∧ path.segments = segments) ∧
    ∀ text,
      (∀ path, parse text = .ok path →
        (∃ path', parse (assemble path.segments) = .ok path' ∧ path'.segments = path.segments) ∧
        spelled text false = some path.walk ∧
        (∀ i s e, path.walk[i]? = some (s, e) →
          ∃ path', parse (text.take e) = .ok path' ∧ path'.walk = path.walk.take (i + 1)) ∧
        splitLast text =
          match path.walk.reverse with
          | (last, _) :: (_, e) :: _ => some (text.take e, last)
          | _ => none) ∧
      ∀ error, parse text = .error error → spelled text false = none ∧ splitLast text = none := by
  refine ⟨fun segments => parse_assemble, fun text => ⟨fun path hparse => ?_, fun error hparse => ?_⟩⟩
  · obtain ⟨rfl, pieces, hne, hall, rfl⟩ := parse_iff.mp hparse
    obtain ⟨-, hwalk, hspelled⟩ := seen_spelling hne hall
    rw [Path.segments, hwalk, ends_segments]
    refine ⟨parse_assemble (fun hnil => hne (List.map_eq_nil_iff.mp hnil)) ?_, hspelled, ?_,
      splitLast_spelling hne hall⟩
    · intro s hs
      obtain ⟨p, hp, rfl⟩ := List.mem_map.mp hs
      exact spellable_ofPiece (hall p hp)
    · intro i s e hget
      have hend := getElem?_ends hget
      rw [Nat.zero_add] at hend
      have htake : pieces.take (i + 1) ≠ [] := by
        rw [ne_eq, List.take_eq_nil_iff]
        exact fun h => h.elim (Nat.succ_ne_zero i) hne
      have hseen := seen_spelling htake fun p hp => hall p (List.mem_of_mem_take hp)
      have htext : (Piece.spelling true pieces).take e = Piece.spelling true (pieces.take (i + 1)) := by
        conv_lhs => rw [← List.take_append_drop (i + 1) pieces, Piece.spelling_append true _ _ htake]
        rw [hend, List.take_left]
      rw [htext]
      exact ⟨_, hseen.parsed, by rw [hseen.walked, take_ends]⟩
  · refine ⟨?_, by rw [splitLast, hparse]⟩
    cases hspelled : spelled text false with
    | none => rfl
    | some l =>
      rw [parse_of_spelled hspelled] at hparse
      cases hparse

/-- A key with a bracket in it, a position and a name behind them. -/
def sample : List Segment := [.key "a]".toList, .index 3, .field "x".toList]

theorem path_round_trip_sample :
    (∃ path, parse "[\"a]\"][3].x".toList = .ok path ∧ path.segments = sample) ∧
      splitLast "[\"a]\"][3].x".toList = some ("[\"a]\"][3]".toList, .field "x".toList) := by
  constructor
  · have htext : assemble sample = "[\"a]\"][3].x".toList := by decide
    have hall : ∀ s ∈ sample, s.Spellable :=
      List.forall_mem_cons.mpr ⟨trivial, List.forall_mem_cons.mpr ⟨(by decide : 3 < usizeCount),
        List.forall_mem_cons.mpr ⟨(by decide : isBareName "x".toList = true), nofun⟩⟩⟩
    obtain ⟨path, hparse, hsegments⟩ := path_round_trip.1 sample (by decide) hall
    exact ⟨path, htext ▸ hparse, hsegments⟩
  · have hparse : parse "[\"a]\"][3].x".toList = .ok ⟨"[\"a]\"][3].x".toList⟩ := by decide
    rw [((path_round_trip.2 _).1 _ hparse).2.2.2]
    decide

/-- No segments display as the empty text, and that is not a path. -/
theorem not_path_round_trip : ¬ ∀ segments : List Segment, (∀ s ∈ segments, s.Spellable) →
    ∃ path, parse (assemble segments) = .ok path ∧ path.segments = segments := by
  intro hall
  obtain ⟨path, hparse, -⟩ := hall [] nofun
  cases hparse

end Guatiao.Intake
