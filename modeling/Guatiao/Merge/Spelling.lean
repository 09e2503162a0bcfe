import Guatiao.Intake.PathText
import Guatiao.Merge.Path
import Mathlib.Data.List.TakeWhile

/-!
# The text of a place

A place's text is read back by a parser of its own. It reads the same grammar as the one that reads
the paths of a configuration, save that a backslash takes any character behind it.
-/

namespace Guatiao.Merge

open Lib

/-- A bare name, and what is behind it. -/
def name (chars : List Char) : Option (List Char × List Char) :=
  let run := chars.takeWhile fun c => !(c == '.' || c == '[' || c == ']')
  if run = [] then none else some (run, chars.drop run.length)

/-- The loop over what stands between quotes, and what is behind the closing one. -/
def quotedFrom (segment : List Char) : List Char → Option (List Char × List Char)
  | [] => none
  | '"' :: rest => some (segment, rest)
  | ['\\'] => none
  | '\\' :: c :: rest => quotedFrom (segment ++ [c]) rest
  | c :: rest => quotedFrom (segment ++ [c]) rest

/-- The loop over what stands in a bracket, up to the one that closes it. -/
def bareFrom (segment : List Char) : List Char → Option (List Char × List Char)
  | [] => some (segment, [])
  | c :: rest =>
    if c = ']' then some (segment, c :: rest)
    else if c = '[' then none
    else bareFrom (segment ++ [c]) rest

/-- What stands in a bracket, from behind its `[`, and what is behind its `]`. -/
def bracketed (inside : List Char) : Option (List Char × List Char) := do
  let (segment, rest) ←
    (if inside.head? = some '"' then quotedFrom [] inside.tail
    else do
      let (segment, rest) ← bareFrom [] inside
      if segment = [] then none else some (segment, rest))
  if rest.head? = some ']' then some (segment, rest.tail) else none

/-- The loop of `parse`: what has been read, what is left, and whether that is the whole text; in at
most so many rounds. -/
def parseFrom : ℕ → Bool → List Char → List (List Char) → Option (List (List Char))
  | _, _, [], out => some out
  | 0, _, _ :: _, _ => none
  | fuel + 1, first, c :: rest, out =>
    if c = '[' then do
      let (segment, rest) ← bracketed rest
      parseFrom fuel false rest (out ++ [segment])
    else if c = '.' ∧ first = false then do
      let (segment, rest) ← name rest
      parseFrom fuel false rest (out ++ [segment])
    else if first then do
      let (segment, rest) ← name (c :: rest)
      parseFrom fuel false rest (out ++ [segment])
    else none

/-- The segments a spelling names, if it is one. The empty string is the root, which has none. -/
def parse (text : String) : Option (List String) :=
  (parseFrom text.toList.length true text.toList []).map (List.map String.ofList)

/-- Any character may stand behind a backslash. -/
def Anything (_ : Char) : Prop := True

variable {p : Piece} {rest : List Char} {pieces : List Piece} {first : Bool} {fuel : ℕ}

theorem ends_iff {c : Char} : (c == '.' || c == '[' || c == ']') = true ↔ EndsName c := by
  simp [EndsName, or_assoc]

theorem name_piece {n : List Char} (h : (Piece.name n).Valid Anything) (hrest : Piece.Follows rest) :
    name (n ++ rest) = some (n, rest) := by
  obtain ⟨hne, hplain⟩ := h
  have hrun : (n ++ rest).takeWhile (fun c => !(c == '.' || c == '[' || c == ']')) = n := by
    have hpass (c : Char) (hc : c ∈ n) : (!(c == '.' || c == '[' || c == ']')) = true := by
      rw [Bool.not_eq_true', Bool.eq_false_iff]
      exact fun hends => hplain c hc (ends_iff.mp hends)
    rw [List.takeWhile_append_of_pos hpass]
    cases rest with
    | nil => simp
    | cons c rest =>
      have hstop := ends_iff.mpr (hrest.stops c rfl)
      rw [List.takeWhile_cons_of_neg (by rw [hstop]; decide), List.append_nil]
  simp only [name, hrun, if_neg hne, List.drop_left]

theorem name_sound {chars n : List Char} (h : name chars = some (n, rest)) :
    (Piece.name n).Valid Anything ∧ chars = n ++ rest := by
  unfold name at h
  dsimp only at h
  split at h
  · cases h
  · rename_i hne
    cases h
    refine ⟨⟨hne, fun c hc hends => ?_⟩, ?_⟩
    · have hpass := List.mem_takeWhile_imp hc
      rw [ends_iff.mpr hends] at hpass
      cases hpass
    · exact (List.prefix_iff_eq_append.mp (List.takeWhile_prefix _)).symm

theorem quotedFrom_piece {body : List (Bool × Char)} (h : (Piece.quoted body).Valid Anything)
    (segment : List Char) :
    quotedFrom segment (Piece.written body ++ '"' :: rest) = some (segment ++ body.map Prod.snd, rest) := by
  induction body generalizing segment with
  | nil => simp [quotedFrom]
  | cons x body ih =>
    obtain ⟨hx, hbody⟩ := List.forall_mem_cons.mp h
    obtain ⟨b, c⟩ := x
    cases b with
    | true =>
      have hstep : quotedFrom segment ('\\' :: c :: (Piece.written body ++ '"' :: rest)) =
          quotedFrom (segment ++ [c]) (Piece.written body ++ '"' :: rest) := by
        rw [quotedFrom]
      simp only [Piece.written_cons, if_true, List.cons_append, List.nil_append, hstep, ih hbody]
      simp
    | false =>
      obtain ⟨hquote, hback⟩ := hx.2 rfl
      have hstep : quotedFrom segment (c :: (Piece.written body ++ '"' :: rest)) =
          quotedFrom (segment ++ [c]) (Piece.written body ++ '"' :: rest) := by
        rw [quotedFrom]
        · exact hquote
        · exact fun hc => absurd hc hback
        · exact fun _ _ hc => absurd hc hback
      simp only [Piece.written_cons, Bool.false_eq_true, if_false, List.cons_append, List.nil_append, hstep,
        ih hbody]
      simp

theorem quotedFrom_sound {segment quoted k : List Char} (h : quotedFrom segment quoted = some (k, rest)) :
    ∃ body, (Piece.quoted body).Valid Anything ∧ k = segment ++ body.map Prod.snd ∧
      quoted = Piece.written body ++ '"' :: rest := by
  induction segment, quoted using quotedFrom.induct with
  | case1 segment => cases h
  | case2 segment rest' =>
    cases h
    exact ⟨[], nofun, by simp, rfl⟩
  | case3 segment => cases h
  | case4 segment c tail ih =>
    have hstep : quotedFrom segment ('\\' :: c :: tail) = quotedFrom (segment ++ [c]) tail := by
      rw [quotedFrom]
    rw [hstep] at h
    obtain ⟨body, hbody, hk, hquoted⟩ := ih h
    refine ⟨(true, c) :: body, List.forall_mem_cons.mpr ⟨⟨fun _ => trivial, nofun⟩, hbody⟩, ?_, ?_⟩
    · simp [hk]
    · simp [hquoted]
  | case5 segment c tail hquote hback hback' ih =>
    have hslash : c ≠ '\\' := by
      intro hc
      cases tail with
      | nil => exact hback hc rfl
      | cons d tail => exact hback' d tail hc rfl
    have hstep : quotedFrom segment (c :: tail) = quotedFrom (segment ++ [c]) tail := by
      rw [quotedFrom]
      all_goals assumption
    rw [hstep] at h
    obtain ⟨body, hbody, hk, hquoted⟩ := ih h
    refine ⟨(false, c) :: body, List.forall_mem_cons.mpr ⟨⟨nofun, fun _ => ⟨hquote, hslash⟩⟩, hbody⟩, ?_,
      ?_⟩
    · simp [hk]
    · simp [hquoted]

theorem bareFrom_piece {inside : List Char} (h : ∀ c ∈ inside, c ≠ '[' ∧ c ≠ ']') (segment : List Char) :
    bareFrom segment (inside ++ ']' :: rest) = some (segment ++ inside, ']' :: rest) := by
  induction inside generalizing segment with
  | nil => simp [bareFrom]
  | cons c inside ih =>
    obtain ⟨hc, hinside⟩ := List.forall_mem_cons.mp h
    rw [List.cons_append, bareFrom, if_neg hc.2, if_neg hc.1, ih hinside]
    simp

theorem bareFrom_sound {segment inside k : List Char} (h : bareFrom segment inside = some (k, rest)) :
    ∃ read, k = segment ++ read ∧ inside = read ++ rest ∧ ∀ c ∈ read, c ≠ '[' ∧ c ≠ ']' := by
  induction inside generalizing segment with
  | nil =>
    cases h
    exact ⟨[], by simp, rfl, nofun⟩
  | cons c inside ih =>
    rw [bareFrom] at h
    split at h
    · cases h
      exact ⟨[], by simp, rfl, nofun⟩
    · rename_i hclose
      split at h
      · cases h
      · rename_i hopen
        obtain ⟨read, rfl, rfl, hread⟩ := ih h
        exact ⟨c :: read, by simp, rfl, List.forall_mem_cons.mpr ⟨⟨hopen, hclose⟩, hread⟩⟩

theorem bracketed_piece {inside : List Char} (hp : p.Valid Anything)
    (h : '[' :: inside = p.text first ++ rest) (hopen : ∀ n, p ≠ .name n) :
    bracketed inside = some (p.key, rest) := by
  cases p with
  | name n => exact absurd rfl (hopen n)
  | bare text =>
    obtain ⟨hne, hquote, hplain⟩ := hp
    have hinside : inside = text ++ ']' :: rest := by simpa [Piece.text] using h
    have hhead : inside.head? ≠ some '"' := by
      rw [hinside]
      cases text with
      | nil => exact absurd rfl hne
      | cons c text => exact hquote
    rw [bracketed, if_neg hhead, hinside, bareFrom_piece hplain]
    simp [hne, Piece.key]
  | quoted body =>
    have hinside : inside = '"' :: (Piece.written body ++ '"' :: ']' :: rest) := by
      simpa [Piece.text] using h
    rw [bracketed, hinside, List.head?_cons, if_pos rfl, List.tail_cons, quotedFrom_piece hp]
    simp [Piece.key]

theorem bracketed_sound {inside k : List Char} (h : bracketed inside = some (k, rest)) :
    ∃ p : Piece, p.Valid Anything ∧ p.key = k ∧ ∀ first, '[' :: inside = p.text first ++ rest := by
  unfold bracketed at h
  obtain ⟨⟨segment, tail⟩, hread, hclosed⟩ := Option.bind_eq_some_iff.mp h
  dsimp only at hclosed
  split at hclosed
  · rename_i hclose
    cases hclosed
    obtain ⟨tail', rfl⟩ : ∃ tail', tail = ']' :: tail' := by
      cases tail with
      | nil => cases hclose
      | cons c tail' => exact ⟨tail', by rw [Option.some.inj hclose]⟩
    split at hread
    · rename_i hquote
      obtain ⟨quoted, rfl⟩ : ∃ quoted, inside = '"' :: quoted := by
        cases inside with
        | nil => cases hquote
        | cons c quoted => exact ⟨quoted, by rw [Option.some.inj hquote]⟩
      obtain ⟨body, hbody, rfl, hquoted⟩ := quotedFrom_sound hread
      rw [List.tail_cons] at hquoted
      exact ⟨.quoted body, hbody, by simp [Piece.key], fun first => by simp [Piece.text, hquoted]⟩
    · rename_i hquote
      obtain ⟨⟨segment', tail⟩, hbare, hne⟩ := Option.bind_eq_some_iff.mp hread
      dsimp only at hne
      split at hne
      · cases hne
      · rename_i hsome
        cases hne
        obtain ⟨read, hk, hinside, hplain⟩ := bareFrom_sound hbare
        rw [List.nil_append] at hk
        rw [hk] at hsome ⊢
        refine ⟨.bare read, ⟨hsome, fun hhead => hquote ?_, hplain⟩, rfl, fun first => ?_⟩
        · rw [hinside, List.head?_append, hhead]
          rfl
        · simp [Piece.text, hinside]
  · cases hclosed

/-- The parser reads the texts of pieces, and each piece as what it names. -/
theorem parseFrom_spelling (hall : ∀ p ∈ pieces, p.Valid Anything) (hfuel : pieces.length ≤ fuel)
    (out : List (List Char)) :
    parseFrom fuel first (Piece.spelling first pieces) out = some (out ++ pieces.map Piece.key) := by
  induction pieces generalizing fuel first out with
  | nil => cases fuel <;> simp [parseFrom]
  | cons p pieces ih =>
    obtain ⟨hp, hrest⟩ := List.forall_mem_cons.mp hall
    have hfollows := Piece.follows_spelling pieces
    cases fuel with
    | zero => simp at hfuel
    | succ fuel =>
      have htail : parseFrom fuel false (Piece.spelling false pieces) (out ++ [p.key]) = _ :=
        ih hrest (Nat.le_of_succ_le_succ hfuel) (out ++ [p.key])
      have hopen (inside : List Char) (hinside : '[' :: inside = p.text first ++ Piece.spelling false pieces)
          (hno : ∀ n, p ≠ .name n) : parseFrom (fuel + 1) first (Piece.spelling first (p :: pieces)) out =
            some (out ++ (p :: pieces).map Piece.key) := by
        rw [Piece.spelling_cons, ← hinside, parseFrom, if_pos rfl, bracketed_piece hp hinside hno]
        simp [htail]
      cases p with
      | name n =>
        have hname := name_piece hp hfollows
        cases first with
        | false =>
          change parseFrom (fuel + 1) false ('.' :: (n ++ Piece.spelling false pieces)) out = _
          rw [parseFrom, if_neg (by decide), if_pos (by decide), hname]
          simpa [Piece.key] using htail
        | true =>
          obtain ⟨hne, hplain⟩ := hp
          cases n with
          | nil => exact absurd rfl hne
          | cons c n =>
            have hends := hplain c List.mem_cons_self
            have hc : c ≠ '[' := fun hc => hends (.inr (.inl hc))
            rw [List.cons_append] at hname
            change parseFrom (fuel + 1) true (c :: (n ++ Piece.spelling false pieces)) out = _
            rw [parseFrom, if_neg hc, if_neg (by simp), if_pos rfl, hname]
            simpa [Piece.key] using htail
      | bare inside =>
        refine hopen (inside ++ ']' :: Piece.spelling false pieces) ?_ (fun _ h => by cases h)
        simp [Piece.text]
      | quoted body =>
        refine hopen ('"' :: (Piece.written body ++ '"' :: ']' :: Piece.spelling false pieces)) ?_ (fun _ h => by cases h)
        simp [Piece.text]

theorem parseFrom_sound {text : List Char} {out keys : List (List Char)}
    (h : parseFrom fuel first text out = some keys) : ∃ pieces : List Piece,
      (∀ p ∈ pieces, p.Valid Anything) ∧ text = Piece.spelling first pieces := by
  induction fuel generalizing first text out with
  | zero =>
    cases text with
    | nil => exact ⟨[], nofun, rfl⟩
    | cons c text => cases h
  | succ fuel ih =>
    cases text with
    | nil => exact ⟨[], nofun, rfl⟩
    | cons c text =>
      rw [parseFrom] at h
      split at h
      · rename_i hopen
        obtain ⟨⟨segment, rest⟩, hread, hnext⟩ := Option.bind_eq_some_iff.mp h
        obtain ⟨p, hp, -, htext⟩ := bracketed_sound hread
        obtain ⟨pieces, hall, rfl⟩ := ih hnext
        exact ⟨p :: pieces, List.forall_mem_cons.mpr ⟨hp, hall⟩, by rw [hopen, htext first]; rfl⟩
      · split at h
        · rename_i hdot
          obtain ⟨⟨segment, rest⟩, hread, hnext⟩ := Option.bind_eq_some_iff.mp h
          obtain ⟨hp, rfl⟩ := name_sound hread
          obtain ⟨pieces, hall, rfl⟩ := ih hnext
          refine ⟨.name segment :: pieces, List.forall_mem_cons.mpr ⟨hp, hall⟩, ?_⟩
          rw [hdot.1, hdot.2]
          rfl
        · split at h
          · rename_i hfirst
            obtain ⟨⟨segment, rest⟩, hread, hnext⟩ := Option.bind_eq_some_iff.mp h
            obtain ⟨hp, htext⟩ := name_sound hread
            obtain ⟨pieces, hall, rfl⟩ := ih hnext
            refine ⟨.name segment :: pieces, List.forall_mem_cons.mpr ⟨hp, hall⟩, ?_⟩
            rw [htext, hfirst]
            rfl
          · cases h

theorem parse_iff {text : String} {segments : List String} : parse text = some segments ↔
    ∃ pieces : List Piece, (∀ p ∈ pieces, p.Valid Anything) ∧
      text.toList = Piece.spelling true pieces ∧ segments = pieces.map fun p => String.ofList p.key := by
  have hparse (pieces : List Piece) (hall : ∀ p ∈ pieces, p.Valid Anything)
      (htext : text.toList = Piece.spelling true pieces) :
      parse text = some (pieces.map fun p => String.ofList p.key) := by
    have hloop : parseFrom _ true _ [] = _ :=
      parseFrom_spelling hall (Piece.length_le_spelling hall true) []
    rw [parse, htext, hloop]
    simp
  constructor
  · intro h
    obtain ⟨keys, hloop, -⟩ := Option.map_eq_some_iff.mp h
    obtain ⟨pieces, hall, htext⟩ := parseFrom_sound hloop
    rw [hparse pieces hall htext] at h
    exact ⟨pieces, hall, htext, (Option.some.inj h).symm⟩
  · rintro ⟨pieces, hall, htext, rfl⟩
    exact hparse pieces hall htext

/-- The piece a segment is rendered as. -/
def pieceOf (segment : String) : Piece :=
  if isDigits segment then .bare segment.toList
  else if needsQuotes segment then .quoted (segment.toList.map fun c => (c == '"' || c == '\\', c))
  else .name segment.toList

theorem valid_pieceOf (segment : String) : (pieceOf segment).Valid Intake.Escapable := by
  unfold pieceOf
  split
  · rename_i hdigits
    simp only [isDigits, Bool.and_eq_true, Bool.not_eq_true', List.all_eq_true] at hdigits
    obtain ⟨hne, hall⟩ := hdigits
    have hplain (c : Char) (hc : c.isDigit = false) : c ∉ segment.toList := fun hmem => by
      rw [hall c hmem] at hc
      cases hc
    refine ⟨?_, fun hquote => ?_, fun c hc => ⟨?_, ?_⟩⟩
    · intro hnil
      simp [String.toList_eq_nil_iff.mp hnil] at hne
    · exact hplain '"' (by decide) (List.mem_of_mem_head? hquote)
    · rintro rfl
      exact hplain '[' (by decide) hc
    · rintro rfl
      exact hplain ']' (by decide) hc
  · split
    · intro x hx
      obtain ⟨c, -, rfl⟩ := List.mem_map.mp hx
      simp [Intake.Escapable]
    · rename_i hquotes
      simp only [needsQuotes, Bool.or_eq_true, not_or, List.any_eq_true, not_exists, not_and] at hquotes
      obtain ⟨hne, hplain⟩ := hquotes
      refine ⟨fun hnil => ?_, fun c hc hends => ?_⟩
      · simp [String.toList_eq_nil_iff.mp hnil] at hne
      · obtain ⟨⟨hdot, hopen⟩, hclose⟩ := hplain c hc
        rcases hends with rfl | rfl | rfl
        · exact hdot rfl
        · exact hopen rfl
        · exact hclose rfl

theorem key_pieceOf (segment : String) : (pieceOf segment).key = segment.toList := by
  unfold pieceOf
  split
  · rfl
  · split
    · simp [Piece.key, Function.comp_def]
    · rfl

theorem toList_escaped (segment : String) : (escaped segment).toList =
    Piece.written (segment.toList.map fun c => (c == '"' || c == '\\', c)) := by
  have hfold (l : List Char) (out : String) :
      (l.foldl (fun out c => (if c == '"' || c == '\\' then out.push '\\' else out).push c) out).toList =
        out.toList ++ Piece.written (l.map fun c => (c == '"' || c == '\\', c)) := by
    induction l generalizing out with
    | nil => simp
    | cons c l ih =>
      rw [List.foldl_cons, ih, List.map_cons, Piece.written_cons]
      split
      · simp
      · simp
  rw [escaped, hfold]
  simp

theorem toList_renderSegment (out segment : String) (first : Bool) :
    (renderSegment out segment first).toList = out.toList ++ (pieceOf segment).text first := by
  unfold renderSegment pieceOf
  split
  · simp [Piece.text]
  · split
    · simp [Piece.text, toList_escaped]
    · cases first <;> simp [Piece.text]

theorem toList_render (segments : List String) :
    (render segments).toList = Piece.spelling true (segments.map pieceOf) := by
  have hfold (segments : List String) (n : ℕ) (out : String) :
      ((segments.zipIdx n).foldl (fun out e => renderSegment out e.1 (e.2 == 0)) out).toList =
        out.toList ++ Piece.spelling (n == 0) (segments.map pieceOf) := by
    induction segments generalizing n out with
    | nil => simp
    | cons segment segments ih =>
      rw [List.zipIdx_cons, List.foldl_cons, ih, toList_renderSegment, List.map_cons, Piece.spelling_cons,
        List.append_assoc]
      rfl
  exact hfold segments 0 ""

/-- The text of a segment of a configuration's path, as a step of a place. -/
def named : Intake.Segment → String
  | .field name => String.ofList name
  | .index at_ => toString at_
  | .key k => String.ofList k

/-- Whether the two parsers accept a text alike and read it as the same steps. -/
def Agreed (text : String) : Prop :=
  ((∃ path, Intake.parse text.toList = .ok path) ↔ ∃ segments, parse text = some segments) ∧
    ∀ path segments, Intake.parse text.toList = .ok path → parse text = some segments →
      path.segments.map named = segments

/-- Whether a text is that of a path in which, between quotes, a backslash stands before a character
that is neither a quote nor a backslash. -/
def Loose (text : List Char) : Prop :=
  ∃ pieces : List Piece, (∀ p ∈ pieces, p.Valid Anything) ∧ text = Piece.spelling true pieces ∧
    ∃ body, .quoted body ∈ pieces ∧ ∃ c, (true, c) ∈ body ∧ c ≠ '"' ∧ c ≠ '\\'

theorem named_ofPiece (p : Piece) : named (.ofPiece p) = String.ofList p.key := by
  cases p with
  | name n => rfl
  | bare inside =>
    unfold Intake.Segment.ofPiece
    dsimp only
    split
    · rename_i n hindex
      rw [named, Piece.key, ← (Intake.toString_of_indexOf hindex).2, String.ofList_toList]
    · rfl
  | quoted body => rfl

theorem both_read (hne : pieces ≠ []) (hall : ∀ p ∈ pieces, p.Valid Intake.Escapable) {text : String}
    (htext : text.toList = Piece.spelling true pieces) :
    parse text = some (pieces.map fun p => String.ofList p.key) ∧
      ∃ path, Intake.parse text.toList = .ok path ∧
        path.segments.map named = pieces.map fun p => String.ofList p.key := by
  have hany : ∀ p ∈ pieces, p.Valid Anything := fun p hp => (hall p hp).mono fun _ _ => trivial
  have hseen := Intake.seen_spelling hne hall
  refine ⟨parse_iff.mpr ⟨pieces, hany, htext, rfl⟩, ⟨text.toList⟩, htext ▸ hseen.parsed, ?_⟩
  rw [htext, Intake.Path.segments, hseen.walked, Intake.ends_segments, List.map_map]
  exact List.map_congr_left fun p _ => named_ofPiece p

/-- The two parsers accept a text alike and read the same steps, exactly where no backslash between
quotes stands before another character than a quote or a backslash. What is rendered reads back by
both. -/
theorem agree_iff (text : String) (segments : List String) :
    (text ≠ "" → (Agreed text ↔ ¬ Loose text.toList)) ∧ parse (render segments) = some segments ∧
      (segments ≠ [] → ∃ path, Intake.parse (render segments).toList = .ok path ∧
        path.segments.map named = segments) := by
  refine ⟨fun hne => ⟨?_, fun hloose => ?_⟩, ?_⟩
  · rintro ⟨haccept, -⟩ ⟨pieces, hall, htext, body, hbody, c, hc, hquote, hback⟩
    obtain ⟨path, hparse⟩ := haccept.mpr ⟨_, parse_iff.mpr ⟨pieces, hall, htext, rfl⟩⟩
    obtain ⟨-, strict, -, hstrict, hsame⟩ := Intake.parse_iff.mp hparse
    -- the text is of one list of pieces, and the one that is accepted escapes nothing else
    have heq : pieces = strict := Piece.spelling_injective hall
      (fun p hp => (hstrict p hp).mono fun _ _ => trivial) (htext.symm.trans hsame)
    rw [heq] at hbody
    exact (((hstrict _ hbody) (true, c) hc).1 rfl).elim hquote hback
  · have hstrict (pieces : List Piece) (hall : ∀ p ∈ pieces, p.Valid Anything)
        (htext : text.toList = Piece.spelling true pieces) : ∀ p ∈ pieces, p.Valid Intake.Escapable := by
      intro p hp
      cases p with
      | name n => exact hall _ hp
      | bare inside => exact hall _ hp
      | quoted body =>
        refine fun x hx => ⟨fun hesc => ?_, ((hall _ hp) x hx).2⟩
        by_contra hother
        obtain ⟨b, c⟩ := x
        cases show b = true from hesc
        exact hloose ⟨pieces, hall, htext, body, hp, c, hx, fun h => hother (.inl h), fun h => hother (.inr h)⟩
    have hsome (pieces : List Piece) (htext : text.toList = Piece.spelling true pieces) : pieces ≠ [] := by
      rintro rfl
      exact hne (String.toList_eq_nil_iff.mp htext)
    constructor
    · constructor
      · rintro ⟨path, hparse⟩
        obtain ⟨-, pieces, hnil, hall, htext⟩ := Intake.parse_iff.mp hparse
        exact ⟨_, (both_read hnil hall htext).1⟩
      · rintro ⟨segments, hparse⟩
        obtain ⟨pieces, hall, htext, -⟩ := parse_iff.mp hparse
        obtain ⟨-, path, hread, -⟩ := both_read (hsome pieces htext) (hstrict pieces hall htext) htext
        exact ⟨path, hread⟩
    · intro path segments hread hparse
      obtain ⟨-, pieces, hnil, hall, htext⟩ := Intake.parse_iff.mp hread
      obtain ⟨hboth, path', hread', hsegments⟩ := both_read hnil hall htext
      rw [hread] at hread'
      rw [hparse] at hboth
      rw [Except.ok.inj hread', hsegments, Option.some.inj hboth]
  · have hall : ∀ p ∈ segments.map pieceOf, p.Valid Intake.Escapable := by
      intro p hp
      obtain ⟨segment, -, rfl⟩ := List.mem_map.mp hp
      exact valid_pieceOf segment
    have hkeys : (segments.map pieceOf).map (fun p => String.ofList p.key) = segments := by
      rw [List.map_map]
      conv_rhs => rw [← List.map_id segments]
      exact List.map_congr_left fun segment _ => by simp [key_pieceOf]
    constructor
    · refine parse_iff.mpr ⟨segments.map pieceOf, fun p hp => (hall p hp).mono fun _ _ => trivial,
        toList_render segments, hkeys.symm⟩
    · intro hne
      obtain ⟨-, path, hread, hsegments⟩ := both_read (fun hnil => hne (List.map_eq_nil_iff.mp hnil)) hall
        (toList_render segments)
      exact ⟨path, hread, hsegments.trans hkeys⟩

/-- A backslash before a letter: a place to one parser, and no path to the other. -/
theorem not_agree : ¬ ∀ text : String, text ≠ "" → Agreed text := by
  intro hall
  obtain ⟨path, hparse⟩ := (hall "[\"a\\b\"]" (by decide)).1.mpr ⟨["ab"], by decide⟩
  have herror : Intake.parse "[\"a\\b\"]".toList = .error (.badEscape 3) := by decide
  rw [herror] at hparse
  cases hparse

end Guatiao.Merge
