import Mathlib.Data.Nat.Digits.Lemmas

/-!
# Names, brackets and quotes

A path as it is written is a list of pieces: names with dots between them, texts in brackets, and
texts in brackets between quotes, where a backslash takes the character behind it as it is. Which
characters may stand behind a backslash is a parameter.
-/

namespace Guatiao.Lib

/-- The characters that no name holds. -/
def EndsName (c : Char) : Prop := c = '.' ∨ c = '[' ∨ c = ']'

instance : DecidablePred EndsName := fun _ => inferInstanceAs (Decidable (_ ∨ _))

/-- One piece of a path as it is written; between quotes, each character with whether a backslash
stands before it. -/
inductive Piece
  | name (text : List Char)
  | bare (inside : List Char)
  | quoted (body : List (Bool × Char))

namespace Piece

/-- What is written between the quotes. -/
def written (body : List (Bool × Char)) : List Char :=
  body.flatMap fun (escaped, c) => if escaped then ['\\', c] else [c]

/-- The piece as it is written; a dot before a name that is not the first piece. -/
def text (first : Bool) : Piece → List Char
  | name n => if first then n else '.' :: n
  | bare inside => '[' :: (inside ++ [']'])
  | quoted body => '[' :: '"' :: (written body ++ ['"', ']'])

/-- What the piece names. -/
def key : Piece → List Char
  | name n => n
  | bare inside => inside
  | quoted body => body.map Prod.snd

/-- Whether the piece is one, where only some characters may stand behind a backslash. -/
def Valid (escapable : Char → Prop) : Piece → Prop
  | name n => n ≠ [] ∧ ∀ c ∈ n, ¬ EndsName c
  | bare inside => inside ≠ [] ∧ inside.head? ≠ some '"' ∧ ∀ c ∈ inside, c ≠ '[' ∧ c ≠ ']'
  | quoted body => ∀ x ∈ body, (x.1 = true → escapable x.2) ∧ (x.1 = false → x.2 ≠ '"' ∧ x.2 ≠ '\\')

/-- Pieces as they are written, the first at the start of a path or behind another. -/
def spelling : Bool → List Piece → List Char
  | _, [] => []
  | first, p :: pieces => p.text first ++ spelling false pieces

@[simp] theorem spelling_nil (first : Bool) : spelling first [] = [] := rfl

@[simp] theorem spelling_cons (first : Bool) (p : Piece) (pieces : List Piece) :
    spelling first (p :: pieces) = p.text first ++ spelling false pieces := rfl

@[simp] theorem written_nil : written [] = [] := rfl

@[simp] theorem written_cons (x : Bool × Char) (body : List (Bool × Char)) :
    written (x :: body) = (if x.1 then ['\\', x.2] else [x.2]) ++ written body := rfl

variable {escapable : Char → Prop} {p : Piece}

theorem Valid.mono {more : Char → Prop} (hmore : ∀ c, escapable c → more c) (h : p.Valid escapable) :
    p.Valid more := by
  cases p with
  | name n => exact h
  | bare inside => exact h
  | quoted body => exact fun x hx => ⟨fun hesc => hmore _ ((h x hx).1 hesc), (h x hx).2⟩

theorem text_ne_nil (h : p.Valid escapable) (first : Bool) : p.text first ≠ [] := by
  cases p with
  | name n =>
    cases first with
    | false => simp [text]
    | true => simpa [text] using h.1
  | bare inside => simp [text]
  | quoted body => simp [text]

/-- What may follow a piece: nothing, a dot or a bracket. -/
def Follows (rest : List Char) : Prop := rest = [] ∨ rest.head? = some '.' ∨ rest.head? = some '['

theorem follows_spelling (pieces : List Piece) : Follows (spelling false pieces) := by
  cases pieces with
  | nil => exact .inl rfl
  | cons p pieces =>
    cases p with
    | name n => exact .inr (.inl rfl)
    | bare inside => exact .inr (.inr rfl)
    | quoted body => exact .inr (.inr rfl)

theorem head_text_ne_dot (h : p.Valid escapable) (rest : List Char) :
    (p.text true ++ rest).head? ≠ some '.' := by
  cases p with
  | name n =>
    obtain ⟨hne, hplain⟩ := h
    cases n with
    | nil => exact absurd rfl hne
    | cons c n =>
      intro hdot
      exact hplain c List.mem_cons_self (.inl (Option.some.inj hdot))
  | bare inside => simp [text]
  | quoted body => simp [text]

theorem length_le_spelling {pieces : List Piece} (h : ∀ p ∈ pieces, p.Valid escapable) (first : Bool) :
    pieces.length ≤ (spelling first pieces).length := by
  induction pieces generalizing first with
  | nil => exact Nat.le_refl _
  | cons p pieces ih =>
    have hpos := List.length_pos_iff.mpr (text_ne_nil (h p List.mem_cons_self) first)
    have hrest := ih (fun q hq => h q (List.mem_cons_of_mem p hq)) false
    simp only [List.length_cons, spelling_cons, List.length_append]
    omega

theorem spelling_append (first : Bool) (some_ more : List Piece) (hne : some_ ≠ []) :
    spelling first (some_ ++ more) = spelling first some_ ++ spelling false more := by
  induction some_ generalizing first with
  | nil => exact absurd rfl hne
  | cons p some_ ih =>
    cases some_ with
    | nil => simp
    | cons q some_ =>
      have hrest := ih false (List.cons_ne_nil q some_)
      rw [List.cons_append, spelling_cons, hrest, ← List.append_assoc]
      rfl

theorem run_unique {stop : Char → Prop} [DecidablePred stop] {a b rest rest' : List Char}
    (ha : ∀ c ∈ a, ¬ stop c) (hb : ∀ c ∈ b, ¬ stop c) (hrest : ∀ c, rest.head? = some c → stop c)
    (hrest' : ∀ c, rest'.head? = some c → stop c) (h : a ++ rest = b ++ rest') : a = b ∧ rest = rest' := by
  have htake (a rest : List Char) (ha : ∀ c ∈ a, ¬ stop c) (hrest : ∀ c, rest.head? = some c → stop c) :
      (a ++ rest).takeWhile (fun c => ¬ stop c) = a := by
    rw [List.takeWhile_append_of_pos fun c hc => by simpa using ha c hc]
    cases rest with
    | nil => simp
    | cons c rest => simp [hrest c rfl]
  have hsame : a = b := by
    rw [← htake a rest ha hrest, h, htake b rest' hb hrest']
  rw [hsame] at h
  exact ⟨hsame, List.append_cancel_left h⟩

theorem Follows.stops {rest : List Char} (h : Follows rest) : ∀ c, rest.head? = some c → EndsName c := by
  intro c hc
  rcases h with rfl | hdot | hopen
  · cases hc
  · rw [hdot] at hc
    exact .inl (Option.some.inj hc).symm
  · rw [hopen] at hc
    exact .inr (.inl (Option.some.inj hc).symm)

theorem written_unique {body body' : List (Bool × Char)} {rest rest' : List Char}
    (h : (quoted body).Valid escapable) (h' : (quoted body').Valid escapable)
    (heq : written body ++ '"' :: rest = written body' ++ '"' :: rest') : body = body' ∧ rest = rest' := by
  induction body generalizing body' with
  | nil =>
    cases body' with
    | nil => exact ⟨rfl, (List.cons.inj heq).2⟩
    | cons y body' =>
      obtain ⟨hy, -⟩ := List.forall_mem_cons.mp h'
      obtain ⟨b, c⟩ := y
      cases b with
      | true => simp at heq
      | false => exact absurd (List.cons.inj heq).1.symm (hy.2 rfl).1
  | cons x body ih =>
    obtain ⟨hx, hbody⟩ := List.forall_mem_cons.mp h
    obtain ⟨b, c⟩ := x
    cases body' with
    | nil =>
      cases b with
      | true => simp at heq
      | false => exact absurd (List.cons.inj heq).1 (hx.2 rfl).1
    | cons y body' =>
      obtain ⟨hy, hbody'⟩ := List.forall_mem_cons.mp h'
      obtain ⟨b', c'⟩ := y
      cases b with
      | true =>
        cases b' with
        | true =>
          obtain ⟨hc, hrest⟩ := List.cons.inj (List.cons.inj heq).2
          obtain ⟨hsame, hrest⟩ := ih hbody hbody' hrest
          exact ⟨by rw [show c = c' from hc, hsame], hrest⟩
        | false => exact absurd (List.cons.inj heq).1.symm (hy.2 rfl).2
      | false =>
        cases b' with
        | true => exact absurd (List.cons.inj heq).1 (hx.2 rfl).2
        | false =>
          obtain ⟨hc, hrest⟩ := List.cons.inj heq
          obtain ⟨hsame, hrest⟩ := ih hbody hbody' hrest
          exact ⟨by rw [show c = c' from hc, hsame], hrest⟩

/-- The piece at the front of a text. -/
theorem text_unique {p q : Piece} {first : Bool} {rest rest' : List Char} (hp : p.Valid escapable)
    (hq : q.Valid escapable) (hrest : Follows rest) (hrest' : Follows rest')
    (h : p.text first ++ rest = q.text first ++ rest') : p = q ∧ rest = rest' := by
  have hname (n : List Char) (hn : (name n).Valid escapable) (tail body rest : List Char) :
      (name n).text first ++ tail ≠ '[' :: (body ++ rest) := by
    intro heq
    cases first with
    | false => simp [text] at heq
    | true =>
      obtain ⟨hne, hplain⟩ := hn
      cases n with
      | nil => exact hne rfl
      | cons c n => exact hplain c List.mem_cons_self (.inr (.inl (List.cons.inj heq).1))
  have hbare (inside : List Char) (hinside : (bare inside).Valid escapable) (tail quoted : List Char) :
      inside ++ tail ≠ '"' :: quoted := by
    intro heq
    cases inside with
    | nil => exact hinside.1 rfl
    | cons c inside => exact hinside.2.1 (congrArg some (List.cons.inj heq).1)
  cases p with
  | name n =>
    cases q with
    | name m =>
      have hsame : n ++ rest = m ++ rest' := by
        cases first with
        | true => exact h
        | false => exact (List.cons.inj h).2
      obtain ⟨rfl, hrest⟩ := run_unique hp.2 hq.2 hrest.stops hrest'.stops hsame
      exact ⟨rfl, hrest⟩
    | bare inside => exact absurd h (hname n hp _ _ _)
    | quoted body => exact absurd h (hname n hp _ ('"' :: (written body ++ ['"', ']'])) _)
  | bare inside =>
    cases q with
    | name m => exact absurd h.symm (hname m hq _ _ _)
    | bare inside' =>
      simp only [text, List.cons_append, List.append_assoc, List.cons.injEq, true_and,
        List.nil_append] at h
      have hclose (rest : List Char) : ∀ c, (']' :: rest).head? = some c → c = ']' :=
        fun c hc => (Option.some.inj hc).symm
      obtain ⟨rfl, hrest⟩ := run_unique (fun c hc => (hp.2.2 c hc).2) (fun c hc => (hq.2.2 c hc).2)
        (hclose rest) (hclose rest') h
      exact ⟨rfl, (List.cons.inj hrest).2⟩
    | quoted body =>
      simp only [text, List.cons_append, List.append_assoc, List.cons.injEq, true_and] at h
      exact absurd h (hbare inside hp _ _)
  | quoted body =>
    cases q with
    | name m => exact absurd h.symm (hname m hq _ ('"' :: (written body ++ ['"', ']'])) _)
    | bare inside' =>
      simp only [text, List.cons_append, List.append_assoc, List.cons.injEq, true_and] at h
      exact absurd h.symm (hbare inside' hq _ _)
    | quoted body' =>
      simp only [text, List.cons_append, List.append_assoc, List.cons.injEq, true_and,
        List.nil_append] at h
      obtain ⟨rfl, hrest⟩ := written_unique hp hq h
      exact ⟨rfl, (List.cons.inj hrest).2⟩

theorem spelling_injective {first : Bool} {pieces pieces' : List Piece}
    (h : ∀ p ∈ pieces, p.Valid escapable) (h' : ∀ p ∈ pieces', p.Valid escapable)
    (heq : spelling first pieces = spelling first pieces') : pieces = pieces' := by
  induction pieces generalizing first pieces' with
  | nil =>
    cases pieces' with
    | nil => rfl
    | cons q pieces' =>
      exact absurd (List.append_eq_nil_iff.mp heq.symm).1 (text_ne_nil (h' q List.mem_cons_self) first)
  | cons p pieces ih =>
    cases pieces' with
    | nil => exact absurd (List.append_eq_nil_iff.mp heq).1 (text_ne_nil (h p List.mem_cons_self) first)
    | cons q pieces' =>
      obtain ⟨hp, hpieces⟩ := List.forall_mem_cons.mp h
      obtain ⟨hq, hpieces'⟩ := List.forall_mem_cons.mp h'
      obtain ⟨rfl, hrest⟩ := text_unique hp hq (follows_spelling pieces) (follows_spelling pieces') heq
      rw [ih hpieces hpieces' hrest]

end Piece

end Guatiao.Lib
