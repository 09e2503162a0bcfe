import Guatiao.Lib.AssocList
import Mathlib.Data.List.Basic

/-!
# The grammar of a JSON text

A text is white space, a value and white space. What the grammar derives is told by what is left of
the text: each rule relates the text it starts at to the text behind it. A string is written as
characters and code units, and names characters when the units outside the basic plane come in pairs.
-/

namespace Guatiao.Lib.JsonText

/-- White space between the parts of a text. -/
def isSpace (c : Char) : Bool := c == ' ' || c == '\t' || c == '\n' || c == '\r'

/-- The text behind some white space. -/
inductive Space : List Char → List Char → Prop
  | refl (s : List Char) : Space s s
  | step {c : Char} {s t : List Char} (hc : isSpace c = true) (h : Space s t) : Space (c :: s) t

/-- One element of a string, as it is written: a character, or a code unit by its number. -/
inductive Item where
  | char (c : Char)
  | unit (code : ℕ)
  deriving DecidableEq

/-- A character that stands for itself in a string. -/
def isPlain (c : Char) : Bool := c != '"' && c != '\\' && 0x20 ≤ c.toNat

/-- The character an escape of one character names. -/
def escape (c : Char) : Option Char :=
  if c == '"' || c == '\\' || c == '/' then some c
  else if c == 'b' then some (.ofNat 0x8)
  else if c == 'f' then some (.ofNat 0xc)
  else if c == 'n' then some '\n'
  else if c == 'r' then some '\r'
  else if c == 't' then some '\t'
  else none

/-- The number of a hexadecimal digit. -/
def hexDigit (c : Char) : Option ℕ :=
  if '0' ≤ c ∧ c ≤ '9' then some (c.toNat - '0'.toNat)
  else if 'a' ≤ c ∧ c ≤ 'f' then some (c.toNat - 'a'.toNat + 10)
  else if 'A' ≤ c ∧ c ≤ 'F' then some (c.toNat - 'A'.toNat + 10)
  else none

/-- The number of four hexadecimal digits. -/
def hex4 (a b c d : Char) : Option ℕ := do
  let a ← hexDigit a
  let b ← hexDigit b
  let c ← hexDigit c
  let d ← hexDigit d
  return ((a * 16 + b) * 16 + c) * 16 + d

/-- What a string writes, from behind its opening quote to behind its closing one. -/
inductive Quoted : List Char → List Char → List Item → Prop
  | close (t : List Char) : Quoted ('"' :: t) t []
  | plain {c : Char} {s t : List Char} {items : List Item} (hc : isPlain c = true)
      (h : Quoted s t items) : Quoted (c :: s) t (.char c :: items)
  | escaped {e c : Char} {s t : List Char} {items : List Item} (he : escape e = some c)
      (h : Quoted s t items) : Quoted ('\\' :: e :: s) t (.char c :: items)
  | unit {w x y z : Char} {code : ℕ} {s t : List Char} {items : List Item}
      (hcode : hex4 w x y z = some code) (h : Quoted s t items) :
      Quoted ('\\' :: 'u' :: w :: x :: y :: z :: s) t (.unit code :: items)

/-- The first unit of a pair. -/
def isHigh (code : ℕ) : Bool := 0xd800 ≤ code && code < 0xdc00

/-- The second unit of a pair. -/
def isLow (code : ℕ) : Bool := 0xdc00 ≤ code && code < 0xe000

/-- The character two units name together. -/
def paired (high low : ℕ) : Char := .ofNat (0x10000 + (high - 0xd800) * 0x400 + (low - 0xdc00))

/-- The characters a string names, none where a unit of a pair stands alone. -/
def characters : List Item → Option (List Char)
  | [] => some []
  | .char c :: rest => (characters rest).map (c :: ·)
  | .unit high :: .unit low :: rest =>
    if isHigh high then
      if isLow low then (characters rest).map (paired high low :: ·) else none
    else if isLow high then none
    else (characters (.unit low :: rest)).map (.ofNat high :: ·)
  | .unit code :: rest =>
    if isHigh code || isLow code then none else (characters rest).map (.ofNat code :: ·)

/-- Some digits, at least one. -/
def IsDigits (s : List Char) : Prop := s ≠ [] ∧ ∀ c ∈ s, c.isDigit = true

/-- The whole part of a number: no zero in front. -/
def IsWhole (s : List Char) : Prop := IsDigits s ∧ (s.head? = some '0' → s = ['0'])

/-- The fraction of a number, if it has one. -/
def IsFraction (s : List Char) : Prop := s = [] ∨ ∃ ds, IsDigits ds ∧ s = '.' :: ds

/-- The exponent of a number, if it has one. -/
def IsExponent (s : List Char) : Prop :=
  s = [] ∨ ∃ e sign ds, (e = 'e' ∨ e = 'E') ∧ (sign = [] ∨ sign = ['-'] ∨ sign = ['+']) ∧
    IsDigits ds ∧ s = e :: (sign ++ ds)

/-- A number. -/
def IsNumeral (s : List Char) : Prop :=
  ∃ minus whole fraction exponent, (minus = [] ∨ minus = ['-']) ∧ IsWhole whole ∧
    IsFraction fraction ∧ IsExponent exponent ∧ s = minus ++ whole ++ fraction ++ exponent

/-- What a text writes: the numbers and the strings as they are written. -/
inductive Tree where
  | null
  | bool (b : Bool)
  | number (text : List Char)
  | string (items : List Item)
  | list (items : List Tree)
  | map (entries : List (List Item × Tree))

mutual

/-- A value, from where it starts to behind it. -/
inductive Writes : List Char → List Char → Tree → Prop
  | null (t : List Char) : Writes ("null".toList ++ t) t .null
  | bool (b : Bool) (t : List Char) : Writes ((if b then "true" else "false").toList ++ t) t (.bool b)
  | number {text : List Char} (t : List Char) (h : IsNumeral text) : Writes (text ++ t) t (.number text)
  | string {s t : List Char} {items : List Item} (h : Quoted s t items) :
      Writes ('"' :: s) t (.string items)
  | emptyList {s t : List Char} (h : Space s (']' :: t)) : Writes ('[' :: s) t (.list [])
  | list {s t : List Char} {items : List Tree} (h : WritesItems s t items) :
      Writes ('[' :: s) t (.list items)
  | emptyMap {s t : List Char} (h : Space s ('}' :: t)) : Writes ('{' :: s) t (.map [])
  | map {s t : List Char} {entries : List (List Item × Tree)} (h : WritesEntries s t entries) :
      Writes ('{' :: s) t (.map entries)

/-- The items of a list with some left, to behind its bracket. -/
inductive WritesItems : List Char → List Char → List Tree → Prop
  | last {s t a b : List Char} {v : Tree} (hs : Space s a) (hv : Writes a b v)
      (ht : Space b (']' :: t)) : WritesItems s t [v]
  | more {s t a b c : List Char} {v : Tree} {rest : List Tree} (hs : Space s a) (hv : Writes a b v)
      (hb : Space b (',' :: c)) (hrest : WritesItems c t rest) : WritesItems s t (v :: rest)

/-- The entries of a map with some left, to behind its brace. -/
inductive WritesEntries : List Char → List Char → List (List Item × Tree) → Prop
  | last {s t a b c d e : List Char} {key : List Item} {v : Tree} (hs : Space s ('"' :: a))
      (hkey : Quoted a b key) (hb : Space b (':' :: c)) (hc : Space c d) (hv : Writes d e v)
      (ht : Space e ('}' :: t)) : WritesEntries s t [(key, v)]
  | more {s t a b c d e f : List Char} {key : List Item} {v : Tree}
      {rest : List (List Item × Tree)} (hs : Space s ('"' :: a)) (hkey : Quoted a b key)
      (hb : Space b (':' :: c)) (hc : Space c d) (hv : Writes d e v) (he : Space e (',' :: f))
      (hrest : WritesEntries f t rest) : WritesEntries s t ((key, v) :: rest)

end

/-- The text of a document. -/
def Document (text : List Char) (tree : Tree) : Prop :=
  ∃ s t, Space text s ∧ Writes s t tree ∧ Space t []

section Repeated

variable {κ β : Type} [DecidableEq κ]

/-- The value under a key behind some entries: the last of them under it, or the one it had. -/
def lastValue (k : κ) (v : β) (entries : List (κ × β)) : β :=
  ((entries.reverse.find? (·.1 == k)).map Prod.snd).getD v

/-- Each key once, where it stands first, with the value it has last. -/
def lastValues : List (κ × β) → List (κ × β)
  | [] => []
  | (k, v) :: rest => (k, lastValue k v rest) :: (lastValues rest).filter (·.1 != k)

variable {k : κ} {v : β} {m entries : List (κ × β)}

theorem lastValue_cons (key : κ) (w : β) : lastValue key w ((k, v) :: entries) =
    lastValue key (if k = key then v else w) entries := by
  simp only [lastValue, List.reverse_cons, List.find?_append]
  cases hfind : entries.reverse.find? (·.1 == key) with
  | some found => rfl
  | none => by_cases hk : k = key <;> simp [hk]

theorem map_set_of_mem (hnodup : (AssocList.keys m).Nodup) (h : k ∈ AssocList.keys m) :
    (AssocList.set k v m).map (fun p => (p.1, lastValue p.1 p.2 entries)) =
      m.map fun p => (p.1, lastValue p.1 p.2 ((k, v) :: entries)) := by
  induction m with
  | nil => cases h
  | cons p m ih =>
    obtain ⟨key, w⟩ := p
    rw [AssocList.keys_cons, List.nodup_cons] at hnodup
    by_cases hk : key = k
    · subst hk
      have hrest : m.map (fun p => (p.1, lastValue p.1 p.2 entries)) =
          m.map fun p => (p.1, lastValue p.1 p.2 ((key, v) :: entries)) := by
        refine List.map_congr_left fun p hp => ?_
        have hne : key ≠ p.1 := fun heq => hnodup.1 (List.mem_map.mpr ⟨p, hp, heq.symm⟩)
        rw [lastValue_cons, if_neg hne]
      rw [AssocList.set, if_pos rfl, List.map_cons, List.map_cons, hrest, lastValue_cons, if_pos rfl]
    · have hmem : k ∈ AssocList.keys m := (List.mem_cons.mp h).resolve_left (Ne.symm hk)
      rw [AssocList.set, if_neg hk, List.map_cons, List.map_cons, ih hnodup.2 hmem, lastValue_cons,
        if_neg (Ne.symm hk)]

/-- Entries stored one after another: those there have their last values, and the new ones stand
behind them, each where it came first. -/
theorem foldl_set_eq (hnodup : (AssocList.keys m).Nodup) :
    entries.foldl (fun m e => AssocList.set e.1 e.2 m) m =
      m.map (fun p => (p.1, lastValue p.1 p.2 entries)) ++
        (lastValues entries).filter fun p => decide (p.1 ∉ AssocList.keys m) := by
  induction entries generalizing m with
  | nil => simp [lastValues, lastValue]
  | cons e entries ih =>
    obtain ⟨k, v⟩ := e
    rw [List.foldl_cons, ih (AssocList.nodup_keys_set hnodup), lastValues, List.filter_cons,
      List.filter_filter]
    by_cases hk : k ∈ AssocList.keys m
    · have hfilter : (lastValues entries).filter
          (fun p => decide (p.1 ∉ AssocList.keys (AssocList.set k v m))) =
          (lastValues entries).filter fun p => decide (p.1 ∉ AssocList.keys m) && p.1 != k := by
        refine List.filter_congr fun p _ => ?_
        rw [AssocList.keys_set_of_mem hk]
        by_cases hp : p.1 = k
        · simp [hp, hk]
        · simp [hp]
      rw [map_set_of_mem hnodup hk, hfilter, if_neg (by simpa using hk)]
    · have hfilter : (lastValues entries).filter
          (fun p => decide (p.1 ∉ AssocList.keys (AssocList.set k v m))) =
          (lastValues entries).filter fun p => decide (p.1 ∉ AssocList.keys m) && p.1 != k := by
        refine List.filter_congr fun p _ => ?_
        rw [AssocList.set_of_not_mem hk]
        by_cases hp : p.1 = k
        · simp [hp]
        · simp [hp]
      have hmap : m.map (fun p => (p.1, lastValue p.1 p.2 entries)) =
          m.map fun p => (p.1, lastValue p.1 p.2 ((k, v) :: entries)) := by
        refine List.map_congr_left fun p hp => ?_
        have hne : k ≠ p.1 := fun heq => hk (List.mem_map.mpr ⟨p, hp, heq.symm⟩)
        rw [lastValue_cons, if_neg hne]
      rw [hfilter, AssocList.set_of_not_mem hk, List.map_append, List.map_singleton, hmap,
        if_pos (by simpa using hk), List.append_assoc, List.singleton_append]

theorem foldl_set_nil (entries : List (κ × β)) :
    entries.foldl (fun m e => AssocList.set e.1 e.2 m) [] = lastValues entries := by
  have hnodup : (AssocList.keys ([] : List (κ × β))).Nodup := List.nodup_nil
  rw [foldl_set_eq hnodup]
  simp

end Repeated

mutual

/-- How many containers stand one in another. -/
def Tree.depth : Tree → ℕ
  | .list items => depthItems items + 1
  | .map entries => depthEntries entries + 1
  | _ => 0

/-- The greatest depth among some trees. -/
def Tree.depthItems : List Tree → ℕ
  | [] => 0
  | v :: rest => max v.depth (depthItems rest)

/-- The greatest depth among the values of some entries. -/
def Tree.depthEntries : List (List Item × Tree) → ℕ
  | [] => 0
  | (_, v) :: rest => max v.depth (depthEntries rest)

end

mutual

/-- The units outside the basic plane come in pairs, in every string and key. -/
def Tree.Paired : Tree → Prop
  | .string items => ∃ chars, characters items = some chars
  | .list items => PairedItems items
  | .map entries => PairedEntries entries
  | _ => True

/-- The same, in some trees. -/
def Tree.PairedItems : List Tree → Prop
  | [] => True
  | v :: rest => v.Paired ∧ PairedItems rest

/-- The same, in some entries. -/
def Tree.PairedEntries : List (List Item × Tree) → Prop
  | [] => True
  | (key, v) :: rest => (∃ chars, characters key = some chars) ∧ v.Paired ∧ PairedEntries rest

end

end Guatiao.Lib.JsonText
