import Guatiao.Library.JsonNumbers
import Guatiao.Library.JsonStrings
import Guatiao.Visit.TreeSink

/-!
# Reading JSON text into a value

The reader of a provider's kind descriptions: it goes over the text once, keeping a stack of the
containers that are open, and hands what it reads to a sink that builds the value. The text is the
list of its characters, and where reading stopped is what was left of it there.
-/

namespace Guatiao.Library.Json

open Lib Visit

/-- A container that is open. -/
inductive Open
  | map
  | list
  deriving DecidableEq

/-- The white space at the front is passed over. -/
def space (rest : List Char) : List Char := rest.dropWhile JsonText.isSpace

/-- Hands what the sink refused back at the current place. -/
def sunk (built : Except ValueError TreeSink) (rest : List Char) : Except Stopped TreeSink :=
  match built with
  | .ok sink => .ok sink
  | .error _ => .error (rest, "a value the builder refuses")

/-- One of the three words. -/
def word (w : String) (rest : List Char) : Except Stopped (List Char) :=
  if w.toList.isPrefixOf rest then .ok (rest.drop w.length) else .error (rest, "true, false or null")

/-- The characters a number is written in. -/
def isNumberChar (c : Char) : Bool :=
  c == '-' || c == '+' || c == '.' || c == 'e' || c == 'E' || c.isDigit

/-- A value that is no container. -/
def scalar (sink : TreeSink) (rest : List Char) : Except Stopped (TreeSink × List Char) :=
  match rest with
  | '"' :: _ => do
    let (text, after) ← string rest
    return (← sunk (sink.on (.string text)) after, after)
  | 't' :: _ => do
    let after ← word "true" rest
    return (← sunk (sink.on (.bool true)) after, after)
  | 'f' :: _ => do
    let after ← word "false" rest
    return (← sunk (sink.on (.bool false)) after, after)
  | 'n' :: _ => do
    let after ← word "null" rest
    return (← sunk (sink.on .null) after, after)
  | c :: _ =>
    if c == '-' || c.isDigit then
      -- The builder holds the number grammar and refuses the rest.
      match sink.on (.number (.ofList (rest.takeWhile isNumberChar))) with
      | .ok sink => .ok (sink, rest.dropWhile isNumberChar)
      | .error _ => .error (rest, "a number")
    else .error (rest, "a value")
  | [] => .error (rest, "a value")

/-- A key in quotes and its colon. -/
def key (sink : TreeSink) (rest : List Char) : Except Stopped (TreeSink × List Char) :=
  let rest := space rest
  if rest.head? != some '"' then .error (rest, "a key in quotes")
  else do
    let (text, after) ← string rest
    let sink ← sunk (sink.on (.key text)) after
    match space after with
    | ':' :: behind => return (sink, behind)
    | other => .error (other, "a colon after the key")

/-- Where the reader is: whether a value is due or one was read, the open containers, innermost first,
what is built, and what is left of the text. -/
structure Reading where
  due : Bool
  stack : List Open
  sink : TreeSink
  rest : List Char

/-- A value is due: it begins a container, or is a scalar. -/
def begin (stack : List Open) (sink : TreeSink) (rest : List Char) : Except Stopped Reading :=
  match space rest with
  | '{' :: body => do
    let sink ← sunk (sink.on (.mapBegin none)) body
    match space body with
    | '}' :: after => return ⟨false, stack, ← sunk (sink.on .mapEnd) after, after⟩
    | other => do
      let (sink, after) ← key sink other
      return ⟨true, .map :: stack, sink, after⟩
  | '[' :: body => do
    let sink ← sunk (sink.on (.listBegin none)) body
    match space body with
    | ']' :: after => return ⟨false, stack, ← sunk (sink.on .listEnd) after, after⟩
    | other => return ⟨true, .list :: stack, sink, other⟩
  | other => do
    let (sink, after) ← scalar sink other
    return ⟨false, stack, sink, after⟩

/-- A value was read: close what it ends, or go on to the next. -/
def proceed (top : Open) (stack : List Open) (sink : TreeSink) (rest : List Char) :
    Except Stopped Reading :=
  match top, space rest with
  | .map, ',' :: after => do
    let (sink, after) ← key sink after
    return ⟨true, .map :: stack, sink, after⟩
  | .list, ',' :: after => return ⟨true, .list :: stack, sink, after⟩
  | .map, '}' :: after => return ⟨false, stack, ← sunk (sink.on .mapEnd) after, after⟩
  | .list, ']' :: after => return ⟨false, stack, ← sunk (sink.on .listEnd) after, after⟩
  | _, other => .error (other, "a comma or the end of the container")

/-- One step: what is read, or the sink behind the whole document. -/
def step (r : Reading) : Except Stopped (Reading ⊕ TreeSink) :=
  if r.due then (begin r.stack r.sink r.rest).map .inl
  else
    match r.stack with
    | top :: stack => (proceed top stack r.sink r.rest).map .inl
    | [] =>
      match space r.rest with
      | [] => .ok (.inr r.sink)
      | other => .error (other, "text after the value")

mutual

/-- The value a tree denotes, where its strings name characters. -/
def denote : JsonText.Tree → Option Value
  | .null => some .null
  | .bool b => some (.bool b)
  | .number text => (Number.new (.ofList text)).map .number
  | .string items => (JsonText.characters items).map fun chars => .string (.ofList chars)
  | .list items => (denoteItems items).map .list
  | .map entries => (denoteEntries entries).map fun es => .map (JsonText.lastValues es)

/-- The values some trees denote. -/
def denoteItems : List JsonText.Tree → Option (List Value)
  | [] => some []
  | tree :: rest => (denote tree).bind fun v => (denoteItems rest).map (v :: ·)

/-- The entries some denote. -/
def denoteEntries : List (List JsonText.Item × JsonText.Tree) → Option (List Entry)
  | [] => some []
  | (key, tree) :: rest => (JsonText.characters key).bind fun chars =>
    (denote tree).bind fun v => (denoteEntries rest).map ((.ofList chars, v) :: ·)

end

section Step

variable {stack : List Open} {sink sink' : TreeSink} {s t rest after : List Char}
  {r next : Reading}

theorem space_spec (rest : List Char) : JsonText.Space rest (space rest) := by
  induction rest with
  | nil => exact .refl []
  | cons c rest ih =>
    rw [space, List.dropWhile_cons]
    by_cases hc : JsonText.isSpace c = true
    · rw [if_pos hc]
      exact .step hc ih
    · rw [if_neg hc]
      exact .refl _

theorem space_eq (h : JsonText.Space s t) (ht : ∀ c ∈ t.head?, JsonText.isSpace c = false) :
    space s = t := by
  induction h with
  | refl t =>
    cases t with
    | nil => rfl
    | cons c t => exact List.dropWhile_cons_of_neg (by rw [ht c rfl]; exact Bool.false_ne_true)
  | step hc _ ih => exact (List.dropWhile_cons_of_pos hc).trans (ih ht)

theorem space_length (h : JsonText.Space s t) : t.length ≤ s.length := by
  induction h with
  | refl => exact Nat.le_refl _
  | step _ _ ih => exact Nat.le_succ_of_le ih

theorem quoted_length {items : List JsonText.Item} (h : JsonText.Quoted s t items) :
    t.length < s.length := by
  induction h with
  | close t => exact Nat.lt_succ_self _
  | plain _ _ ih => exact Nat.lt_succ_of_lt ih
  | escaped _ _ ih => exact Nat.lt_succ_of_lt (Nat.lt_succ_of_lt ih)
  | unit _ _ ih => simp only [List.length_cons]; omega

theorem sunk_iff {built : Except ValueError TreeSink} :
    sunk built rest = .ok sink ↔ built = .ok sink := by
  cases built <;> simp [sunk]

theorem word_iff {w : String} : word w rest = .ok after ↔ rest = w.toList ++ after := by
  rw [word]
  constructor
  · intro h
    split at h
    · next hprefix =>
      obtain ⟨tail, rfl⟩ := List.isPrefixOf_iff_prefix.mp hprefix
      rw [← String.length_toList, List.drop_left] at h
      rw [Except.ok.inj h]
    · cases h
  · rintro rfl
    rw [if_pos (List.isPrefixOf_iff_prefix.mpr ⟨after, rfl⟩), ← String.length_toList, List.drop_left]

variable {entries : List Entry} {last : String} {keyed : Bool} {below : List Visit.Open}
  {done : Option Value}

theorem on_key_iff {text : String} :
    TreeSink.on ⟨.map entries last keyed :: below, done⟩ (.key text) = .ok sink ↔
      keyed = false ∧ sink = ⟨.map entries text true :: below, done⟩ := by
  cases keyed <;> simp [TreeSink.on, eq_comm]

/-- A key, its colon and what stands around it are read together, and the sink is told of the key. -/
theorem key_ok_iff : key sink rest = .ok (sink', after) ↔
    ∃ a b items chars, JsonText.Space rest ('"' :: a) ∧ JsonText.Quoted a b items ∧
      JsonText.characters items = some chars ∧ JsonText.Space b (':' :: after) ∧
        sink.on (.key (.ofList chars)) = .ok sink' := by
  constructor
  · intro h
    simp only [key] at h
    split at h
    · cases h
    · next hquote =>
      obtain ⟨a, ha⟩ : ∃ a, space rest = '"' :: a := by
        rw [bne_iff_ne, ne_eq, not_not, List.head?_eq_some_iff] at hquote
        exact hquote
      rw [ha] at h
      obtain ⟨⟨text, b⟩, hstring, h⟩ := bind_eq_ok h
      obtain ⟨told, hkey, h⟩ := bind_eq_ok h
      obtain ⟨items, chars, hquoted, hchars, rfl⟩ := string_iff.mp hstring
      split at h
      · next behind hcolon =>
        obtain ⟨rfl, rfl⟩ := Prod.mk.inj (Except.ok.inj h)
        exact ⟨a, b, items, chars, ha ▸ space_spec rest, hquoted, hchars,
          hcolon ▸ space_spec b, sunk_iff.mp hkey⟩
      · cases h
  · rintro ⟨a, b, items, chars, ha, hquoted, hchars, hb, hkey⟩
    have ha' : space rest = '"' :: a := space_eq ha (by simp [JsonText.isSpace])
    have hb' : space b = ':' :: after := space_eq hb (by simp [JsonText.isSpace])
    have hstring := string_iff.mpr ⟨items, chars, hquoted, hchars, rfl⟩
    have hkey' : sunk (sink.on (.key (.ofList chars))) b = .ok sink' := sunk_iff.mpr hkey
    simp only [key, ha', List.head?_cons, bne_self_eq_false, Bool.false_eq_true, if_false, hstring,
      Bind.bind, Except.bind, hkey', hb']
    rfl

theorem key_iff : key ⟨.map entries last keyed :: below, done⟩ rest = .ok (sink, after) ↔
    keyed = false ∧ ∃ a b items chars, JsonText.Space rest ('"' :: a) ∧
      JsonText.Quoted a b items ∧ JsonText.characters items = some chars ∧
        JsonText.Space b (':' :: after) ∧
          sink = ⟨.map entries (.ofList chars) true :: below, done⟩ := by
  simp only [key_ok_iff, on_key_iff]
  constructor
  · rintro ⟨a, b, items, chars, ha, hquoted, hchars, hb, hkeyed, hsink⟩
    exact ⟨hkeyed, a, b, items, chars, ha, hquoted, hchars, hb, hsink⟩
  · rintro ⟨hkeyed, a, b, items, chars, ha, hquoted, hchars, hb, hsink⟩
    exact ⟨a, b, items, chars, ha, hquoted, hchars, hb, hkeyed, hsink⟩

theorem key_length (h : key sink rest = .ok (sink', after)) : after.length < rest.length := by
  obtain ⟨a, b, items, chars, ha, hquoted, -, hb, -⟩ := key_ok_iff.mp h
  have hopen := space_length ha
  have htext := quoted_length hquoted
  have hcolon := space_length hb
  simp only [List.length_cons] at hopen hcolon
  omega

theorem word_cases {w : String} {event : Visit.Event} {v : Value} (hw : w ≠ "")
    (hevent : sink.on event = sink.leaf v)
    (h : (word w rest).bind (fun behind => (sunk (sink.on event) behind).bind fun built =>
      .ok (built, behind)) = .ok (sink', after)) :
    rest = w.toList ++ after ∧ sink.ready = .ok () ∧ sink' = sink.put v ∧
      after.length < rest.length := by
  obtain ⟨behind, hword, h⟩ := bind_eq_ok h
  obtain ⟨built, hbuilt, h⟩ := bind_eq_ok h
  obtain ⟨rfl, rfl⟩ := Prod.mk.inj (Except.ok.inj h)
  have hrest := word_iff.mp hword
  rw [sunk_iff, hevent] at hbuilt
  obtain ⟨hready, rfl⟩ := TreeSink.leaf_iff.mp hbuilt
  have hlength : w.toList.length ≠ 0 := by
    rw [ne_eq, List.length_eq_zero_iff, String.toList_eq_nil_iff]
    exact hw
  refine ⟨hrest, hready, rfl, ?_⟩
  rw [hrest, List.length_append]
  omega

/-- A scalar that is read is a value the text writes. -/
theorem scalar_cases (h : scalar sink rest = .ok (sink', after)) :
    ∃ tree v, JsonText.Writes rest after tree ∧ denote tree = some v ∧ sink.ready = .ok () ∧
      sink' = sink.put v ∧ after.length < rest.length := by
  rw [scalar.eq_def] at h
  split at h
  · next body =>
    obtain ⟨⟨text, behind⟩, hstring, h⟩ := bind_eq_ok h
    obtain ⟨built, hbuilt, h⟩ := bind_eq_ok h
    obtain ⟨rfl, rfl⟩ := Prod.mk.inj (Except.ok.inj h)
    obtain ⟨items, chars, hquoted, hchars, rfl⟩ := string_iff.mp hstring
    obtain ⟨hready, rfl⟩ := TreeSink.leaf_iff.mp (sunk_iff.mp hbuilt)
    refine ⟨.string items, _, .string hquoted, by rw [denote, hchars]; rfl, hready, rfl, ?_⟩
    exact Nat.lt_succ_of_lt (quoted_length hquoted)
  · next body =>
    obtain ⟨hrest, hready, hsink, hlength⟩ := word_cases (by decide) rfl h
    exact ⟨.bool true, _, hrest ▸ .bool true after, by rw [denote], hready, hsink, hlength⟩
  · next body =>
    obtain ⟨hrest, hready, hsink, hlength⟩ := word_cases (by decide) rfl h
    exact ⟨.bool false, _, hrest ▸ .bool false after, by rw [denote], hready, hsink, hlength⟩
  · next body =>
    obtain ⟨hrest, hready, hsink, hlength⟩ := word_cases (by decide) rfl h
    exact ⟨.null, _, hrest ▸ .null after, by rw [denote], hready, hsink, hlength⟩
  · next c body _ _ _ _ =>
    split at h
    · next hstart =>
      have hfirst : isNumberChar c = true := by
        rw [Bool.or_eq_true] at hstart
        simp only [isNumberChar, Bool.or_eq_true]
        tauto
      split at h
      · next built hbuilt =>
        obtain ⟨rfl, rfl⟩ := Prod.mk.inj (Except.ok.inj h)
        obtain ⟨n, hnew, hready, rfl⟩ := TreeSink.on_number_iff.mp hbuilt
        have hnumeral : JsonText.IsNumeral ((c :: body).takeWhile isNumberChar) := by
          rw [isNumeral_iff, ← Number.new_isSome, hnew]
          rfl
        have hwrites := JsonText.Writes.number ((c :: body).dropWhile isNumberChar) hnumeral
        rw [List.takeWhile_append_dropWhile] at hwrites
        refine ⟨_, _, hwrites, by rw [denote, hnew]; rfl, hready, rfl, ?_⟩
        rw [List.dropWhile_cons_of_pos hfirst]
        exact Nat.lt_succ_of_le (List.length_dropWhile_le _ _)
      · cases h
    · cases h
  · cases h

/-- What a reader does where a value is due: an empty container, the start of one that holds some,
or a scalar. -/
theorem begin_cases (h : begin stack sink rest = .ok next) : sink.ready = .ok () ∧
    ((∃ body after, JsonText.Space rest ('{' :: body) ∧ JsonText.Space body ('}' :: after) ∧
        next = ⟨false, stack, sink.put (.map []), after⟩) ∨
      (∃ body start begun after, JsonText.Space rest ('{' :: body) ∧ JsonText.Space body start ∧
        key ⟨.map [] "" false :: sink.stack, sink.done⟩ start = .ok (begun, after) ∧
          next = ⟨true, .map :: stack, begun, after⟩) ∨
      (∃ body after, JsonText.Space rest ('[' :: body) ∧ JsonText.Space body (']' :: after) ∧
        next = ⟨false, stack, sink.put (.list []), after⟩) ∨
      (∃ body start, JsonText.Space rest ('[' :: body) ∧ JsonText.Space body start ∧
        next = ⟨true, .list :: stack, ⟨.list [] :: sink.stack, sink.done⟩, start⟩) ∨
      ∃ start tree v after, JsonText.Space rest start ∧ JsonText.Writes start after tree ∧
        denote tree = some v ∧ after.length < start.length ∧
          next = ⟨false, stack, sink.put v, after⟩) := by
  rw [begin.eq_def] at h
  split at h
  · next body hopen =>
    have hbody := hopen ▸ space_spec rest
    obtain ⟨begun, hbegun, h⟩ := bind_eq_ok h
    obtain ⟨hready, rfl⟩ := TreeSink.on_mapBegin_iff.mp (sunk_iff.mp hbegun)
    refine ⟨hready, ?_⟩
    split at h
    · next after hclose =>
      obtain ⟨ended, hended, h⟩ := bind_eq_ok h
      obtain ⟨-, rfl⟩ := TreeSink.place_iff.mp (sunk_iff.mp hended)
      exact .inl ⟨body, after, hbody, hclose ▸ space_spec body, (Except.ok.inj h).symm⟩
    · next start _ =>
      obtain ⟨⟨keyed, after⟩, hkey, h⟩ := bind_eq_ok h
      exact .inr (.inl ⟨body, _, keyed, after, hbody, space_spec body, hkey, (Except.ok.inj h).symm⟩)
  · next body hopen =>
    have hbody := hopen ▸ space_spec rest
    obtain ⟨begun, hbegun, h⟩ := bind_eq_ok h
    obtain ⟨hready, rfl⟩ := TreeSink.on_listBegin_iff.mp (sunk_iff.mp hbegun)
    refine ⟨hready, ?_⟩
    split at h
    · next after hclose =>
      obtain ⟨ended, hended, h⟩ := bind_eq_ok h
      obtain ⟨-, rfl⟩ := TreeSink.place_iff.mp (sunk_iff.mp hended)
      exact .inr (.inr (.inl ⟨body, after, hbody, hclose ▸ space_spec body, (Except.ok.inj h).symm⟩))
    · exact .inr (.inr (.inr (.inl ⟨body, _, hbody, space_spec body, (Except.ok.inj h).symm⟩)))
  · obtain ⟨⟨sink', after⟩, hscalar, h⟩ := bind_eq_ok h
    obtain ⟨tree, v, hwrites, hdenote, hready, rfl, hlength⟩ := scalar_cases hscalar
    exact ⟨hready, .inr (.inr (.inr (.inr ⟨_, tree, v, after, space_spec rest, hwrites, hdenote,
      hlength, (Except.ok.inj h).symm⟩)))⟩

theorem proceed_list_cases {items : List Value}
    (h : proceed .list stack ⟨.list items :: below, done⟩ rest = .ok next) :
    (∃ after, JsonText.Space rest (',' :: after) ∧
        next = ⟨true, .list :: stack, ⟨.list items :: below, done⟩, after⟩) ∨
      ∃ after, JsonText.Space rest (']' :: after) ∧ TreeSink.ready ⟨below, done⟩ = .ok () ∧
        next = ⟨false, stack, TreeSink.put ⟨below, done⟩ (.list items), after⟩ := by
  rw [proceed.eq_def] at h
  split at h
  · next hopen _ => cases hopen
  · next after _ hspace =>
    exact .inl ⟨after, hspace ▸ space_spec rest, (Except.ok.inj h).symm⟩
  · next hopen _ => cases hopen
  · next after _ hspace =>
    obtain ⟨ended, hended, h⟩ := bind_eq_ok h
    obtain ⟨hready, rfl⟩ := TreeSink.place_iff.mp (sunk_iff.mp hended)
    exact .inr ⟨after, hspace ▸ space_spec rest, hready, (Except.ok.inj h).symm⟩
  · cases h

theorem proceed_map_cases
    (h : proceed .map stack ⟨.map entries last false :: below, done⟩ rest = .ok next) :
    (∃ start begun after, JsonText.Space rest (',' :: start) ∧
        key ⟨.map entries last false :: below, done⟩ start = .ok (begun, after) ∧
          next = ⟨true, .map :: stack, begun, after⟩) ∨
      ∃ after, JsonText.Space rest ('}' :: after) ∧ TreeSink.ready ⟨below, done⟩ = .ok () ∧
        next = ⟨false, stack, TreeSink.put ⟨below, done⟩ (.map entries), after⟩ := by
  rw [proceed.eq_def] at h
  split at h
  · next start _ hspace =>
    obtain ⟨⟨keyed, after⟩, hkey, h⟩ := bind_eq_ok h
    exact .inl ⟨start, keyed, after, hspace ▸ space_spec rest, hkey, (Except.ok.inj h).symm⟩
  · next hopen _ => cases hopen
  · next after _ hspace =>
    obtain ⟨ended, hended, h⟩ := bind_eq_ok h
    obtain ⟨hready, rfl⟩ := TreeSink.place_iff.mp (sunk_iff.mp hended)
    exact .inr ⟨after, hspace ▸ space_spec rest, hready, (Except.ok.inj h).symm⟩
  · next hopen _ => cases hopen
  · cases h

theorem begin_length (h : begin stack sink rest = .ok next) : next.rest.length < rest.length := by
  rcases (begin_cases h).2 with ⟨body, after, hopen, hclose, rfl⟩ |
    ⟨body, start, begun, after, hopen, hstart, hkey, rfl⟩ | ⟨body, after, hopen, hclose, rfl⟩ |
    ⟨body, start, hopen, hstart, rfl⟩ | ⟨start, tree, v, after, hstart, -, -, hlength, rfl⟩
  · have hopen := space_length hopen
    have hclose := space_length hclose
    simp only [List.length_cons] at hopen hclose ⊢
    omega
  · have hopen := space_length hopen
    have hstart := space_length hstart
    have hkey := key_length hkey
    simp only [List.length_cons] at hopen ⊢
    omega
  · have hopen := space_length hopen
    have hclose := space_length hclose
    simp only [List.length_cons] at hopen hclose ⊢
    omega
  · have hopen := space_length hopen
    have hstart := space_length hstart
    simp only [List.length_cons] at hopen ⊢
    omega
  · have hstart := space_length hstart
    exact Nat.lt_of_lt_of_le hlength hstart

theorem proceed_length {top : Open} (h : proceed top stack sink rest = .ok next) :
    next.rest.length < rest.length := by
  have hspace := List.length_dropWhile_le JsonText.isSpace rest
  rw [← space] at hspace
  rw [proceed.eq_def] at h
  split at h
  · next start _ hstart =>
    obtain ⟨⟨keyed, after⟩, hkey, h⟩ := bind_eq_ok h
    obtain rfl := Except.ok.inj h
    have hkey := key_length hkey
    rw [hstart, List.length_cons] at hspace
    exact Nat.lt_of_lt_of_le hkey (Nat.le_of_succ_le hspace)
  · next after _ hafter =>
    obtain rfl := Except.ok.inj h
    rw [hafter] at hspace
    exact hspace
  · next after _ hafter =>
    obtain ⟨ended, -, h⟩ := bind_eq_ok h
    obtain rfl := Except.ok.inj h
    rw [hafter] at hspace
    exact hspace
  · next after _ hafter =>
    obtain ⟨ended, -, h⟩ := bind_eq_ok h
    obtain rfl := Except.ok.inj h
    rw [hafter] at hspace
    exact hspace
  · cases h

theorem step_length (h : step r = .ok (.inl next)) : next.rest.length < r.rest.length := by
  have hmap {x : Except Stopped Reading} (hx : x.map Sum.inl = .ok (.inl next : Reading ⊕ TreeSink)) :
      x = .ok next := by
    cases x with
    | error stopped => cases hx
    | ok read => rw [Sum.inl.inj (Except.ok.inj hx)]
  rw [step] at h
  split at h
  · exact begin_length (hmap h)
  · split at h
    · exact proceed_length (hmap h)
    · split at h
      · cases Except.ok.inj h
      · cases h

end Step

/-- The loop of `document`. -/
def run (r : Reading) : Except Stopped TreeSink :=
  match _h : step r with
  | .error stopped => .error stopped
  | .ok (.inr sink) => .ok sink
  | .ok (.inl next) => run next
termination_by r.rest.length
decreasing_by exact step_length _h

/-- The value a text holds, or the byte offset where the text stopped being JSON, and why. -/
def read (text : String) : Except (ℕ × String) Value :=
  match run ⟨true, [], .new, text.toList⟩ with
  | .error (rest, why) => .error (text.utf8ByteSize - (String.ofList rest).utf8ByteSize, why)
  | .ok sink =>
    match sink.intoValue with
    | .ok v => .ok v
    | .error _ => .error (text.utf8ByteSize, "an incomplete value")

end Guatiao.Library.Json
