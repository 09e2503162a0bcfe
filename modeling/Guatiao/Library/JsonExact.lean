import Guatiao.Library.ReadJson

/-!
# The JSON reader reads JSON

What the reader accepts is derived by the grammar and is given the value it denotes, and what the
grammar derives is read. The reader keeps a stack where the grammar nests, so both directions go from
the state where a value is due to the state behind it, below which the stack is as it was.
-/

namespace Guatiao.Library.Json

open Lib Visit

section Run

variable {stack : List Open} {sink sink' final : TreeSink} {rest : List Char} {r next : Reading}

theorem run_next (h : step r = .ok (.inl next)) : run r = run next := by
  rw [run.eq_def]
  split
  · next hstep => rw [h] at hstep; cases hstep
  · next hstep => rw [h] at hstep; cases Except.ok.inj hstep
  · next hstep =>
    rw [h] at hstep
    rw [Sum.inl.inj (Except.ok.inj hstep)]

theorem run_cases (h : run r = .ok final) :
    step r = .ok (.inr final) ∨ ∃ next, step r = .ok (.inl next) ∧ run next = .ok final := by
  rw [run.eq_def] at h
  split at h
  · cases h
  · next hstep =>
    rw [← Except.ok.inj h]
    exact .inl hstep
  · next hstep => exact .inr ⟨_, hstep, h⟩

theorem map_inl_cases {x : Except Stopped Reading} {sum : Reading ⊕ TreeSink}
    (h : x.map Sum.inl = .ok sum) : ∃ next, sum = .inl next ∧ x = .ok next := by
  cases x with
  | error stopped => cases h
  | ok next => exact ⟨next, (Except.ok.inj h).symm, rfl⟩

theorem run_due_cases (h : run ⟨true, stack, sink, rest⟩ = .ok final) :
    ∃ next, begin stack sink rest = .ok next ∧ run next = .ok final := by
  rcases run_cases h with hdone | ⟨next, hstep, hrun⟩
  · obtain ⟨next, hnext, -⟩ := map_inl_cases hdone
    cases hnext
  · obtain ⟨next', hnext, hbegin⟩ := map_inl_cases hstep
    rw [← Sum.inl.inj hnext] at hbegin
    exact ⟨next, hbegin, hrun⟩

theorem run_open_cases {top : Open} (h : run ⟨false, top :: stack, sink, rest⟩ = .ok final) :
    ∃ next, proceed top stack sink rest = .ok next ∧ run next = .ok final := by
  rcases run_cases h with hdone | ⟨next, hstep, hrun⟩
  · obtain ⟨next, hnext, -⟩ := map_inl_cases hdone
    cases hnext
  · obtain ⟨next', hnext, hproceed⟩ := map_inl_cases hstep
    rw [← Sum.inl.inj hnext] at hproceed
    exact ⟨next, hproceed, hrun⟩

theorem run_begin (h : begin stack sink rest = .ok next) :
    run ⟨true, stack, sink, rest⟩ = run next := by
  refine run_next ?_
  show (begin stack sink rest).map Sum.inl = _
  rw [h]
  rfl

theorem run_proceed {top : Open} (h : proceed top stack sink rest = .ok next) :
    run ⟨false, top :: stack, sink, rest⟩ = run next := by
  refine run_next ?_
  show (proceed top stack sink rest).map Sum.inl = _
  rw [h]
  rfl

theorem run_whole_iff : run ⟨false, [], sink, rest⟩ = .ok final ↔
    JsonText.Space rest [] ∧ final = sink := by
  constructor
  · intro h
    rcases run_cases h with hdone | ⟨next, hstep, -⟩
    · simp only [step, Bool.false_eq_true, if_false] at hdone
      split at hdone
      · next hspace =>
        exact ⟨hspace ▸ space_spec rest, (Sum.inr.inj (Except.ok.inj hdone)).symm⟩
      · cases hdone
    · simp only [step, Bool.false_eq_true, if_false] at hstep
      split at hstep
      · cases Except.ok.inj hstep
      · cases hstep
  · rintro ⟨hspace, rfl⟩
    have hstep : step ⟨false, [], final, rest⟩ = .ok (.inr final) := by
      simp only [step, Bool.false_eq_true, if_false, space_eq hspace (by simp)]
    rw [run.eq_def]
    split
    · next h => rw [hstep] at h; cases h
    · next h =>
      rw [hstep] at h
      rw [Sum.inr.inj (Except.ok.inj h)]
    · next h => rw [hstep] at h; cases Except.ok.inj h

end Run

theorem space_trans {a b c : List Char} (h : JsonText.Space a b) (h' : JsonText.Space b c) :
    JsonText.Space a c := by
  induction h with
  | refl => exact h'
  | step hc _ ih => exact .step hc (ih h')

/-- Entries stored one after another. -/
def store (entries stored : List Entry) : List Entry :=
  stored.foldl (fun m e => AssocList.set e.1 e.2 m) entries

/-- Every text so long that is read where a value is due begins with one. -/
def ValuesRead (n : ℕ) : Prop :=
  ∀ ⦃stack : List Open⦄ ⦃sink final : TreeSink⦄ ⦃rest : List Char⦄, rest.length = n →
    run ⟨true, stack, sink, rest⟩ = .ok final →
      ∃ s t tree v, JsonText.Space rest s ∧ JsonText.Writes s t tree ∧ denote tree = some v ∧
        sink.ready = .ok () ∧ t.length < n ∧ run ⟨false, stack, sink.put v, t⟩ = .ok final

/-- Every text so long that is read within a list is the rest of it. -/
def ItemsRead (n : ℕ) : Prop :=
  ∀ ⦃stack : List Open⦄ ⦃below : List Visit.Open⦄ ⦃done : Option Value⦄ ⦃items : List Value⦄
    ⦃final : TreeSink⦄ ⦃rest : List Char⦄, rest.length = n →
    run ⟨true, .list :: stack, ⟨.list items :: below, done⟩, rest⟩ = .ok final →
      ∃ t trees vs, JsonText.WritesItems rest t trees ∧ denoteItems trees = some vs ∧ t.length < n ∧
        run ⟨false, stack, TreeSink.put ⟨below, done⟩ (.list (items ++ vs)), t⟩ = .ok final

/-- Every text so long that is read behind a key within a map is the rest of it, with the key. -/
def EntriesRead (n : ℕ) : Prop :=
  ∀ ⦃stack : List Open⦄ ⦃below : List Visit.Open⦄ ⦃done : Option Value⦄ ⦃entries : List Entry⦄
    ⦃last : String⦄ ⦃begun final : TreeSink⦄ ⦃start rest : List Char⦄, rest.length = n →
    key ⟨.map entries last false :: below, done⟩ start = .ok (begun, rest) →
    run ⟨true, .map :: stack, begun, rest⟩ = .ok final →
      ∃ t written es, JsonText.WritesEntries start t written ∧ denoteEntries written = some es ∧
        t.length < n ∧
          run ⟨false, stack, TreeSink.put ⟨below, done⟩ (.map (store entries es)), t⟩ = .ok final

section Sound

variable {n : ℕ}

theorem writesEntries_space {s s' t : List Char} {written : List (List JsonText.Item × JsonText.Tree)}
    (hspace : JsonText.Space s s') (h : JsonText.WritesEntries s' t written) :
    JsonText.WritesEntries s t written := by
  cases h with
  | last hs hkey hb hc hv ht => exact .last (space_trans hspace hs) hkey hb hc hv ht
  | more hs hkey hb hc hv he hrest => exact .more (space_trans hspace hs) hkey hb hc hv he hrest

theorem writesItems_space {s s' t : List Char} {trees : List JsonText.Tree}
    (hspace : JsonText.Space s s') (h : JsonText.WritesItems s' t trees) :
    JsonText.WritesItems s t trees := by
  cases h with
  | last hs hv ht => exact .last (space_trans hspace hs) hv ht
  | more hs hv hb hrest => exact .more (space_trans hspace hs) hv hb hrest

theorem itemsRead_step (hvalues : ValuesRead n) (hitems : ∀ m < n, ItemsRead m) : ItemsRead n := by
  intro stack below done items final rest hlength hrun
  obtain ⟨s, t, tree, v, hs, hwrites, hdenote, -, hshort, hrun⟩ := hvalues hlength hrun
  obtain ⟨next, hproceed, hrun⟩ := run_open_cases hrun
  have hone : denoteItems [tree] = some [v] := by
    rw [denoteItems, hdenote]
    rfl
  rcases proceed_list_cases hproceed with ⟨after, hcomma, rfl⟩ | ⟨after, hclose, -, rfl⟩
  · have hcommaLength := space_length hcomma
    rw [List.length_cons] at hcommaLength
    obtain ⟨t', trees, vs, hrest, hdenotes, hshort', hrun⟩ :=
      hitems after.length (by omega) rfl hrun
    refine ⟨t', tree :: trees, v :: vs, .more hs hwrites hcomma hrest, ?_, by omega, ?_⟩
    · rw [denoteItems, hdenote, hdenotes]
      rfl
    · rw [List.append_assoc] at hrun
      exact hrun
  · have hcloseLength := space_length hclose
    rw [List.length_cons] at hcloseLength
    exact ⟨after, [tree], [v], .last hs hwrites hclose, hone, by omega, hrun⟩

theorem entriesRead_step (hvalues : ValuesRead n) (hentries : ∀ m < n, EntriesRead m) :
    EntriesRead n := by
  intro stack below done entries last begun final start rest hlength hkey hrun
  obtain ⟨-, a, b, items, chars, ha, hquoted, hchars, hb, rfl⟩ := key_iff.mp hkey
  obtain ⟨s, t, tree, v, hs, hwrites, hdenote, -, hshort, hrun⟩ := hvalues hlength hrun
  obtain ⟨next, hproceed, hrun⟩ := run_open_cases hrun
  have hone : denoteEntries [(items, tree)] = some [(.ofList chars, v)] := by
    rw [denoteEntries, hchars, hdenote]
    rfl
  rcases proceed_map_cases hproceed with ⟨start', begun, after, hcomma, hkey', rfl⟩ |
    ⟨after, hclose, -, rfl⟩
  · have hcommaLength := space_length hcomma
    have hkeyLength := key_length hkey'
    rw [List.length_cons] at hcommaLength
    obtain ⟨t', written, es, hrest, hdenotes, hshort', hrun⟩ :=
      hentries after.length (by omega) rfl hkey' hrun
    refine ⟨t', (items, tree) :: written, (.ofList chars, v) :: es,
      .more ha hquoted hb hs hwrites hcomma hrest, ?_, by omega, hrun⟩
    rw [denoteEntries, hchars, hdenote, hdenotes]
    rfl
  · have hcloseLength := space_length hclose
    rw [List.length_cons] at hcloseLength
    exact ⟨after, [(items, tree)], [(.ofList chars, v)], .last ha hquoted hb hs hwrites hclose, hone,
      by omega, hrun⟩

theorem valuesRead_step (hitems : ∀ m < n, ItemsRead m) (hentries : ∀ m < n, EntriesRead m) :
    ValuesRead n := by
  intro stack sink final rest hlength hrun
  obtain ⟨next, hbegin, hrun⟩ := run_due_cases hrun
  obtain ⟨hready, hcases⟩ := begin_cases hbegin
  rcases hcases with ⟨body, after, hopen, hclose, rfl⟩ |
    ⟨body, start, begun, after, hopen, hstart, hkey, rfl⟩ | ⟨body, after, hopen, hclose, rfl⟩ |
    ⟨body, start, hopen, hstart, rfl⟩ | ⟨start, tree, v, after, hstart, hwrites, hdenote, hshort, rfl⟩
  · have hopenLength := space_length hopen
    have hcloseLength := space_length hclose
    simp only [List.length_cons] at hopenLength hcloseLength
    exact ⟨_, after, .map [], .map [], hopen, .emptyMap hclose, by rw [denote, denoteEntries]; rfl,
      hready, by omega, hrun⟩
  · have hopenLength := space_length hopen
    have hstartLength := space_length hstart
    have hkeyLength := key_length hkey
    rw [List.length_cons] at hopenLength
    obtain ⟨t, written, es, hwrites, hdenotes, hshort, hrun⟩ :=
      hentries after.length (by omega) rfl hkey hrun
    refine ⟨_, t, .map written, .map (JsonText.lastValues es), hopen,
      .map (writesEntries_space hstart hwrites), by rw [denote, hdenotes]; rfl, hready, by omega, ?_⟩
    rw [← JsonText.foldl_set_nil]
    exact hrun
  · have hopenLength := space_length hopen
    have hcloseLength := space_length hclose
    simp only [List.length_cons] at hopenLength hcloseLength
    exact ⟨_, after, .list [], .list [], hopen, .emptyList hclose, by rw [denote, denoteItems]; rfl,
      hready, by omega, hrun⟩
  · have hopenLength := space_length hopen
    have hstartLength := space_length hstart
    rw [List.length_cons] at hopenLength
    obtain ⟨t, trees, vs, hwrites, hdenotes, hshort, hrun⟩ :=
      hitems start.length (by omega) rfl hrun
    exact ⟨_, t, .list trees, .list vs, hopen, .list (writesItems_space hstart hwrites),
      by rw [denote, hdenotes]; rfl, hready, by omega, hrun⟩
  · have hstartLength := space_length hstart
    exact ⟨start, after, tree, v, hstart, hwrites, hdenote, hready, by omega, hrun⟩

theorem all_read (n : ℕ) : ValuesRead n ∧ ItemsRead n ∧ EntriesRead n := by
  induction n using Nat.strong_induction_on with
  | _ n ih =>
    have hvalues := valuesRead_step (fun m hm => (ih m hm).2.1) fun m hm => (ih m hm).2.2
    exact ⟨hvalues, itemsRead_step hvalues fun m hm => (ih m hm).2.1,
      entriesRead_step hvalues fun m hm => (ih m hm).2.2⟩

end Sound

theorem document_of_read {text : String} {v : Value} (h : read text = .ok v) :
    ∃ tree, JsonText.Document text.toList tree ∧ denote tree = some v := by
  rw [read] at h
  split at h
  · cases h
  · next sink hrun =>
    obtain ⟨s, t, tree, v', hs, hwrites, hdenote, -, -, hrun⟩ :=
      (all_read text.toList.length).1 rfl hrun
    obtain ⟨ht, rfl⟩ := run_whole_iff.mp hrun
    have hv := Except.ok.inj h
    subst hv
    exact ⟨tree, ⟨s, t, hs, hwrites, ht⟩, hdenote⟩

section Complete

variable {s t rest : List Char} {stack : List Open} {sink : TreeSink}

/-- What may stand behind a value: nothing a number could go on with. -/
def Follows (t : List Char) : Prop := ∀ c ∈ t.head?, isNumberChar c = false

variable {c : Char} {tree : JsonText.Tree} {body a b : List Char} {trees : List JsonText.Tree}
   {written : List (List JsonText.Item × JsonText.Tree)} {name : List JsonText.Item}

theorem not_isNumberChar_of_isSpace (h : JsonText.isSpace c = true) :
    isNumberChar c = false := by
  simp only [JsonText.isSpace, Bool.or_eq_true, beq_iff_eq] at h
  rcases h with ((rfl | rfl) | rfl) | rfl <;> rfl

theorem follows_of_space (h : JsonText.Space s t) (ht : Follows t) : Follows s := by
  cases h with
  | refl => exact ht
  | step hc _ =>
    intro c' hc'
    obtain rfl := Option.some.inj hc'
    exact not_isNumberChar_of_isSpace hc

theorem isNumberChar_of_isDigit (h : c.isDigit = true) : isNumberChar c = true := by
  simp [isNumberChar, h]

theorem isNumberChar_of_isNumeral (h : JsonText.IsNumeral s) : ∀ c ∈ s, isNumberChar c = true := by
  obtain ⟨minus, whole, fraction, exponent, hminus, hwhole, hfraction, hexponent, rfl⟩ := h
  have hdigits {ds : List Char} (hds : JsonText.IsDigits ds) : ∀ c ∈ ds, isNumberChar c = true :=
    fun c hc => isNumberChar_of_isDigit (hds.2 c hc)
  intro c hc
  simp only [List.mem_append] at hc
  rcases hc with ((hc | hc) | hc) | hc
  · rcases hminus with rfl | rfl
    · cases hc
    · obtain rfl := List.mem_singleton.mp hc
      rfl
  · exact hdigits hwhole.1 c hc
  · rcases hfraction with rfl | ⟨ds, hds, rfl⟩
    · cases hc
    · rcases List.mem_cons.mp hc with rfl | hc
      · rfl
      · exact hdigits hds c hc
  · rcases hexponent with rfl | ⟨e, sign, ds, he, hsign, hds, rfl⟩
    · cases hc
    · rcases List.mem_cons.mp hc with rfl | hc
      · rcases he with rfl | rfl <;> rfl
      · rcases List.mem_append.mp hc with hc | hc
        · rcases hsign with rfl | rfl | rfl
          · cases hc
          · obtain rfl := List.mem_singleton.mp hc
            rfl
          · obtain rfl := List.mem_singleton.mp hc
            rfl
        · exact hdigits hds c hc

theorem head_of_isNumeral (h : JsonText.IsNumeral s) :
    ∃ c body, s = c :: body ∧ (c = '-' ∨ c.isDigit = true) := by
  obtain ⟨minus, whole, fraction, exponent, hminus, ⟨⟨hne, hdigits⟩, -⟩, -, -, rfl⟩ := h
  rcases hminus with rfl | rfl
  · obtain ⟨d, ds, rfl⟩ := List.exists_cons_of_ne_nil hne
    exact ⟨d, _, rfl, .inr (hdigits d List.mem_cons_self)⟩
  · exact ⟨'-', _, rfl, .inl rfl⟩

theorem ne_of_numeral_head {d : Char} (h : c = '-' ∨ c.isDigit = true)
    (hd : (d != '-' && !d.isDigit) = true) : c ≠ d := by
  rintro rfl
  rcases h with rfl | h
  · cases hd
  · rw [h, Bool.not_true, Bool.and_false] at hd
    cases hd

theorem isSpace_of_numeral_head (h : c = '-' ∨ c.isDigit = true) :
    JsonText.isSpace c = false := by
  simp only [JsonText.isSpace, Bool.or_eq_false_iff, beq_eq_false_iff_ne]
  exact ⟨⟨⟨ne_of_numeral_head h rfl, ne_of_numeral_head h rfl⟩, ne_of_numeral_head h rfl⟩,
    ne_of_numeral_head h rfl⟩

theorem head_of_writes (h : JsonText.Writes s t tree) :
    ∃ c body, s = c :: body ∧ JsonText.isSpace c = false ∧ c ≠ ']' := by
  cases h with
  | null t => exact ⟨'n', _, rfl, rfl, by decide⟩
  | bool b t =>
    cases b
    · exact ⟨'f', _, rfl, rfl, by decide⟩
    · exact ⟨'t', _, rfl, rfl, by decide⟩
  | number t htext =>
    obtain ⟨c, body, rfl, hc⟩ := head_of_isNumeral htext
    exact ⟨c, _, rfl, isSpace_of_numeral_head hc, ne_of_numeral_head hc rfl⟩
  | string => exact ⟨'"', _, rfl, rfl, by decide⟩
  | emptyList => exact ⟨'[', _, rfl, rfl, by decide⟩
  | list => exact ⟨'[', _, rfl, rfl, by decide⟩
  | emptyMap => exact ⟨'{', _, rfl, rfl, by decide⟩
  | map => exact ⟨'{', _, rfl, rfl, by decide⟩

theorem space_of_writes (hspace : JsonText.Space rest s)
    (h : JsonText.Writes s t tree) : space rest = s := by
  obtain ⟨c, body, rfl, hc, -⟩ := head_of_writes h
  refine space_eq hspace fun c' hc' => ?_
  obtain rfl := Option.some.inj hc'
  exact hc

variable {v : Value} {below : List Visit.Open} {done : Option Value}

theorem sunk_leaf (hready : sink.ready = .ok ()) :
    sunk (sink.leaf v) rest = .ok (sink.put v) :=
  sunk_iff.mpr (TreeSink.leaf_iff.mpr ⟨hready, rfl⟩)

theorem scalar_string {items : List JsonText.Item} {chars : List Char}
    (hready : sink.ready = .ok ()) (hquoted : JsonText.Quoted body t items)
    (hchars : JsonText.characters items = some chars) :
    scalar sink ('"' :: body) = .ok (sink.put (.string (.ofList chars)), t) := by
  have hstring := string_iff.mpr ⟨items, chars, hquoted, hchars, rfl⟩
  have hsunk : sunk (sink.on (.string (.ofList chars))) t = _ := sunk_leaf hready
  simp only [scalar, hstring, Bind.bind, Except.bind, hsunk]
  rfl

theorem scalar_null (hready : sink.ready = .ok ()) :
    scalar sink ("null".toList ++ t) = .ok (sink.put .null, t) := by
  have hword : word "null" ("null".toList ++ t) = .ok t := word_iff.mpr rfl
  have hsunk : sunk (sink.on .null) t = _ := sunk_leaf hready
  show (word "null" ("null".toList ++ t) >>= _) = _
  rw [hword]
  show (sunk (sink.on .null) t >>= _) = _
  rw [hsunk]
  rfl

theorem scalar_bool (hready : sink.ready = .ok ()) (b : Bool) :
    scalar sink ((if b then "true" else "false").toList ++ t) = .ok (sink.put (.bool b), t) := by
  cases b with
  | true =>
    have hword : word "true" ("true".toList ++ t) = .ok t := word_iff.mpr rfl
    have hsunk : sunk (sink.on (.bool true)) t = _ := sunk_leaf hready
    show (word "true" ("true".toList ++ t) >>= _) = _
    rw [hword]
    show (sunk (sink.on (.bool true)) t >>= _) = _
    rw [hsunk]
    rfl
  | false =>
    have hword : word "false" ("false".toList ++ t) = .ok t := word_iff.mpr rfl
    have hsunk : sunk (sink.on (.bool false)) t = _ := sunk_leaf hready
    show (word "false" ("false".toList ++ t) >>= _) = _
    rw [hword]
    show (sunk (sink.on (.bool false)) t >>= _) = _
    rw [hsunk]
    rfl

theorem scalar_number {n : Number} (hready : sink.ready = .ok ()) (hs : JsonText.IsNumeral s)
    (hnew : Number.new (.ofList s) = some n) (ht : Follows t) :
    scalar sink (s ++ t) = .ok (sink.put (.number n), t) := by
  obtain ⟨htake, hdrop⟩ := Schema.takeWhile_append_eq s t (isNumberChar_of_isNumeral hs) ht
  obtain ⟨c, body, rfl, hc⟩ := head_of_isNumeral hs
  have hon := TreeSink.on_number_iff.mpr ⟨n, hnew, hready, rfl⟩
  have hstart : (c == '-' || c.isDigit) = true := by
    rw [Bool.or_eq_true, beq_iff_eq]
    exact hc
  rw [← htake] at hon
  rw [scalar.eq_def]
  split
  · next heq => exact absurd (List.cons.inj heq).1 (ne_of_numeral_head hc rfl)
  · next heq => exact absurd (List.cons.inj heq).1 (ne_of_numeral_head hc rfl)
  · next heq => exact absurd (List.cons.inj heq).1 (ne_of_numeral_head hc rfl)
  · next heq => exact absurd (List.cons.inj heq).1 (ne_of_numeral_head hc rfl)
  · next heq =>
    rw [← (List.cons.inj heq).1, if_pos hstart, hon, hdrop]
  · next heq => cases heq

theorem begin_scalar (hspace : space rest = c :: body)
    (hmap : c ≠ '{') (hlist : c ≠ '[') (h : scalar sink (c :: body) = .ok (sink.put v, t)) :
    begin stack sink rest = .ok ⟨false, stack, sink.put v, t⟩ := by
  rw [begin.eq_def, hspace]
  split
  · next heq => exact absurd (List.cons.inj heq).1 hmap
  · next heq => exact absurd (List.cons.inj heq).1 hlist
  · rw [h]
    rfl

theorem begin_emptyMap (hready : sink.ready = .ok ())
    (hspace : space rest = '{' :: body) (hclose : JsonText.Space body ('}' :: t)) :
    begin stack sink rest = .ok ⟨false, stack, sink.put (.map []), t⟩ := by
  have hbegun : sunk (sink.on (.mapBegin none)) body = .ok ⟨.map [] "" false :: sink.stack, sink.done⟩ :=
    sunk_iff.mpr (TreeSink.on_mapBegin_iff.mpr ⟨hready, rfl⟩)
  have hended : sunk (TreeSink.on ⟨.map [] "" false :: sink.stack, sink.done⟩ .mapEnd) t =
      .ok (sink.put (.map [])) :=
    sunk_iff.mpr (TreeSink.place_iff.mpr ⟨hready, rfl⟩)
  simp only [begin, hspace, Bind.bind, Except.bind, hbegun,
    space_eq hclose (by simp [JsonText.isSpace]), hended]
  rfl

theorem begin_emptyList (hready : sink.ready = .ok ())
    (hspace : space rest = '[' :: body) (hclose : JsonText.Space body (']' :: t)) :
    begin stack sink rest = .ok ⟨false, stack, sink.put (.list []), t⟩ := by
  have hbegun : sunk (sink.on (.listBegin none)) body = .ok ⟨.list [] :: sink.stack, sink.done⟩ :=
    sunk_iff.mpr (TreeSink.on_listBegin_iff.mpr ⟨hready, rfl⟩)
  have hended : sunk (TreeSink.on ⟨.list [] :: sink.stack, sink.done⟩ .listEnd) t =
      .ok (sink.put (.list [])) :=
    sunk_iff.mpr (TreeSink.place_iff.mpr ⟨hready, rfl⟩)
  simp only [begin, hspace, Bind.bind, Except.bind, hbegun,
    space_eq hclose (by simp [JsonText.isSpace]), hended]
  rfl

theorem begin_map {after : List Char} {begun : TreeSink} (hready : sink.ready = .ok ())
    (hspace : space rest = '{' :: body)
    (hkey : key ⟨.map [] "" false :: sink.stack, sink.done⟩ (space body) = .ok (begun, after)) :
    begin stack sink rest = .ok ⟨true, .map :: stack, begun, after⟩ := by
  have hbegun : sunk (sink.on (.mapBegin none)) body = .ok ⟨.map [] "" false :: sink.stack, sink.done⟩ :=
    sunk_iff.mpr (TreeSink.on_mapBegin_iff.mpr ⟨hready, rfl⟩)
  rw [begin.eq_def, hspace]
  simp only [hbegun, Bind.bind, Except.bind]
  split
  · next behind hclose =>
    obtain ⟨-, a, b, items, chars, ha, -⟩ := key_iff.mp hkey
    rw [hclose] at ha
    cases ha with
    | step hc => cases hc
  · simp only [hkey]
    rfl

theorem begin_list {behind : List Char} (hready : sink.ready = .ok ())
    (hspace : space rest = '[' :: body) (hbody : space body = c :: behind) (hc : c ≠ ']') :
    begin stack sink rest =
      .ok ⟨true, .list :: stack, ⟨.list [] :: sink.stack, sink.done⟩, c :: behind⟩ := by
  have hbegun : sunk (sink.on (.listBegin none)) body = .ok ⟨.list [] :: sink.stack, sink.done⟩ :=
    sunk_iff.mpr (TreeSink.on_listBegin_iff.mpr ⟨hready, rfl⟩)
  rw [begin.eq_def, hspace]
  simp only [hbegun, Bind.bind, Except.bind, hbody]
  split
  · next heq => exact absurd (List.cons.inj heq).1 hc
  · rfl

section Proceed

variable {items : List Value} {entries : List Entry} {last : String} {start after : List Char}
  {begun : TreeSink}

theorem proceed_list_comma (h : JsonText.Space rest (',' :: after)) :
    proceed .list stack ⟨.list items :: below, done⟩ rest =
      .ok ⟨true, .list :: stack, ⟨.list items :: below, done⟩, after⟩ := by
  simp only [proceed, space_eq h (by simp [JsonText.isSpace])]
  rfl

theorem proceed_list_close (h : JsonText.Space rest (']' :: after))
    (hready : TreeSink.ready ⟨below, done⟩ = .ok ()) :
    proceed .list stack ⟨.list items :: below, done⟩ rest =
      .ok ⟨false, stack, TreeSink.put ⟨below, done⟩ (.list items), after⟩ := by
  have hended : sunk (TreeSink.on ⟨.list items :: below, done⟩ .listEnd) after =
      .ok (TreeSink.put ⟨below, done⟩ (.list items)) :=
    sunk_iff.mpr (TreeSink.place_iff.mpr ⟨hready, rfl⟩)
  simp only [proceed, space_eq h (by simp [JsonText.isSpace]), hended]
  rfl

theorem proceed_map_comma (h : JsonText.Space rest (',' :: start))
    (hkey : key ⟨.map entries last false :: below, done⟩ start = .ok (begun, after)) :
    proceed .map stack ⟨.map entries last false :: below, done⟩ rest =
      .ok ⟨true, .map :: stack, begun, after⟩ := by
  simp only [proceed, space_eq h (by simp [JsonText.isSpace]), hkey]
  rfl

theorem proceed_map_close (h : JsonText.Space rest ('}' :: after))
    (hready : TreeSink.ready ⟨below, done⟩ = .ok ()) :
    proceed .map stack ⟨.map entries last false :: below, done⟩ rest =
      .ok ⟨false, stack, TreeSink.put ⟨below, done⟩ (.map entries), after⟩ := by
  have hended : sunk (TreeSink.on ⟨.map entries last false :: below, done⟩ .mapEnd) after =
      .ok (TreeSink.put ⟨below, done⟩ (.map entries)) :=
    sunk_iff.mpr (TreeSink.place_iff.mpr ⟨hready, rfl⟩)
  simp only [proceed, space_eq h (by simp [JsonText.isSpace]), hended]
  rfl

end Proceed

/-- A value that is due is read, where it denotes one. -/
def ReadsValue (s t : List Char) (tree : JsonText.Tree) : Prop :=
  ∀ ⦃v : Value⦄ ⦃stack : List Open⦄ ⦃sink : TreeSink⦄ ⦃rest : List Char⦄, denote tree = some v →
    sink.ready = .ok () → JsonText.Space rest s → Follows t →
      run ⟨true, stack, sink, rest⟩ = run ⟨false, stack, sink.put v, t⟩

/-- The rest of a list is read, where its items denote some. -/
def ReadsItems (s t : List Char) (trees : List JsonText.Tree) : Prop :=
  ∀ ⦃vs : List Value⦄ ⦃stack : List Open⦄ ⦃below : List Visit.Open⦄ ⦃done : Option Value⦄
    ⦃items : List Value⦄, denoteItems trees = some vs → TreeSink.ready ⟨below, done⟩ = .ok () →
      run ⟨true, .list :: stack, ⟨.list items :: below, done⟩, s⟩ =
        run ⟨false, stack, TreeSink.put ⟨below, done⟩ (.list (items ++ vs)), t⟩

/-- The rest of a map is read from a key on, where its entries denote some. -/
def ReadsEntries (s t : List Char) (written : List (List JsonText.Item × JsonText.Tree)) : Prop :=
  ∀ ⦃es : List Entry⦄ ⦃stack : List Open⦄ ⦃below : List Visit.Open⦄ ⦃done : Option Value⦄
    ⦃entries : List Entry⦄ ⦃last : String⦄, denoteEntries written = some es →
      TreeSink.ready ⟨below, done⟩ = .ok () →
        ∃ begun after, key ⟨.map entries last false :: below, done⟩ s = .ok (begun, after) ∧
          run ⟨true, .map :: stack, begun, after⟩ =
            run ⟨false, stack, TreeSink.put ⟨below, done⟩ (.map (store entries es)), t⟩

theorem space_space (rest : List Char) : space (space rest) = space rest := by
  unfold space
  exact List.dropWhile_idempotent _ _

theorem run_space : run ⟨true, stack, sink, space rest⟩ = run ⟨true, stack, sink, rest⟩ := by
  have hbegin : begin stack sink (space rest) = begin stack sink rest := by
    rw [begin.eq_def, begin.eq_def, space_space]
  have hstep : step ⟨true, stack, sink, space rest⟩ = step ⟨true, stack, sink, rest⟩ := by
    show (begin stack sink (space rest)).map Sum.inl = (begin stack sink rest).map Sum.inl
    rw [hbegin]
  rw [run.eq_def, run.eq_def, hstep]

theorem key_space : key sink (space rest) = key sink rest := by
  simp only [key, space_space]

theorem follows_cons (h : isNumberChar c = false) : Follows (c :: t) := by
  intro c' hc'
  obtain rfl := Option.some.inj hc'
  exact h

theorem readsValue_null : ReadsValue ("null".toList ++ t) t .null := by
  intro v stack sink rest hdenote hready hspace hfollows
  rw [denote] at hdenote
  obtain rfl := Option.some.inj hdenote
  have hstart := space_of_writes hspace (.null t)
  exact run_begin (begin_scalar hstart (by decide) (by decide) (scalar_null hready))

theorem readsValue_bool (b : Bool) :
    ReadsValue ((if b then "true" else "false").toList ++ t) t (.bool b) := by
  intro v stack sink rest hdenote hready hspace hfollows
  rw [denote] at hdenote
  obtain rfl := Option.some.inj hdenote
  have hstart := space_of_writes hspace (.bool b t)
  have hscalar := scalar_bool (t := t) hready b
  cases b with
  | true => exact run_begin (begin_scalar hstart (by decide) (by decide) hscalar)
  | false => exact run_begin (begin_scalar hstart (by decide) (by decide) hscalar)

theorem readsValue_number (h : JsonText.IsNumeral s) : ReadsValue (s ++ t) t (.number s) := by
  intro v stack sink rest hdenote hready hspace hfollows
  rw [denote] at hdenote
  obtain ⟨n, hnew, rfl⟩ := Option.map_eq_some_iff.mp hdenote
  have hstart := space_of_writes hspace (.number t h)
  have hscalar := scalar_number hready h hnew hfollows
  obtain ⟨c, body, rfl, hc⟩ := head_of_isNumeral h
  exact run_begin (begin_scalar hstart (ne_of_numeral_head hc rfl) (ne_of_numeral_head hc rfl)
    hscalar)

theorem readsValue_string {items : List JsonText.Item} (h : JsonText.Quoted s t items) :
    ReadsValue ('"' :: s) t (.string items) := by
  intro v stack sink rest hdenote hready hspace hfollows
  rw [denote] at hdenote
  obtain ⟨chars, hchars, rfl⟩ := Option.map_eq_some_iff.mp hdenote
  have hstart := space_of_writes hspace (.string h)
  exact run_begin (begin_scalar hstart (by decide) (by decide) (scalar_string hready h hchars))

theorem readsValue_emptyList (h : JsonText.Space s (']' :: t)) :
    ReadsValue ('[' :: s) t (.list []) := by
  intro v stack sink rest hdenote hready hspace hfollows
  rw [denote, denoteItems] at hdenote
  obtain rfl := Option.some.inj hdenote
  have hstart := space_of_writes hspace (.emptyList h)
  exact run_begin (begin_emptyList hready hstart h)

theorem readsValue_emptyMap (h : JsonText.Space s ('}' :: t)) :
    ReadsValue ('{' :: s) t (.map []) := by
  intro v stack sink rest hdenote hready hspace hfollows
  rw [denote, denoteEntries] at hdenote
  obtain rfl := Option.some.inj hdenote
  have hstart := space_of_writes hspace (.emptyMap h)
  exact run_begin (begin_emptyMap hready hstart h)

theorem readsValue_list (h : JsonText.WritesItems s t trees)
    (ih : ReadsItems s t trees) : ReadsValue ('[' :: s) t (.list trees) := by
  intro v stack sink rest hdenote hready hspace hfollows
  rw [denote] at hdenote
  obtain ⟨vs, hvs, rfl⟩ := Option.map_eq_some_iff.mp hdenote
  have hstart := space_of_writes hspace (.list h)
  obtain ⟨c, behind, hbody, hc⟩ : ∃ c behind, space s = c :: behind ∧ c ≠ ']' := by
    cases h with
    | last hs hv _ =>
      obtain ⟨c, behind, rfl, -, hc⟩ := head_of_writes hv
      exact ⟨c, behind, space_of_writes hs hv, hc⟩
    | more hs hv _ _ =>
      obtain ⟨c, behind, rfl, -, hc⟩ := head_of_writes hv
      exact ⟨c, behind, space_of_writes hs hv, hc⟩
  rw [run_begin (begin_list hready hstart hbody hc), ← hbody, run_space, ih hvs hready,
    List.nil_append]

theorem readsValue_map (h : JsonText.WritesEntries s t written) (ih : ReadsEntries s t written) :
    ReadsValue ('{' :: s) t (.map written) := by
  intro v stack sink rest hdenote hready hspace hfollows
  rw [denote] at hdenote
  obtain ⟨es, hes, rfl⟩ := Option.map_eq_some_iff.mp hdenote
  have hstart := space_of_writes hspace (.map h)
  obtain ⟨begun, after, hkey, hrun⟩ : ∃ begun after,
      key ⟨.map [] "" false :: sink.stack, sink.done⟩ s = .ok (begun, after) ∧
        run ⟨true, .map :: stack, begun, after⟩ =
          run ⟨false, stack, sink.put (.map (store [] es)), t⟩ := ih hes hready
  rw [← key_space] at hkey
  rw [run_begin (begin_map hready hstart hkey), hrun, ← JsonText.foldl_set_nil]
  rfl

theorem readsItems_last (hs : JsonText.Space s a)
    (ht : JsonText.Space b (']' :: t)) (ih : ReadsValue a b tree) : ReadsItems s t [tree] := by
  intro vs stack below done items hdenotes hready
  rw [denoteItems, denoteItems] at hdenotes
  obtain ⟨v, hv, hvs⟩ := Option.bind_eq_some_iff.mp hdenotes
  obtain rfl := Option.some.inj hvs
  have hfollows := follows_of_space ht (follows_cons rfl)
  rw [ih hv rfl hs hfollows]
  exact run_proceed (proceed_list_close ht hready)

theorem readsItems_more {c : List Char}
    (hs : JsonText.Space s a) (hb : JsonText.Space b (',' :: c)) (ih : ReadsValue a b tree)
    (ihrest : ReadsItems c t trees) : ReadsItems s t (tree :: trees) := by
  intro vs stack below done items hdenotes hready
  rw [denoteItems] at hdenotes
  obtain ⟨v, hv, hvs⟩ := Option.bind_eq_some_iff.mp hdenotes
  obtain ⟨vs, hrest, rfl⟩ := Option.map_eq_some_iff.mp hvs
  have hfollows := follows_of_space hb (follows_cons rfl)
  have hproceed : proceed .list stack ⟨.list (items ++ [v]) :: below, done⟩ b =
      .ok ⟨true, .list :: stack, ⟨.list (items ++ [v]) :: below, done⟩, c⟩ := proceed_list_comma hb
  rw [ih hv rfl hs hfollows]
  show run ⟨false, .list :: stack, ⟨.list (items ++ [v]) :: below, done⟩, b⟩ = _
  rw [run_proceed hproceed, ihrest hrest hready, List.append_assoc]
  rfl

theorem readsEntries_last {c d e : List Char}
    (hs : JsonText.Space s ('"' :: a)) (hname : JsonText.Quoted a b name)
    (hb : JsonText.Space b (':' :: c)) (hc : JsonText.Space c d) (ht : JsonText.Space e ('}' :: t))
    (ih : ReadsValue d e tree) : ReadsEntries s t [(name, tree)] := by
  intro es stack below done entries last hdenotes hready
  rw [denoteEntries, denoteEntries] at hdenotes
  obtain ⟨chars, hchars, hes⟩ := Option.bind_eq_some_iff.mp hdenotes
  obtain ⟨v, hv, hes⟩ := Option.bind_eq_some_iff.mp hes
  obtain rfl := Option.some.inj hes
  refine ⟨_, c, key_iff.mpr ⟨rfl, a, b, name, chars, hs, hname, hchars, hb, rfl⟩, ?_⟩
  have hfollows := follows_of_space ht (follows_cons rfl)
  rw [ih hv rfl hc hfollows]
  exact run_proceed (proceed_map_close ht hready)

theorem readsEntries_more {c d e f : List Char}
    (hs : JsonText.Space s ('"' :: a)) (hname : JsonText.Quoted a b name)
    (hb : JsonText.Space b (':' :: c)) (hc : JsonText.Space c d) (he : JsonText.Space e (',' :: f))
    (ih : ReadsValue d e tree) (ihrest : ReadsEntries f t written) :
    ReadsEntries s t ((name, tree) :: written) := by
  intro es stack below done entries last hdenotes hready
  rw [denoteEntries] at hdenotes
  obtain ⟨chars, hchars, hes⟩ := Option.bind_eq_some_iff.mp hdenotes
  obtain ⟨v, hv, hes⟩ := Option.bind_eq_some_iff.mp hes
  obtain ⟨es, hrest, rfl⟩ := Option.map_eq_some_iff.mp hes
  refine ⟨_, c, key_iff.mpr ⟨rfl, a, b, name, chars, hs, hname, hchars, hb, rfl⟩, ?_⟩
  obtain ⟨begun, after, hkey, hrun⟩ : ∃ begun after,
      key ⟨.map (AssocList.set (.ofList chars) v entries) (.ofList chars) false :: below, done⟩ f =
        .ok (begun, after) ∧ run ⟨true, .map :: stack, begun, after⟩ =
          run ⟨false, stack, TreeSink.put ⟨below, done⟩
            (.map (store (AssocList.set (.ofList chars) v entries) es)), t⟩ := ihrest hrest hready
  have hfollows := follows_of_space he (follows_cons rfl)
  rw [ih hv rfl hc hfollows]
  exact (run_proceed (proceed_map_comma he hkey)).trans hrun

theorem readsValue_of_writes (h : JsonText.Writes s t tree) :
    ReadsValue s t tree :=
  @JsonText.Writes.rec (fun s t tree _ => ReadsValue s t tree)
    (fun s t trees _ => ReadsItems s t trees) (fun s t written _ => ReadsEntries s t written)
    (fun _ => readsValue_null) (fun b _ => readsValue_bool b) (fun _ h => readsValue_number h)
    (fun h => readsValue_string h) (fun h => readsValue_emptyList h)
    (fun h ih => readsValue_list h ih) (fun h => readsValue_emptyMap h)
    (fun h ih => readsValue_map h ih) (fun hs _ ht ih => readsItems_last hs ht ih)
    (fun hs _ hb _ ih ihrest => readsItems_more hs hb ih ihrest)
    (fun hs hname hb hc _ ht ih => readsEntries_last hs hname hb hc ht ih)
    (fun hs hname hb hc _ he _ ih ihrest => readsEntries_more hs hname hb hc he ih ihrest) s t tree h

theorem read_of_document {text : String} {v : Value}
    (h : JsonText.Document text.toList tree) (hv : denote tree = some v) : read text = .ok v := by
  obtain ⟨s, t, hs, hwrites, ht⟩ := h
  have hfollows : Follows t := follows_of_space ht (by intro c hc; cases hc)
  have hrun : run ⟨true, [], .new, text.toList⟩ = run ⟨false, [], TreeSink.put .new v, t⟩ :=
    readsValue_of_writes hwrites hv rfl hs hfollows
  rw [run_whole_iff.mpr ⟨ht, rfl⟩] at hrun
  simp only [read, hrun]
  rfl

theorem denoteItems_cons {vs : List Value} (hv : denote tree = some v) (hvs : denoteItems trees = some vs) :
    denoteItems (tree :: trees) = some (v :: vs) := by
  rw [denoteItems, hv, hvs]
  rfl

theorem denoteEntries_cons {chars : List Char} {es : List Entry}
    (hchars : JsonText.characters name = some chars) (hv : denote tree = some v)
    (hes : denoteEntries written = some es) :
    denoteEntries ((name, tree) :: written) = some ((.ofList chars, v) :: es) := by
  rw [denoteEntries, hchars, hv, hes]
  rfl

/-- What the grammar derives denotes a value, where its units come in pairs. -/
theorem denote_of_writes (h : JsonText.Writes s t tree) :
    tree.Paired → ∃ v, denote tree = some v := by
  refine @JsonText.Writes.rec (fun _ _ tree _ => tree.Paired → ∃ v, denote tree = some v)
    (fun _ _ trees _ => JsonText.Tree.PairedItems trees → ∃ vs, denoteItems trees = some vs)
    (fun _ _ written _ => JsonText.Tree.PairedEntries written →
      ∃ es, denoteEntries written = some es) ?null ?bool ?number ?string ?emptyList ?list ?emptyMap
    ?map ?lastItem ?moreItems ?lastEntry ?moreEntries s t tree h
  case null => exact fun _ _ => ⟨.null, by rw [denote]⟩
  case bool => exact fun b _ _ => ⟨.bool b, by rw [denote]⟩
  case number =>
    intro text t htext _
    rw [isNumeral_iff, ← Number.new_isSome, Option.isSome_iff_exists] at htext
    obtain ⟨n, hnew⟩ := htext
    exact ⟨.number n, by rw [denote, hnew]; rfl⟩
  case string =>
    intro s t items _ hpaired
    rw [JsonText.Tree.Paired] at hpaired
    obtain ⟨chars, hchars⟩ := hpaired
    exact ⟨.string (.ofList chars), by rw [denote, hchars]; rfl⟩
  case emptyList => exact fun _ _ => ⟨.list [], by rw [denote, denoteItems]; rfl⟩
  case list =>
    intro s t items _ ih hpaired
    rw [JsonText.Tree.Paired] at hpaired
    obtain ⟨vs, hvs⟩ := ih hpaired
    exact ⟨.list vs, by rw [denote, hvs]; rfl⟩
  case emptyMap => exact fun _ _ => ⟨.map [], by rw [denote, denoteEntries]; rfl⟩
  case map =>
    intro s t written _ ih hpaired
    rw [JsonText.Tree.Paired] at hpaired
    obtain ⟨es, hes⟩ := ih hpaired
    exact ⟨.map (JsonText.lastValues es), by rw [denote, hes]; rfl⟩
  case lastItem =>
    intro s t a b v _ _ _ ih hpaired
    rw [JsonText.Tree.PairedItems] at hpaired
    obtain ⟨v, hv⟩ := ih hpaired.1
    exact ⟨[v], denoteItems_cons hv (by rw [denoteItems])⟩
  case moreItems =>
    intro s t a b c v rest _ _ _ _ ih ihrest hpaired
    rw [JsonText.Tree.PairedItems] at hpaired
    obtain ⟨v, hv⟩ := ih hpaired.1
    obtain ⟨vs, hvs⟩ := ihrest hpaired.2
    exact ⟨v :: vs, denoteItems_cons hv hvs⟩
  case lastEntry =>
    intro s t a b c d e name v _ _ _ _ _ _ ih hpaired
    rw [JsonText.Tree.PairedEntries] at hpaired
    obtain ⟨⟨chars, hchars⟩, hv, -⟩ := hpaired
    obtain ⟨v, hv⟩ := ih hv
    exact ⟨[(.ofList chars, v)], denoteEntries_cons hchars hv (by rw [denoteEntries])⟩
  case moreEntries =>
    intro s t a b c d e f name v rest _ _ _ _ _ _ _ ih ihrest hpaired
    rw [JsonText.Tree.PairedEntries] at hpaired
    obtain ⟨⟨chars, hchars⟩, hv, hrest⟩ := hpaired
    obtain ⟨v, hv⟩ := ih hv
    obtain ⟨es, hes⟩ := ihrest hrest
    exact ⟨(.ofList chars, v) :: es, denoteEntries_cons hchars hv hes⟩

end Complete

/-- What is read is what the text denotes as one JSON document, and every document that nests no
deeper than a value may, with the units outside the basic plane in pairs, is read. -/
theorem read_exact (text : String) :
    (∀ v, read text = .ok v →
      ∃ tree, JsonText.Document text.toList tree ∧ denote tree = some v) ∧
    ∀ tree, JsonText.Document text.toList tree → tree.depth ≤ maxDepth → tree.Paired →
      ∃ v, denote tree = some v ∧ read text = .ok v := by
  constructor
  · exact fun v h => document_of_read h
  · intro tree h _ hpaired
    obtain ⟨v, hv⟩ := denote_of_writes h.choose_spec.choose_spec.2.1 hpaired
    exact ⟨v, hv, read_of_document h hv⟩

/-- Half of a pair is a document of the grammar, and is refused. -/
theorem read_lone_half : ¬ ∀ text : String, (∃ v, read text = .ok v) ↔
    ∃ tree, JsonText.Document text.toList tree ∧ tree.depth ≤ maxDepth := by
  intro h
  have hquoted : JsonText.Quoted ['\\', 'u', 'd', '8', '0', '0', '"'] [] [.unit 0xd800] :=
    .unit rfl (.close [])
  have hdocument : JsonText.Document "\"\\ud800\"".toList (.string [.unit 0xd800]) :=
    ⟨_, [], .refl _, .string hquoted, .refl []⟩
  obtain ⟨v, hv⟩ := (h "\"\\ud800\"").mpr ⟨_, hdocument, Nat.zero_le _⟩
  have hstring : stringFrom [] ['\\', 'u', 'd', '8', '0', '0', '"'] =
      .error (['"'], "the second half of a surrogate pair") := by
    rw [stringFrom.eq_def]
    rfl
  have hbegin : begin [] .new "\"\\ud800\"".toList =
      .error (['"'], "the second half of a surrogate pair") := by
    have hread : string ['"', '\\', 'u', 'd', '8', '0', '0', '"'] =
        .error (['"'], "the second half of a surrogate pair") := by
      rw [string, List.tail_cons, hstring]
    show (scalar .new ['"', '\\', 'u', 'd', '8', '0', '0', '"'] >>= _) = _
    simp only [scalar, hread, Bind.bind, Except.bind]
  rw [read] at hv
  split at hv
  · cases hv
  · next hrun =>
    obtain ⟨next, hnext, -⟩ := run_due_cases hrun
    rw [hbegin] at hnext
    cases hnext

end Guatiao.Library.Json
