import Guatiao.Schema.Written

/-!
# Every plan is finished, or repeats a name

A builder's first error is the last word: it is a name that is repeated, and where none is what was
written is read as the plan.
-/

namespace Guatiao.Schema

open Lib

section Keys

variable {es : List Entry} {key : String} {ty : String}

/-- The first name repeated stops a builder. -/
abbrev repeated : Drafted := .error .duplicateKey

/-- A state that is written on, or a name was repeated. -/
def Stopping (state : Drafted) : Prop := state = repeated ∨ ∃ v, state = .ok v

theorem put_ok (x : Value) : put (.ok (.map es)) key (.ok x) = .ok (.map (AssocList.set key x es)) :=
  rfl

theorem given_ok {α : Type} {k : KindBuilder} {write : KindBuilder → α → KindBuilder} {f : α → Value}
    (hk : k.state = .ok (.map es)) (hwrite : ∀ k a, write k a = k.keyword key (.ok (f a)))
    (a : Option α) (hnone : (Value.map es).get key = none) :
    ∃ es', (k.given write a).state = .ok (.map es') ∧ (Value.map es').get key = a.map f ∧
      ∀ key', key' ≠ key → (Value.map es').get key' = (Value.map es).get key' := by
  cases a with
  | none => exact ⟨es, hk, hnone, fun _ _ => rfl⟩
  | some a =>
    refine ⟨AssocList.set key (f a) es, ?_, ?_, fun key' hne => ?_⟩
    · show (write k a).state = _
      rw [hwrite, KindBuilder.keyword, hk]
      rfl
    · rw [get_map_set, if_pos rfl]
      rfl
    · rw [get_map_set, if_neg hne]

theorem given_error {α : Type} {k : KindBuilder} {write : KindBuilder → α → KindBuilder}
    {f : α → Value} {e : ValueError} (hk : k.state = .error e)
    (hwrite : ∀ k a, write k a = k.keyword key (.ok (f a))) (a : Option α) :
    (k.given write a).state = .error e := by
  cases a with
  | none => exact hk
  | some a =>
    show (write k a).state = _
    rw [hwrite, KindBuilder.keyword, hk]
    rfl

theorem headed_of_typed
    (h : ∀ key ∈ headKeys, (Value.map es).get key = (Value.map [(Vocab.type, .string ty)]).get key) :
    Headed (.map es) (.named ty) none none none none where
  map := rfl
  ref := (h _ (by decide)).trans rfl
  const := (h _ (by decide)).trans rfl
  allOf := (h _ (by decide)).trans rfl
  declared := by
    rw [declaredType, h Vocab.type (by decide)]
    rfl
  enum := (h _ (by decide)).trans rfl
  anyOf := (h _ (by decide)).trans rfl
  oneOf := (h _ (by decide)).trans rfl
  tag := (h _ (by decide)).trans rfl

theorem good_of_typed {plan : Plan} (htype : (Value.map es).get Vocab.type = some (.string ty))
    (hty : ty ≠ Vocab.typeNull) (hconst : (Value.map es).get Vocab.const = none)
    (hbody : Body plan (.map es)) (hoptional : plan.isOptional = false) : Good plan (.map es) where
  map := rfl
  notNull := by
    rw [isNullSchema, textUnder, htype, hconst]
    simp [Value.asStr, hty]
  head := .inl (by rw [htype]; rfl)
  body := by
    rw [peel_of_peelOnce (peelOnce_of_type (by rw [htype]; rfl))]
    exact hbody
  optional h := by
    rw [hoptional] at h
    cases h

theorem typed_state (ty : String) :
    (KindBuilder.typed ty).state = .ok (.map [(Vocab.type, .string ty)]) := rfl

end Keys

section Plain

theorem good_bool : Good .bool (.map [(Vocab.type, .string Vocab.typeBoolean)]) :=
  good_of_typed rfl (by decide) rfl (headed_of_typed fun _ _ => rfl) rfl

theorem good_float : Good .float (.map [(Vocab.type, .string Vocab.typeNumber)]) :=
  good_of_typed rfl (by decide) rfl (headed_of_typed fun _ _ => rfl) rfl

theorem good_bytes : Good .bytes (.map [(Vocab.type, .string Vocab.typeBytes)]) :=
  good_of_typed rfl (by decide) rfl (headed_of_typed fun _ _ => rfl) rfl

/-- A lower bound is written under its keyword, and an upper one under its own. -/
def lowest (k : KindBuilder) (n : Int64) : KindBuilder :=
  k.keyword Vocab.minimum (.ok (.number (.ofInt n.toInt)))

def highest (k : KindBuilder) (n : Int64) : KindBuilder :=
  k.keyword Vocab.maximum (.ok (.number (.ofInt n.toInt)))

theorem intBounds_eq (min max : Option Int64) : KindBuilder.intBounds min max =
    ((KindBuilder.typed Vocab.typeInteger).given lowest min).given highest max := by
  cases min <;> cases max <;> rfl

theorem good_int (min max : Option Int64) :
    ∃ v, (KindBuilder.intBounds min max).state = .ok v ∧ Good (.int min max) v := by
  rw [intBounds_eq]
  obtain ⟨es₁, h₁, hmin, hother₁⟩ := given_ok (typed_state Vocab.typeInteger)
    (fun k n => (rfl : lowest k n = _)) min rfl
  obtain ⟨es₂, h₂, hmax, hother₂⟩ := given_ok h₁ (fun k n => (rfl : highest k n = _)) max
    (hother₁ _ (by decide))
  have hhead : ∀ key ∈ headKeys, (Value.map es₂).get key =
      (Value.map [(Vocab.type, .string Vocab.typeInteger)]).get key := by
    intro key hkey
    have hne : key ≠ Vocab.minimum ∧ key ≠ Vocab.maximum := by
      revert key
      decide
    rw [hother₂ key hne.2, hother₁ key hne.1]
  refine ⟨_, h₂, good_of_typed (hhead _ (by decide)) (by decide) (hhead _ (by decide)) ?_ rfl⟩
  exact ⟨headed_of_typed hhead, (hother₂ _ (by decide)).trans hmin, hmax⟩

theorem good_string (minLength maxLength : Option UInt64) (pattern format : Option String) :
    ∃ v, (Plan.string minLength maxLength pattern format).finish = .ok v ∧
      Good (.string minLength maxLength pattern format) v := by
  rw [Plan.finish, Plan.build]
  obtain ⟨es₁, h₁, hmin, hother₁⟩ := given_ok (typed_state Vocab.typeString)
    (fun k (n : UInt64) => (rfl : k.minLength n = _)) minLength rfl
  obtain ⟨es₂, h₂, hmax, hother₂⟩ := given_ok h₁
    (fun k (n : UInt64) => (rfl : k.maxLength n = _)) maxLength (hother₁ _ (by decide))
  obtain ⟨es₃, h₃, hpattern, hother₃⟩ := given_ok h₂
    (fun k (text : String) => (rfl : k.pattern text = _)) pattern
    ((hother₂ _ (by decide)).trans (hother₁ _ (by decide)))
  obtain ⟨es₄, h₄, hformat, hother₄⟩ := given_ok h₃
    (fun k (text : String) => (rfl : k.format text = _)) format
    ((hother₃ _ (by decide)).trans ((hother₂ _ (by decide)).trans (hother₁ _ (by decide))))
  have hhead : ∀ key ∈ headKeys, (Value.map es₄).get key =
      (Value.map [(Vocab.type, .string Vocab.typeString)]).get key := by
    intro key hkey
    have hne : key ≠ Vocab.minLength ∧ key ≠ Vocab.maxLength ∧ key ≠ Vocab.pattern ∧
        key ≠ Vocab.format := by
      revert key
      decide
    rw [hother₄ key hne.2.2.2, hother₃ key hne.2.2.1, hother₂ key hne.2.1, hother₁ key hne.1]
  refine ⟨_, h₄, good_of_typed (hhead _ (by decide)) (by decide) (hhead _ (by decide)) ?_ rfl⟩
  refine ⟨headed_of_typed hhead, ?_, ?_, ?_, hformat⟩
  · rw [hother₄ _ (by decide), hother₃ _ (by decide), hother₂ _ (by decide), hmin]
  · rw [hother₄ _ (by decide), hother₃ _ (by decide), hmax]
  · rw [hother₄ _ (by decide), hpattern]

end Plain

section Enumeration

variable {choices : List (String × String)}

theorem foldl_pushName (names : List (String × String)) (items : List Value) :
    names.foldl (fun values choice => pushName values choice.1) (.ok (.list items)) =
      .ok (.list (items ++ names.map fun c => .string c.1)) := by
  induction names generalizing items with
  | nil => rw [List.map_nil, List.append_nil]; rfl
  | cons c names ih =>
    rw [List.foldl_cons]
    show names.foldl _ (Except.ok (Value.list (items ++ [.string c.1]))) = _
    rw [ih, List.map_cons, List.append_assoc, List.singleton_append]

theorem foldl_labels (choices : List (String × String)) (m : List Entry) : ∃ m',
    choices.foldl (fun labels choice =>
      if KindBuilder.labelled choice then put labels choice.1 (.ok (.string choice.2)) else labels)
        (.ok (.map m)) = .ok (.map m') ∧
      ∀ value, (Value.map m').get value =
        ((choices.reverse.find? fun c => c.1 == value && KindBuilder.labelled c).map
          fun c => .string c.2).or ((Value.map m).get value) := by
  induction choices generalizing m with
  | nil => exact ⟨m, rfl, fun value => rfl⟩
  | cons c choices ih =>
    rw [List.foldl_cons]
    cases hc : KindBuilder.labelled c with
    | false =>
      rw [if_neg Bool.false_ne_true]
      obtain ⟨m', hfold, hget⟩ := ih m
      refine ⟨m', hfold, fun value => ?_⟩
      rw [hget, List.reverse_cons, List.find?_append]
      have hnone : [c].find? (fun c => c.1 == value && KindBuilder.labelled c) = none := by
        simp [hc]
      rw [hnone, Option.or_none]
    | true =>
      rw [if_pos rfl]
      obtain ⟨m', hfold, hget⟩ := ih (AssocList.set c.1 (.string c.2) m)
      refine ⟨m', hfold, fun value => ?_⟩
      rw [hget, get_map_set, List.reverse_cons, List.find?_append]
      cases hfind : choices.reverse.find? fun c => c.1 == value && KindBuilder.labelled c with
      | some found => rfl
      | none =>
        by_cases hvalue : value = c.1
        · subst hvalue
          simp [hc]
        · simp [hvalue, Ne.symm hvalue]

theorem find?_labelled_of_none (h : choices.any KindBuilder.labelled = false) (value : String) :
    choices.reverse.find? (fun c => c.1 == value && KindBuilder.labelled c) = none := by
  rw [List.find?_eq_none]
  intro c hc
  have hlabelled := List.any_eq_false.mp h c (List.mem_reverse.mp hc)
  simp only [Bool.and_eq_true, not_and]
  exact fun _ => hlabelled

theorem good_enumeration (choices : List (String × String)) :
    ∃ v, (KindBuilder.enumeration choices).state = .ok v ∧ Good (.enumeration choices) v := by
  obtain ⟨m, hm, hlabels⟩ := foldl_labels choices []
  have hvalues := foldl_pushName choices []
  rw [List.nil_append] at hvalues
  set listed := Value.list (choices.map fun c => .string c.1) with hlisted
  cases hany : choices.any KindBuilder.labelled with
  | false =>
    refine ⟨.map [(Vocab.type, .string Vocab.typeString), (Vocab.enum, listed)], ?_, ?_⟩
    · simp only [KindBuilder.enumeration, hvalues, hany, Bool.false_eq_true, if_false]
      rfl
    · refine good_of_typed rfl (by decide) rfl ⟨?_, fun value => ?_⟩ rfl
      · exact ⟨rfl, rfl, rfl, rfl, rfl, rfl, rfl, rfl, rfl⟩
      · rw [find?_labelled_of_none hany]
        rfl
  | true =>
    refine ⟨.map [(Vocab.type, .string Vocab.typeString), (Vocab.enum, listed),
      (Vocab.xEnumLabels, .map m)], ?_, ?_⟩
    · simp only [KindBuilder.enumeration, hvalues, hm, hany, if_true]
      rfl
    · refine good_of_typed rfl (by decide) rfl ⟨?_, fun value => ?_⟩ rfl
      · exact ⟨rfl, rfl, rfl, rfl, rfl, rfl, rfl, rfl, rfl⟩
      · have hget : (Value.map [(Vocab.type, Value.string Vocab.typeString), (Vocab.enum, listed),
            (Vocab.xEnumLabels, .map m)]).get Vocab.xEnumLabels = some (.map m) := rfl
        rw [hget, Option.bind_some, textUnder, hlabels]
        cases choices.reverse.find? fun c => c.1 == value && KindBuilder.labelled c <;> rfl

end Enumeration

section Parts

variable {items : Plan} {schema : Value}

theorem good_list (h : Good items schema) (minItems maxItems : Option UInt64) :
    ∃ v, (((KindBuilder.list ⟨.ok schema⟩).given KindBuilder.minItems minItems).given
      KindBuilder.maxItems maxItems).state = .ok v ∧ Good (.list items minItems maxItems) v := by
  have hlist : (KindBuilder.list ⟨.ok schema⟩).state =
      .ok (.map [(Vocab.type, .string Vocab.typeArray), (Vocab.items, schema)]) := rfl
  obtain ⟨es₁, h₁, hmin, hother₁⟩ := given_ok hlist
    (fun k n => (rfl : k.minItems n = _)) minItems rfl
  obtain ⟨es₂, h₂, hmax, hother₂⟩ := given_ok h₁
    (fun k n => (rfl : k.maxItems n = _)) maxItems (hother₁ _ (by decide))
  have hhead : ∀ key ∈ headKeys, (Value.map es₂).get key =
      (Value.map [(Vocab.type, .string Vocab.typeArray)]).get key := by
    intro key hkey
    have hne : key ≠ Vocab.minItems ∧ key ≠ Vocab.maxItems ∧ key ≠ Vocab.items := by
      revert key
      decide
    rw [hother₂ key hne.2.1, hother₁ key hne.1]
    exact (get_map_set Vocab.items schema [(Vocab.type, .string Vocab.typeArray)] key).trans
      (if_neg hne.2.2)
  refine ⟨_, h₂, good_of_typed (hhead _ (by decide)) (by decide) (hhead _ (by decide)) ?_ rfl⟩
  refine ⟨headed_of_typed hhead, ?_, ?_, hmax, schema, ?_, h.reads⟩
  · exact (hother₂ _ (by decide)).trans (hother₁ _ (by decide))
  · exact (hother₂ _ (by decide)).trans hmin
  · exact (hother₂ _ (by decide)).trans (hother₁ _ (by decide))

theorem good_mapOf (h : Good items schema) :
    ∃ v, (KindBuilder.mapOf ⟨.ok schema⟩).state = .ok v ∧ Good (.mapOf items) v := by
  refine ⟨.map [(Vocab.type, .string Vocab.typeObject), (Vocab.additionalProperties, schema)], rfl, ?_⟩
  refine good_of_typed rfl (by decide) rfl ?_ rfl
  exact ⟨⟨rfl, rfl, rfl, rfl, rfl, rfl, rfl, rfl, rfl⟩, rfl, schema, rfl, h.map, h.reads⟩

end Parts

section Push

variable {es : List Entry} {key : String}

theorem foldl_push_ok (vs items : List Value)
    (hlist : (Value.map es).get key = some (.list items)) : ∃ es',
    (vs.map Except.ok).foldl (fun state value => push state key value) (.ok (.map es)) = .ok (.map es') ∧
      ∀ key', (Value.map es').get key' =
        if key' = key then some (.list (items ++ vs)) else (Value.map es).get key' := by
  induction vs generalizing es items with
  | nil =>
    refine ⟨es, rfl, fun key' => ?_⟩
    rw [List.append_nil]
    split
    · next heq => rw [heq, hlist]
    · rfl
  | cons v vs ih =>
    have hpush : push (.ok (.map es)) key (.ok v) =
        .ok (.map (AssocList.set key (.list (items ++ [v])) es)) := by
      have hget : AssocList.get key es = some (.list items) := hlist
      simp only [push, hget, Option.getD_some]
    have hlist' : (Value.map (AssocList.set key (.list (items ++ [v])) es)).get key =
        some (.list (items ++ [v])) := by rw [get_map_set, if_pos rfl]
    obtain ⟨es', hfold, hget⟩ := ih (items ++ [v]) hlist'
    refine ⟨es', ?_, fun key' => ?_⟩
    · rw [List.map_cons, List.foldl_cons, hpush]
      exact hfold
    · rw [hget, List.append_assoc, List.singleton_append, get_map_set]
      split <;> rfl

theorem foldl_push_stopped (states : List Drafted) :
    states.foldl (fun state value => push state key value) repeated = repeated := by
  induction states with
  | nil => rfl
  | cons state states ih => exact ih

theorem foldl_push_repeated {states : List Drafted} {items : List Value}
    (hlist : (Value.map es).get key = some (.list items)) (hall : ∀ state ∈ states, Stopping state)
    (hmem : repeated ∈ states) :
    states.foldl (fun state value => push state key value) (.ok (.map es)) = repeated := by
  induction states generalizing es items with
  | nil => cases hmem
  | cons state states ih =>
    rcases hall state List.mem_cons_self with rfl | ⟨v, rfl⟩
    · exact foldl_push_stopped states
    · have hget : AssocList.get key es = some (.list items) := hlist
      have hmem' : repeated ∈ states := (List.mem_cons.mp hmem).resolve_left (by rintro ⟨⟩)
      rw [List.foldl_cons]
      show states.foldl _ (push (.ok (.map es)) key (.ok v)) = _
      have hpush : push (.ok (.map es)) key (.ok v) =
          .ok (.map (AssocList.set key (.list (items ++ [v])) es)) := by
        simp only [push, hget, Option.getD_some]
      rw [hpush]
      exact ih (by rw [get_map_set, if_pos rfl])
        (fun state hstate => hall state (List.mem_cons_of_mem _ hstate)) hmem'

end Push

section Many

variable {plans : List Plan} {builders : List KindBuilder} {vs : List Value}

theorem readsAll_of_good (h : List.Forall₂ Good plans vs) : ReadsAll plans vs := by
  induction h with
  | nil => rfl
  | cons hgood _ ih => exact ⟨_, _, rfl, hgood.reads, ih⟩

theorem notNull_of_good (h : List.Forall₂ Good plans vs) : ∀ v ∈ vs, isNullSchema v = false := by
  induction h with
  | nil => simp
  | cons hgood _ ih =>
    intro v hv
    rcases List.mem_cons.mp hv with rfl | hv
    · exact hgood.notNull
    · exact ih v hv

theorem foldl_states (state : Drafted) (key : String) :
    builders.foldl (fun state builder => push state key builder.state) state =
      (builders.map KindBuilder.state).foldl (fun state value => push state key value) state := by
  rw [List.foldl_map]

theorem good_tuple (hstates : builders.map KindBuilder.state = vs.map Except.ok)
    (h : List.Forall₂ Good plans vs) :
    ∃ v, (KindBuilder.tuple builders).state = .ok v ∧ Good (.tuple plans) v := by
  have hstart : (Value.map [(Vocab.type, .string Vocab.typeArray), (Vocab.prefixItems, .list [])]).get
      Vocab.prefixItems = some (.list []) := rfl
  obtain ⟨es, hfold, hget⟩ := foldl_push_ok vs [] hstart
  set n : ℕ := (UInt64.ofNat builders.length).toNat with hn
  have hall (key : String) : (Value.map (AssocList.set Vocab.maxItems (.number (.ofInt n))
      (AssocList.set Vocab.minItems (.number (.ofInt n))
        (AssocList.set Vocab.items (.bool false) es)))).get key =
      if key = Vocab.maxItems then some (.number (.ofInt n))
      else if key = Vocab.minItems then some (.number (.ofInt n))
      else if key = Vocab.items then some (.bool false)
      else (Value.map es).get key := by
    rw [get_map_set, get_map_set, get_map_set]
  have hhead : ∀ key ∈ headKeys, (Value.map (AssocList.set Vocab.maxItems (.number (.ofInt n))
      (AssocList.set Vocab.minItems (.number (.ofInt n))
        (AssocList.set Vocab.items (.bool false) es)))).get key =
      (Value.map [(Vocab.type, .string Vocab.typeArray)]).get key := by
    intro key hkey
    have hne : key ≠ Vocab.maxItems ∧ key ≠ Vocab.minItems ∧ key ≠ Vocab.items ∧
        key ≠ Vocab.prefixItems := by
      revert key
      decide
    rw [hall, if_neg hne.1, if_neg hne.2.1, if_neg hne.2.2.1, hget, if_neg hne.2.2.2]
    exact (get_map_set Vocab.prefixItems (.list []) [(Vocab.type, .string Vocab.typeArray)] key).trans
      (if_neg hne.2.2.2)
  refine ⟨_, ?_, good_of_typed (hhead _ (by decide)) (by decide) (hhead _ (by decide)) ?_ rfl⟩
  · simp only [KindBuilder.tuple, foldl_states, hstates]
    show (KindBuilder.maxItems (KindBuilder.minItems (KindBuilder.keyword
      ⟨(vs.map Except.ok).foldl _ (.ok (.map [(Vocab.type, .string Vocab.typeArray),
        (Vocab.prefixItems, .list [])]))⟩ _ _) _) _).state = _
    rw [hfold]
    rfl
  · refine ⟨headed_of_typed hhead, vs, ?_, readsAll_of_good h⟩
    rw [hall, if_neg (by decide), if_neg (by decide), if_neg (by decide), hget, if_pos rfl,
      List.nil_append]

theorem nullablePair_eq_none (h : ∀ v ∈ vs, isNullSchema v = false) :
    nullablePair (.list vs) = none := by
  rw [nullablePair.eq_def]
  split
  · next a b heq =>
    obtain rfl := Option.some.inj heq
    simp [h a (by simp), h b (by simp)]
  · rfl

theorem good_union (hstates : builders.map KindBuilder.state = vs.map Except.ok)
    (h : List.Forall₂ Good plans vs) :
    ∃ v, (KindBuilder.union builders).state = .ok v ∧ Good (.union plans) v := by
  have hstart : (Value.map [(Vocab.anyOf, .list [])]).get Vocab.anyOf = some (.list []) := rfl
  obtain ⟨es, hfold, hget⟩ := foldl_push_ok vs [] hstart
  have hanyOf : (Value.map es).get Vocab.anyOf = some (.list vs) := by
    rw [hget, if_pos rfl, List.nil_append]
  have hother {key : String} (hne : key ≠ Vocab.anyOf) : (Value.map es).get key = none := by
    rw [hget, if_neg hne]
    exact (get_map_set Vocab.anyOf (.list []) [] key).trans (if_neg hne)
  have hnull : ∀ v ∈ vs, isNullSchema v = false := by
    exact notNull_of_good h
  have htype : (Value.map es).get Vocab.type = none := hother (by decide)
  have hpeel : peelOnce (.map es) = none := by
    have hown : (ownKeywords.any fun key => ((Value.map es).get key).isSome) = true := by
      rw [List.any_eq_true]
      exact ⟨Vocab.anyOf, by decide, by rw [hanyOf]; rfl⟩
    rw [peelOnce, htype, hanyOf, Option.isNone_none, if_pos rfl, Option.bind_some,
      nullablePair_eq_none hnull, loneAllOf, if_pos hown]
    rfl
  refine ⟨.map es, ?_, rfl, ?_, .inr (by rw [hanyOf]; rfl), ?_, fun hoptional => by cases hoptional⟩
  · simp only [KindBuilder.union, foldl_states, hstates]
    exact hfold
  · rw [isNullSchema, textUnder, htype, hother (by decide)]
    rfl
  · rw [peel_of_peelOnce hpeel]
    refine ⟨vs, ⟨rfl, hother (by decide), hother (by decide), hother (by decide), ?_,
      hother (by decide), hanyOf, hother (by decide), hother (by decide)⟩, readsAll_of_good h, hnull⟩
    rw [declaredType, htype]

end Many

section Fields

variable {fields : List (String × Bool × Plan)} {vs : List Value}

theorem repeats_iff {names : List String} : repeats names = true ↔ ¬ names.Nodup := by
  induction names with
  | nil => simp [repeats]
  | cons name names ih =>
    rw [repeats, Bool.or_eq_true, ih, List.contains_iff_mem, List.nodup_cons]
    tauto

/-- The builders of some fields whose schemas are whole. -/
def fielded (fields : List (String × Bool × Plan)) (vs : List Value) : List FieldBuilder :=
  List.zipWith (fun f v => ⟨.ok v, f.1, f.2.1⟩) fields vs

/-- The fields that are read where some were written. -/
def fieldRefs (fields : List (String × Bool × Plan)) (vs : List Value) : List FieldRef :=
  List.zipWith (fun f v => ⟨f.1, v, f.2.1⟩) fields vs

/-- The names some fields require. -/
def requiredNames (fields : List (String × Bool × Plan)) : List String :=
  (fields.filter fun f => f.2.1).map Prod.fst

theorem fielded_keys (h : List.Forall₂ (fun f v => Good f.2.2 v) fields vs) :
    (fielded fields vs).map FieldBuilder.key = fields.map Prod.fst ∧
      (fielded fields vs).any FieldBuilder.required = fields.any fun f => f.2.1 := by
  induction h with
  | nil => exact ⟨rfl, rfl⟩
  | cons _ _ ih =>
    simp only [fielded, List.zipWith_cons_cons, List.map_cons, List.any_cons]
    exact ⟨by rw [← ih.1]; rfl, by rw [← ih.2]; rfl⟩

theorem writeProperties_fielded (h : List.Forall₂ (fun f v => Good f.2.2 v) fields vs)
    {ps : List Entry} (hnodup : (AssocList.keys ps ++ fields.map Prod.fst).Nodup) :
    writeProperties (.ok (.map ps)) (fielded fields vs) =
      .ok (.map (ps ++ List.zip (fields.map Prod.fst) vs)) := by
  induction h generalizing ps with
  | nil => rw [List.map_nil, List.zip_nil_left, List.append_nil]; rfl
  | @cons f v fields vs _ _ ih =>
    have hnew : f.1 ∉ AssocList.keys ps := by
      intro hmem
      rw [List.nodup_append] at hnodup
      exact hnodup.2.2 f.1 hmem f.1 (by simp) rfl
    have hset : AssocList.set f.1 v ps = ps ++ [(f.1, v)] := AssocList.set_of_not_mem hnew
    have hnodup' : (AssocList.keys (ps ++ [(f.1, v)]) ++ fields.map Prod.fst).Nodup := by
      simpa [List.append_assoc] using hnodup
    have hrest := ih hnodup'
    rw [List.map_cons, List.zip_cons_cons]
    show writeProperties (.ok (.map (AssocList.set f.1 v ps))) (fielded fields vs) = _
    rw [hset, hrest, List.append_assoc, List.singleton_append]

theorem writeRequired_fielded (h : List.Forall₂ (fun f v => Good f.2.2 v) fields vs)
    (items : List Value) : writeRequired (.ok (.list items)) (fielded fields vs) =
      .ok (.list (items ++ (requiredNames fields).map Value.string)) := by
  induction h generalizing items with
  | nil => rw [requiredNames, List.filter_nil, List.map_nil, List.map_nil, List.append_nil]; rfl
  | @cons f v fields vs _ _ ih =>
    rw [requiredNames, List.filter_cons]
    cases hrequired : f.2.1 with
    | false =>
      rw [if_neg Bool.false_ne_true, ← requiredNames, ← ih]
      simp only [writeRequired, fielded, List.zipWith_cons_cons, List.foldl_cons, hrequired,
        Bool.false_eq_true, if_false]
    | true =>
      have hrest := ih (items ++ [.string f.1])
      rw [List.append_assoc, List.singleton_append] at hrest
      rw [if_pos rfl, List.map_cons, List.map_cons, ← requiredNames, ← hrest]
      simp only [writeRequired, fielded, List.zipWith_cons_cons, List.foldl_cons, hrequired, if_true,
        pushName]

variable {es : List Entry} {tag : Option (String × Value)}

/-- The names an object requires: its tag, and those of its fields. -/
def namesRequired (tag : Option (String × Value)) (fields : List (String × Bool × Plan)) : List String :=
  tag.toList.map Prod.fst ++ requiredNames fields

/-- What an object holds when its fields are written. -/
def sealedEntries (es : List Entry) (tag : Option (String × Value))
    (fields : List (String × Bool × Plan)) (vs : List Value) : List Entry :=
  let es := AssocList.set Vocab.properties (.map (tag.toList ++ List.zip (fields.map Prod.fst) vs)) es
  let es := AssocList.set Vocab.additionalProperties (.bool false) es
  if tag.isSome || fields.any fun f => f.2.1 then
    AssocList.set Vocab.required (.list ((namesRequired tag fields).map .string)) es
  else es

theorem seal_ok (hnodup : (tag.toList.map Prod.fst ++ fields.map Prod.fst).Nodup)
    (h : List.Forall₂ (fun f v => Good f.2.2 v) fields vs) :
    sealObject (.ok (.map es)) (tag.map fun t => (t.1, .ok t.2)) (fielded fields vs) =
      .ok (.map (sealedEntries es tag fields vs)) := by
  obtain ⟨hkeys, hany⟩ := fielded_keys h
  have hrepeats : repeats (tag.toList.map Prod.fst ++ fields.map Prod.fst) = false := by
    rw [Bool.eq_false_iff, ne_eq, repeats_iff, not_not]
    exact hnodup
  have hproperties := writeProperties_fielded h hnodup
  cases tag with
  | none =>
    have hrequired := writeRequired_fielded h []
    simp only [Option.toList_none, List.map_nil, List.nil_append] at hrepeats hproperties hrequired
    simp only [sealObject, Option.map_none, Option.toList_none, List.map_nil, List.nil_append, hkeys,
      hrepeats, Bool.false_and, Bool.false_eq_true, if_false, hproperties, put, Option.isSome_none,
      Bool.false_or, hany, hrequired, sealedEntries, namesRequired]
    split <;> rfl
  | some t =>
    have hrequired := writeRequired_fielded h [.string t.1]
    have hrepeats' : repeats (t.1 :: fields.map Prod.fst) = false := hrepeats
    have hproperties' : writeProperties (put (.ok (.map [])) t.1 (.ok t.2)) (fielded fields vs) =
        .ok (.map (t :: List.zip (fields.map Prod.fst) vs)) := hproperties
    have hrequired' : writeRequired (pushName (.ok (.list [])) t.1) (fielded fields vs) =
        .ok (.list (.string t.1 :: (requiredNames fields).map .string)) := hrequired
    simp only [sealObject, Option.map_some, Option.toList_some, List.map_cons, List.map_nil,
      List.cons_append, List.nil_append, hkeys, hrepeats', Bool.false_and, Bool.false_eq_true,
      if_false, hproperties', Option.isSome_some, Bool.true_or, if_true, hrequired', sealedEntries,
      namesRequired]
    rfl

theorem get_sealed (key : String) : (Value.map (sealedEntries es tag fields vs)).get key =
    if key = Vocab.required ∧ (tag.isSome || fields.any fun f => f.2.1) = true then
      some (.list ((namesRequired tag fields).map .string))
    else if key = Vocab.additionalProperties then some (.bool false)
    else if key = Vocab.properties then
      some (.map (tag.toList ++ List.zip (fields.map Prod.fst) vs))
    else (Value.map es).get key := by
  unfold sealedEntries
  by_cases hany : (tag.isSome || fields.any fun f => f.2.1) = true
  · simp only [hany, if_true, get_map_set, and_true]
  · rw [if_neg hany, if_neg fun h => hany h.2, get_map_set, get_map_set]

theorem isRequiredIn_sealed (hnone : (Value.map es).get Vocab.required = none) (key : String) :
    isRequiredIn (.map (sealedEntries es tag fields vs)) key =
      decide (key ∈ namesRequired tag fields) := by
  have hlist : (listUnder Vocab.required (.map (sealedEntries es tag fields vs))).filterMap Value.asStr =
      namesRequired tag fields := by
    rw [listUnder, get_sealed]
    by_cases hany : (tag.isSome || fields.any fun f => f.2.1) = true
    · rw [if_pos ⟨rfl, hany⟩]
      simp [Value.asList, List.filterMap_map, Function.comp_def, Value.asStr]
    · have hnames : namesRequired tag fields = [] := by
        simp only [Bool.or_eq_true, not_or, Bool.not_eq_true, Option.isSome_eq_false_iff,
          Option.isNone_iff_eq_none, List.any_eq_false] at hany
        have hfilter : fields.filter (fun f => f.2.1) = [] :=
          List.filter_eq_nil_iff.mpr fun f hf => by rw [hany.2 f hf]; exact Bool.false_ne_true
        rw [namesRequired, hany.1, requiredNames, hfilter]
        rfl
      rw [if_neg fun h => hany h.2, if_neg (by decide), if_neg (by decide), hnone, hnames]
      rfl
  rw [isRequiredIn, hlist, List.any_beq']
  exact List.elem_eq_mem _ _

theorem filterMap_fields {required : String → Bool}
    (h : List.Forall₂ (fun f v => Good f.2.2 v) fields vs)
    (hrequired : ∀ f ∈ fields, required f.1 = f.2.1) :
    (List.zip (fields.map Prod.fst) vs).filterMap (fun e =>
      if isSchema e.2 then some (⟨e.1, e.2, required e.1⟩ : FieldRef) else none) =
        fieldRefs fields vs := by
  induction h with
  | nil => rfl
  | @cons f v fields vs hgood _ ih =>
    have hschema : isSchema v = true := by rw [isSchema, hgood.map, Bool.true_or]
    have hrest := ih fun f hf => hrequired f (List.mem_cons_of_mem _ hf)
    rw [List.map_cons, List.zip_cons_cons, List.filterMap_cons, if_pos hschema,
      hrequired f List.mem_cons_self, hrest]
    rfl

theorem mem_namesRequired (hnodup : (tag.toList.map Prod.fst ++ fields.map Prod.fst).Nodup)
    {f : String × Bool × Plan} (hf : f ∈ fields) :
    decide (f.1 ∈ namesRequired tag fields) = f.2.1 := by
  have hname : f.1 ∈ fields.map Prod.fst := List.mem_map_of_mem hf
  have htag : f.1 ∉ tag.toList.map Prod.fst := by
    intro hmem
    rw [List.nodup_append] at hnodup
    exact hnodup.2.2 f.1 hmem f.1 hname rfl
  rw [namesRequired, requiredNames]
  cases hrequired : f.2.1 with
  | true =>
    rw [decide_eq_true_eq]
    exact List.mem_append_right _ (List.mem_map.mpr ⟨f, List.mem_filter.mpr ⟨hf, hrequired⟩, rfl⟩)
  | false =>
    rw [decide_eq_false_iff_not, List.mem_append]
    rintro (hmem | hmem)
    · exact htag hmem
    · obtain ⟨g, hg, hsame⟩ := List.mem_map.mp hmem
      obtain ⟨hg, hgrequired⟩ := List.mem_filter.mp hg
      have hnames := (List.nodup_append.mp hnodup).2.1
      have heq := List.inj_on_of_nodup_map hnames hg hf hsame
      rw [heq, hrequired] at hgrequired
      cases hgrequired

theorem fieldsOf_sealed (hnone : (Value.map es).get Vocab.required = none)
    (hnodup : (tag.toList.map Prod.fst ++ fields.map Prod.fst).Nodup)
    (htag : ∀ t ∈ tag, isMap t.2 = true) (h : List.Forall₂ (fun f v => Good f.2.2 v) fields vs) :
    fieldsOf (.map (sealedEntries es tag fields vs)) =
      tag.toList.map (fun t => ⟨t.1, t.2, true⟩) ++ fieldRefs fields vs := by
  have hproperties : propertiesOf (.map (sealedEntries es tag fields vs)) =
      tag.toList ++ List.zip (fields.map Prod.fst) vs := by
    have hne : Vocab.properties ≠ Vocab.required := by decide
    rw [propertiesOf, get_sealed, if_neg fun h => hne h.1, if_neg (by decide), if_pos rfl]
    rfl
  have hin (key : String) : isRequiredIn (.map (sealedEntries es tag fields vs)) key =
      decide (key ∈ namesRequired tag fields) := isRequiredIn_sealed hnone key
  have hfields := filterMap_fields h fun f hf => (hin f.1).trans (mem_namesRequired hnodup hf)
  rw [fieldsOf, hproperties, List.filterMap_append, hfields]
  cases tag with
  | none => rfl
  | some t =>
    have hschema : isSchema t.2 = true := by rw [isSchema, htag t rfl, Bool.true_or]
    have hrequired : isRequiredIn (.map (sealedEntries es (some t) fields vs)) t.1 = true := by
      rw [isRequiredIn_sealed hnone, decide_eq_true_eq]
      exact List.mem_append_left _ (by simp)
    simp [hschema, hrequired]

theorem fieldRefs_key {f : FieldRef} (hf : f ∈ fieldRefs fields vs) : f.key ∈ fields.map Prod.fst := by
  induction fields generalizing vs with
  | nil => cases hf
  | cons g fields ih =>
    cases vs with
    | nil => cases hf
    | cons v vs =>
      rcases List.mem_cons.mp hf with rfl | hf
      · exact List.mem_cons_self
      · exact List.mem_cons_of_mem _ (ih hf)

theorem readsFields_of_good (h : List.Forall₂ (fun f v => Good f.2.2 v) fields vs) :
    ReadsFields fields (fieldRefs fields vs) := by
  induction h with
  | nil => rfl
  | cons hgood _ ih => exact ⟨_, _, rfl, rfl, rfl, hgood.reads, ih⟩

end Fields

section Objects

variable {fields : List (String × Bool × Plan)} {vs : List Value} {es : List Entry}
  {tag : Option (String × Value)}

theorem get_sealed_head {key : String} (hkey : key ∈ headKeys) :
    (Value.map (sealedEntries es tag fields vs)).get key = (Value.map es).get key := by
  have hne : key ≠ Vocab.required ∧ key ≠ Vocab.additionalProperties ∧ key ≠ Vocab.properties := by
    revert key
    decide
  rw [get_sealed, if_neg fun h => hne.1 h.1, if_neg hne.2.1, if_neg hne.2.2]

theorem get_sealed_properties : (Value.map (sealedEntries es tag fields vs)).get Vocab.properties =
    some (.map (tag.toList ++ List.zip (fields.map Prod.fst) vs)) := by
  have hne : Vocab.properties ≠ Vocab.required := by decide
  rw [get_sealed, if_neg fun h => hne h.1, if_neg (by decide), if_pos rfl]

theorem good_map (hnodup : (fields.map Prod.fst).Nodup)
    (h : List.Forall₂ (fun f v => Good f.2.2 v) fields vs) :
    ∃ v, (KindBuilder.map (fielded fields vs)).state = .ok v ∧ Good (.map fields) v := by
  have hnames : ((none : Option (String × Value)).toList.map Prod.fst ++ fields.map Prod.fst).Nodup :=
    hnodup
  have hseal : sealObject (.ok (.map [(Vocab.type, .string Vocab.typeObject)])) none (fielded fields vs) =
      .ok (.map (sealedEntries [(Vocab.type, .string Vocab.typeObject)] none fields vs)) :=
    seal_ok hnames h
  set k := Value.map (sealedEntries [(Vocab.type, .string Vocab.typeObject)] none fields vs) with hk
  have hhead : ∀ key ∈ headKeys, k.get key =
      (Value.map [(Vocab.type, .string Vocab.typeObject)]).get key := fun key => get_sealed_head
  refine ⟨k, hseal, good_of_typed (hhead _ (by decide)) (by decide) (hhead _ (by decide)) ?_ rfl⟩
  refine ⟨headed_of_typed hhead, by rw [get_sealed_properties]; rfl, ?_⟩
  rw [fieldsOf_sealed rfl hnames (by simp) h]
  exact readsFields_of_good h

theorem seal_repeated {state : Drafted} (hstate : Stopping state) {tag : Option (String × Drafted)}
    {builders : List FieldBuilder}
    (h : ¬ (tag.toList.map Prod.fst ++ builders.map FieldBuilder.key).Nodup) :
    sealObject state tag builders = repeated := by
  have hrepeats := repeats_iff.mpr h
  rcases hstate with rfl | ⟨v, rfl⟩
  · simp only [sealObject, hrepeats, Bool.true_and]
    split <;> rfl
  · simp only [sealObject, hrepeats, Bool.true_and]
    split <;> rfl

theorem foldl_put_repeated (builders : List FieldBuilder) : writeProperties repeated builders = repeated := by
  induction builders with
  | nil => rfl
  | cons builder builders ih => exact ih

theorem writeProperties_repeated {builders : List FieldBuilder} {ps : List Entry}
    (hall : ∀ builder ∈ builders, Stopping builder.state)
    (hmem : ∃ builder ∈ builders, builder.state = repeated) :
    writeProperties (.ok (.map ps)) builders = repeated := by
  induction builders generalizing ps with
  | nil =>
    obtain ⟨builder, hbuilder, -⟩ := hmem
    cases hbuilder
  | cons builder builders ih =>
    rcases hall builder List.mem_cons_self with hstate | ⟨v, hstate⟩
    · show writeProperties (put (.ok (.map ps)) builder.key builder.state) builders = _
      rw [hstate]
      exact foldl_put_repeated builders
    · show writeProperties (put (.ok (.map ps)) builder.key builder.state) builders = _
      rw [hstate, put_ok]
      refine ih (fun b hb => hall b (List.mem_cons_of_mem _ hb)) ?_
      obtain ⟨b, hb, hrepeated⟩ := hmem
      rcases List.mem_cons.mp hb with rfl | hb
      · rw [hstate] at hrepeated
        cases hrepeated
      · exact ⟨b, hb, hrepeated⟩

theorem seal_of_repeated {state : Drafted} (hstate : Stopping state) {tag : Option (String × Drafted)}
    {builders : List FieldBuilder} (htag : ∀ t ∈ tag, ∃ v, t.2 = .ok v)
    (hwhole : ∀ v, state = .ok v → isMap v = true)
    (hall : ∀ builder ∈ builders, Stopping builder.state)
    (hmem : ∃ builder ∈ builders, builder.state = repeated) :
    sealObject state tag builders = repeated := by
  by_cases hrepeats : (tag.toList.map Prod.fst ++ builders.map FieldBuilder.key).Nodup
  · have hnot : repeats (tag.toList.map Prod.fst ++ builders.map FieldBuilder.key) = false := by
      rw [Bool.eq_false_iff, ne_eq, repeats_iff, not_not]
      exact hrepeats
    have hput : put state Vocab.properties repeated = repeated := by
      rcases hstate with rfl | ⟨v, rfl⟩
      · rfl
      · obtain ⟨es, rfl⟩ := exists_entries (hwhole v rfl)
        rfl
    cases tag with
    | none =>
      have hproperties : writeProperties (.ok (.map [])) builders = repeated :=
        writeProperties_repeated hall hmem
      simp only [sealObject, hnot, Bool.false_and, Bool.false_eq_true, if_false]
      rw [hproperties, hput]
      split <;> rfl
    | some t =>
      have hproperties : writeProperties (put (.ok (.map [])) t.1 t.2) builders = repeated := by
        obtain ⟨v, hv⟩ := htag t rfl
        rw [hv, put_ok]
        exact writeProperties_repeated hall hmem
      simp only [sealObject, hnot, Bool.false_and, Bool.false_eq_true, if_false]
      rw [hproperties, hput]
      split <;> rfl
  · exact seal_repeated hstate hrepeats

end Objects

end Guatiao.Schema
