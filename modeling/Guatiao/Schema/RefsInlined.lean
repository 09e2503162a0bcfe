import Guatiao.Lib.Yields
import Guatiao.Schema.RefsLeft

/-!
# What inlining leaves in place

A copy is left with a reference for one of three reasons. It is recursive, it would
exceed the budget, or a definition of its name merely stood open where it was read. Here
is when the third never happens: within the budget exactly, and beyond it enough.
-/

namespace Guatiao.Schema

open Lib

/-- No definition refers to itself, directly or through others. -/
def Acyclic (schema : Value) : Prop := ∀ place, ¬Recursive (rootOf schema) place

/-- Following every reference, however much it costs, gives the same copy. -/
def WithinBudget (schema : Value) : Prop := inlineWith none schema = inlineRefs schema

/-- By the end of the copy the definition at a place no longer fits the budget. -/
def Exceeds (schema : Value) (place : String × String) : Prop :=
  ∃ out s reference found,
    schemaAt maxDepth true schema ⟨rootOf schema, [], [], some (budgetOf schema), 0⟩ =
      .ok (out, s) ∧
    lookup (rootOf schema) reference = some (place, found) ∧ budgetOf schema < s.spent + size found

/-- Definitions of one name, under `$defs` and under `definitions`, cost the same. -/
def OneCost (root : List Entry) : Prop :=
  ∀ reference reference' key key' name found found',
    lookup root reference = some ((key, name), found) →
    lookup root reference' = some ((key', name), found') → size found = size found'

/-- Wherever reading a document comes to a reference that stays, what it names is
recursive. -/
def Clear (budgeted : Bool) (schema : Value) : Prop :=
  ∀ place, Left (rootOf schema) budgeted place [] true schema → Recursive (rootOf schema) place

section Walk

variable {root : List Entry} {budget : Option ℕ} {limit : ℕ} {active : List String}

/-- What a definition of the name costs. -/
def Costs (root : List Entry) (name : String) (cost : ℕ) : Prop :=
  ∃ reference key found, lookup root reference = some ((key, name), found) ∧ cost = size found

/-- A definition of the name of the one at a place does not fit the budget once `limit`
is spent. -/
def Over (root : List Entry) (budget : Option ℕ) (limit : ℕ) (place : String × String) : Prop :=
  ∃ most cost, budget = some most ∧ Costs root place.2 cost ∧ most < limit + cost

/-- The states of a walk within a budget, with some definitions open. -/
structure Free (root : List Entry) (budget : Option ℕ) (active : List String) (s : Inliner) :
    Prop where
  root_eq : s.root = root
  budget_eq : s.budget = budget
  active_eq : s.active = active
  costs : ∀ name cost, AssocList.get name s.sizes = some cost → Costs root name cost

/-- A step of the walk closes what it opens and takes back nothing it spent. Its answer
satisfies `P` if no more than `limit` is spent by then. -/
def Walks {α : Type} (root : List Entry) (budget : Option ℕ) (limit : ℕ) (active : List String)
    (walk : Inline α) (s : Inliner) (P : α → Prop) : Prop :=
  Yields walk s fun a s' => Free root budget active s' ∧ s.spent ≤ s'.spent ∧
    (s'.spent ≤ limit → P a)

/-- What a copy refers to is over the budget or left, and where there is no budget what
is left is referred to. -/
structure Mirrors (root : List Entry) (budget : Option ℕ) (limit : ℕ)
    (refers left : String × String → Prop) : Prop where
  forth : ∀ place, refers place → Over root budget limit place ∨ left place
  back : budget = none → ∀ place, left place → refers place

/-- A schema copied: what is left of its references is where reading it is blocked, it is
a text where its references lead to one, and what is no map is copied as written. -/
structure Copied (root : List Entry) (budget : Option ℕ) (limit : ℕ) (active : List String)
    (isRoot : Bool) (v out : Value) : Prop where
  mirrors : Mirrors root budget limit (fun place => Refers root place out)
    fun place => Left root budget.isSome place active isRoot v
  spells : ∀ text, out = .string text → Spells root budget.isSome active v text
  spelled : budget = none → ∀ text, Spells root budget.isSome active v text → out = .string text
  same : v.asMap = none → out = v

/-- A walk that copies a schema. -/
def Copies (root : List Entry) (budget : Option ℕ) (limit : ℕ) (active : List String)
    (isRoot : Bool) (v : Value) (walk : Inline Value) : Prop :=
  ∀ s, Free root budget active s →
    Walks root budget limit active walk s (Copied root budget limit active isRoot v)

/-- A walk that copies every schema with distinct keys. -/
def Faithful (root : List Entry) (budget : Option ℕ) (limit : ℕ) (active : List String)
    (walk : Value → Inline Value) : Prop :=
  ∀ v : Value, v.Distinct → Copies root budget limit active false v (walk v)

/-- An entry copied: under the same key, with the references left that reading its
schemas is blocked at. -/
structure Image (root : List Entry) (budget : Option ℕ) (limit : ℕ) (active : List String)
    (p q : Entry) : Prop where
  key_eq : p.1 = q.1
  mirrors : Mirrors root budget limit (fun place => RefersUnder root place p.1 q.2)
    fun place => ∃ v, Under p.1 p.2 v ∧ Left root budget.isSome place active false v
  spells : p.1 = Vocab.ref → ∀ text, q.2 = .string text →
    Spells root budget.isSome active p.2 text
  spelled : p.1 = Vocab.ref → budget = none → ∀ text,
    Spells root budget.isSome active p.2 text → q.2 = .string text

/-- A schema copied under a name. -/
structure NamedImage (root : List Entry) (budget : Option ℕ) (limit : ℕ) (active : List String)
    (p q : Entry) : Prop where
  key_eq : p.1 = q.1
  mirrors : Mirrors root budget limit (fun place => Refers root place q.2)
    fun place => Left root budget.isSome place active false p.2

theorem mem_forall₂_right {α β : Type} {R : α → β → Prop} {xs : List α} {ys : List β}
    (h : List.Forall₂ R xs ys) {y : β} (hy : y ∈ ys) : ∃ x ∈ xs, R x y := by
  induction h with
  | nil => cases hy
  | @cons x z xs ys hhead _ ih =>
    rcases List.mem_cons.mp hy with rfl | hy
    · exact ⟨x, List.mem_cons_self .., hhead⟩
    · obtain ⟨x', hx', hR⟩ := ih hy
      exact ⟨x', List.mem_cons_of_mem _ hx', hR⟩

theorem mem_forall₂_left {α β : Type} {R : α → β → Prop} {xs : List α} {ys : List β}
    (h : List.Forall₂ R xs ys) {x : α} (hx : x ∈ xs) : ∃ y ∈ ys, R x y := by
  obtain ⟨y, hy, hR⟩ := mem_forall₂_right h.flip hx
  exact ⟨y, hy, hR⟩

theorem Mirrors.congr {refers refers' left left' : String × String → Prop}
    (h : Mirrors root budget limit refers left) (hrefers : ∀ place, refers' place ↔ refers place)
    (hleft : ∀ place, left' place ↔ left place) : Mirrors root budget limit refers' left' := by
  constructor
  · intro place href
    exact (h.forth place ((hrefers place).mp href)).imp_right (hleft place).mpr
  · intro hnone place hl
    exact (hrefers place).mpr (h.back hnone place ((hleft place).mp hl))

theorem mirrors_exists {α β : Type} {A : β → String × String → Prop}
    {B : α → String × String → Prop} {xs : List α} {ys : List β}
    (h : List.Forall₂ (fun x y => Mirrors root budget limit (A y) (B x)) xs ys) :
    Mirrors root budget limit (fun place => ∃ y ∈ ys, A y place)
      fun place => ∃ x ∈ xs, B x place := by
  constructor
  · rintro place ⟨y, hy, hA⟩
    obtain ⟨x, hx, hxy⟩ := mem_forall₂_right h hy
    exact (hxy.forth place hA).imp_right fun hB => ⟨x, hx, hB⟩
  · rintro hnone place ⟨x, hx, hB⟩
    obtain ⟨y, hy, hxy⟩ := mem_forall₂_left h hx
    exact ⟨y, hy, hxy.back hnone place hB⟩

section Rules

variable {α β : Type} {s : Inliner} {P Q : α → Prop}

theorem Free.charge (h : Free root budget active s) (units : ℕ) :
    Free root budget active { s with spent := s.spent + units } :=
  ⟨h.root_eq, h.budget_eq, h.active_eq, h.costs⟩

theorem Walks.mono {walk : Inline α} (h : Walks root budget limit active walk s P)
    (hPQ : ∀ a, P a → Q a) : Walks root budget limit active walk s Q :=
  Yields.mono h fun _ _ ⟨hs', hle, hP⟩ => ⟨hs', hle, fun hlimit => hPQ _ (hP hlimit)⟩

theorem Walks.pure {a : α} (hs : Free root budget active s) (hP : s.spent ≤ limit → P a) :
    Walks root budget limit active (Pure.pure a) s P :=
  yields_pure.mpr ⟨hs, le_rfl, hP⟩

theorem Walks.bind {walk : Inline α} {next : α → Inline β} {R : β → Prop}
    (h : Walks root budget limit active walk s P)
    (hnext : ∀ a s', Free root budget active s' → s.spent ≤ s'.spent →
      (s'.spent ≤ limit → P a) → Walks root budget limit active (next a) s' R) :
    Walks root budget limit active (walk >>= next) s R := by
  refine yields_bind.mpr (Yields.mono h fun a s' ⟨hs', hle, hP⟩ => ?_)
  refine Yields.mono (hnext a s' hs' hle hP) fun b s'' ⟨hs'', hle', hR⟩ => ?_
  exact ⟨hs'', hle.trans hle', hR⟩

theorem Walks.charge (hs : Free root budget active s) (units : ℕ) :
    Walks root budget limit active (Inline.charge units) s fun _ => True :=
  yields_modify.mpr ⟨hs.charge units, Nat.le_add_right .., fun _ => trivial⟩

theorem walks_data (hs : Free root budget active s) (v : Value) :
    Walks root budget limit active (Inline.data v) s fun out => out = v :=
  (Walks.charge hs _).bind fun _ _ hs' _ _ => .pure hs' fun _ => rfl

end Rules

theorem walks_items {walk : Value → Inline Value} (hwalk : Faithful root budget limit active walk)
    {list : List Value} (hdistinct : ∀ v ∈ list, v.Distinct) {s : Inliner}
    (hs : Free root budget active s) :
    Walks root budget limit active (Inline.items walk list) s
      (List.Forall₂ (fun v w => Mirrors root budget limit (fun place => Refers root place w)
        fun place => Left root budget.isSome place active false v) list) := by
  induction list generalizing s with
  | nil => exact .pure hs fun _ => .nil
  | cons v rest ih =>
    refine (hwalk v (hdistinct v (List.mem_cons_self ..)) s hs).bind fun w s' hs' _ hw => ?_
    refine (ih (fun u hu => hdistinct u (List.mem_cons_of_mem _ hu)) hs').bind
      fun out s'' hs'' hle hrest => ?_
    exact .pure hs'' fun hlimit => .cons (hw (hle.trans hlimit)).mirrors (hrest hlimit)

theorem walks_named {walk : Value → Inline Value} (hwalk : Faithful root budget limit active walk)
    {names out out' : List Entry} (hdistinct : ∀ k v, (k, v) ∈ names → v.Distinct) {s : Inliner}
    (hs : Free root budget active s)
    (hout : s.spent ≤ limit → List.Forall₂ (NamedImage root budget limit active) out out') :
    Walks root budget limit active (Inline.named walk names out') s
      (List.Forall₂ (NamedImage root budget limit active) (stored (fun _ => false) names out)) := by
  induction names generalizing s out out' with
  | nil => exact .pure hs hout
  | cons p rest ih =>
    obtain ⟨key, v⟩ := p
    refine (Walks.charge hs _).bind fun _ s₁ hs₁ hle₁ _ => ?_
    refine (hwalk v (hdistinct key v (List.mem_cons_self ..)) s₁ hs₁).bind
      fun w s₂ hs₂ hle₂ hw => ?_
    refine ih (fun k u hu => hdistinct k u (List.mem_cons_of_mem _ hu)) hs₂ fun hlimit => ?_
    exact AssocList.set_forall₂ (fun p q h => h.key_eq) (hout (by omega))
      ⟨rfl, (hw hlimit).mirrors⟩

theorem ref_notin_nameMaps : Vocab.ref ∉ nameMaps := by decide

theorem ref_notin_dataKeywords : Vocab.ref ∉ dataKeywords := by decide

section Entries

variable {key : String} {v w : Value}

theorem image_data (hdata : key ∈ dataKeywords) :
    Image root budget limit active (key, v) (key, w) := by
  have hkey : key ≠ Vocab.ref := by
    rintro rfl
    exact ref_notin_dataKeywords hdata
  refine ⟨rfl, ⟨fun place h => absurd h (not_refersUnder_data hdata), ?_⟩,
    fun h => absurd h hkey, fun h => absurd h hkey⟩
  rintro _ place ⟨u, hu, -⟩
  exact absurd hu (not_under_data hdata)

theorem image_plain (hdata : key ∉ dataKeywords) (hnames : key ∈ nameMaps → v.asMap = none)
    (hlist : v.asList = none) (h : Copied root budget limit active false v w) :
    Image root budget limit active (key, v) (key, w) := by
  have hwnames : key ∈ nameMaps → w.asMap = none := by
    intro hkey
    rw [h.same (hnames hkey)]
    exact hnames hkey
  refine ⟨rfl, h.mirrors.congr (fun place => refersUnder_plain hdata hwnames) fun place => ?_,
    fun _ => h.spells, fun _ => h.spelled⟩
  constructor
  · rintro ⟨u, hu, hleft⟩
    cases hu with
    | plain => exact hleft
    | item => cases hlist
    | named hkey => exact absurd (hnames hkey) (by simp [Value.asMap])
  · exact fun hleft => ⟨v, .plain hdata hnames hlist, hleft⟩

theorem image_named {names out : List Entry} (hkey : key ∈ nameMaps)
    (h : List.Forall₂ (NamedImage root budget limit active) (stored (fun _ => false) names [])
      out) : Image root budget limit active (key, .map names) (key, .map out) := by
  have href : key ≠ Vocab.ref := by
    rintro rfl
    exact ref_notin_nameMaps hkey
  refine ⟨rfl, (mirrors_exists (h.imp fun _ _ h => h.mirrors)).congr
    (fun place => refersUnder_named hkey) fun place => ?_, fun h => absurd h href,
    fun h => absurd h href⟩
  constructor
  · rintro ⟨u, hu, hleft⟩
    cases hu with
    | plain _ hnames => exact absurd (hnames hkey) (by simp [Value.asMap])
    | named _ hu => exact ⟨_, hu, hleft⟩
  · rintro ⟨p, hp, hleft⟩
    exact ⟨p.2, .named hkey hp, hleft⟩

theorem image_items {list out : List Value} (hdata : key ∉ dataKeywords)
    (h : List.Forall₂ (fun v w => Mirrors root budget limit (fun place => Refers root place w)
      fun place => Left root budget.isSome place active false v) list out) :
    Image root budget limit active (key, .list list) (key, .list out) := by
  refine ⟨rfl, (mirrors_exists h).congr
    (fun place => (refersUnder_plain hdata fun _ => rfl).trans refers_list) fun place => ?_,
    fun _ _ h => (nomatch h), fun _ _ _ h => absurd h not_spells_list⟩
  constructor
  · rintro ⟨u, hu, hleft⟩
    cases hu with
    | plain _ _ hlist => cases hlist
    | item _ hu => exact ⟨_, hu, hleft⟩
  · rintro ⟨u, hu, hleft⟩
    exact ⟨u, .item hdata hu, hleft⟩

theorem walks_entry {deeper : Option ((Value → Inline Value) × (Value → Inline Value))}
    (hdeeper : ∀ p ∈ deeper, Faithful root budget limit active p.1 ∧
      Faithful root budget limit active p.2) (hdistinct : v.Distinct) {s : Inliner}
    (hs : Free root budget active s) :
    Walks root budget limit active (Inline.entry deeper key v) s
      fun w => Image root budget limit active (key, v) (key, w) := by
  unfold Inline.entry
  split
  · next hdata => exact (walks_data hs v).mono fun w _ => image_data hdata
  · next hdata =>
    cases deeper with
    | none => exact yields_throw
    | some p =>
      obtain ⟨one, two⟩ := p
      obtain ⟨hone, htwo⟩ := hdeeper _ rfl
      dsimp only
      split
      · next names =>
        split
        · next hkey =>
          refine (Walks.charge hs _).bind fun _ s₁ hs₁ _ _ => ?_
          refine (walks_named htwo (Value.distinct_map.mp hdistinct).2 hs₁ fun _ => .nil).bind
            fun out s₂ hs₂ _ hout => ?_
          exact .pure hs₂ fun hlimit => image_named hkey (hout hlimit)
        · next hkey =>
          exact (hone _ hdistinct s hs).mono
            fun w => image_plain hdata (fun h => absurd h hkey) rfl
      · next list =>
        refine (Walks.charge hs _).bind fun _ s₁ hs₁ _ _ => ?_
        refine (walks_items htwo (Value.distinct_list.mp hdistinct) hs₁).bind
          fun out s₂ hs₂ _ hout => ?_
        exact .pure hs₂ fun hlimit => image_items hdata (hout hlimit)
      · next hmap hlist =>
        cases v with
        | map names => exact absurd rfl (hmap names)
        | list list => exact absurd rfl (hlist list)
        | _ => exact (hone _ hdistinct s hs).mono fun w => image_plain hdata (fun _ => rfl) rfl

end Entries

section Expand

variable {entry : String → Value → Inline Value}
  (hentry : ∀ key (v : Value), v.Distinct → ∀ s, Free root budget active s →
    Walks root budget limit active (entry key v) s
      fun w => Image root budget limit active (key, v) (key, w))
include hentry

variable {out out' : List Entry} {s : Inliner}

theorem walks_objectEntries (isRoot : Bool) {map : List Entry}
    (hdistinct : ∀ k v, (k, v) ∈ map → v.Distinct) (hs : Free root budget active s)
    (hout : s.spent ≤ limit → List.Forall₂ (Image root budget limit active) out out') :
    Walks root budget limit active (Inline.objectEntries entry isRoot map out') s
      (List.Forall₂ (Image root budget limit active)
        (stored (fun key => isRoot && isDefinitions key) map out)) := by
  induction map generalizing s out out' with
  | nil => exact .pure hs hout
  | cons p rest ih =>
    obtain ⟨key, v⟩ := p
    have hrest := fun k u hu => hdistinct k u (List.mem_cons_of_mem _ hu)
    unfold Inline.objectEntries stored
    split
    · exact ih hrest hs hout
    · refine (Walks.charge hs _).bind fun _ s₁ hs₁ hle₁ _ => ?_
      refine (hentry key v (hdistinct key v (List.mem_cons_self ..)) s₁ hs₁).bind
        fun w s₂ hs₂ hle₂ hw => ?_
      exact ih hrest hs₂ fun hlimit =>
        AssocList.set_forall₂ (fun p q h => h.key_eq) (hout (by omega)) (hw hlimit)

theorem walks_beside (isRoot : Bool) {map : List Entry}
    (hdistinct : ∀ k v, (k, v) ∈ map → v.Distinct) (hs : Free root budget active s)
    (hout : s.spent ≤ limit → List.Forall₂ (Image root budget limit active) out out') :
    Walks root budget limit active (Inline.beside entry isRoot map out') s
      (List.Forall₂ (Image root budget limit active)
        (stored (fun key => key == Vocab.ref || isRoot && isDefinitions key) map out)) := by
  induction map generalizing s out out' with
  | nil => exact .pure hs hout
  | cons p rest ih =>
    obtain ⟨key, v⟩ := p
    have hrest := fun k u hu => hdistinct k u (List.mem_cons_of_mem _ hu)
    unfold Inline.beside stored
    split
    · exact ih hrest hs hout
    · refine (hentry key v (hdistinct key v (List.mem_cons_self ..)) s hs).bind
        fun w s' hs' hle hw => ?_
      exact ih hrest hs' fun hlimit =>
        AssocList.set_forall₂ (fun p q h => h.key_eq) (hout (hle.trans hlimit)) (hw hlimit)

theorem walks_lay (isRoot : Bool) {referrers : List (List Entry)}
    (hdistinct : ∀ map ∈ referrers, (Value.map map).Distinct) (hs : Free root budget active s)
    (hout : s.spent ≤ limit → List.Forall₂ (Image root budget limit active) out out') :
    Walks root budget limit active (Inline.lay entry isRoot referrers out') s
      (List.Forall₂ (Image root budget limit active) (laidOver isRoot referrers out)) := by
  induction referrers generalizing isRoot s with
  | nil => exact .pure hs hout
  | cons referrer inner ih =>
    refine (ih false (fun map hmap => hdistinct map (List.mem_cons_of_mem _ hmap)) hs hout).bind
      fun mid s' hs' _ hmid => ?_
    exact walks_beside hentry isRoot
      (Value.distinct_map.mp (hdistinct referrer (List.mem_cons_self ..))).2 hs' hmid

end Expand

section Schemas

variable {v : Value} {isRoot : Bool} {referrers : List (List Entry)} {active' : List String}
  (hdefinitions : ∀ reference place found, lookup root reference = some (place, found) →
    found.Distinct)

/-- A copy whose entries are images of those shown refers where one of them does, or to
what is named under `$ref`. -/
theorem mirrors_images {map out : List Entry}
    (hleads : Leads root budget.isSome active v referrers active' (.map map))
    (hended : ∀ reference key name found, AssocList.get Vocab.ref map = some (.string reference) →
      lookup root reference = some ((key, name), found) →
      name ∈ active' ∨ Over root budget limit (key, name))
    (hnodup : (AssocList.keys map).Nodup)
    (himages : List.Forall₂ (Image root budget limit active') (shown isRoot referrers map) out) :
    Mirrors root budget limit (fun place => Refers root place (.map out))
      fun place => Left root budget.isSome place active isRoot v := by
  have hkey : ∀ p q, Image root budget limit active' p q → p.1 = q.1 := fun p q h => h.key_eq
  constructor
  · rintro ⟨key, name⟩ h
    rcases refers_map.mp h with ⟨reference, found, href, hfound⟩ | ⟨key', w, hw, hunder⟩
    · obtain ⟨x, hx, himage⟩ := AssocList.get_forall₂ hkey himages href
      rw [get_ref_shown isRoot referrers hnodup] at hx
      have hspells := himage.spells rfl reference rfl
      cases x with
      | map map' => exact .inr ⟨_, _, _, .here .., .indirect hleads hx hspells hfound⟩
      | string text =>
        cases spells_string.mp hspells
        refine (hended _ _ _ _ hx hfound).symm.imp_right fun hopen => ?_
        exact ⟨_, _, _, .here .., .open_ hleads hx hfound hopen⟩
      | _ =>
        obtain ⟨_, _, hspells⟩ := hspells
        cases hspells
    · obtain ⟨⟨key'', x⟩, hx, himage⟩ := mem_forall₂_right himages hw
      obtain rfl : key'' = key' := himage.key_eq
      refine (himage.mirrors.forth _ hunder).imp_right ?_
      rintro ⟨y, hy, active'', isRoot', u, hshows, hblocked⟩
      exact ⟨active'', isRoot', u, .under hleads hx hy hshows, hblocked⟩
  · rintro hnone place ⟨active'', isRoot', w, hshows, hblocked⟩
    have hunique {referrers₂ active₂ w₂}
        (h₂ : Leads root budget.isSome active v referrers₂ active₂ w₂) :=
      hleads.unique (by rw [hnone]; rfl) h₂
    have hrefs : ∀ x reference, AssocList.get Vocab.ref map = some x →
        Spells root budget.isSome active' x reference →
        AssocList.get Vocab.ref out = some (.string reference) := by
      intro x reference hx hspells
      rw [← get_ref_shown isRoot referrers hnodup] at hx
      obtain ⟨w, hw, himage⟩ := AssocList.get_forall₂_left hkey himages hx
      rw [hw, ← himage.spelled rfl hnone reference hspells]
    refine refers_map.mpr ?_
    cases hshows with
    | here =>
      left
      cases hblocked with
      | open_ hleads' href hfound _ =>
        obtain ⟨rfl, rfl, heq⟩ := hunique hleads'
        cases heq
        exact ⟨_, _, hrefs _ _ href (spells_string.mpr rfl), hfound⟩
      | indirect hleads' href hspells hfound =>
        obtain ⟨rfl, rfl, heq⟩ := hunique hleads'
        cases heq
        exact ⟨_, _, hrefs _ _ href hspells, hfound⟩
      | copied hleads' => cases (hunique hleads').2.2
    | under hleads' hx hy hshows =>
      right
      obtain ⟨rfl, rfl, heq⟩ := hunique hleads'
      cases heq
      obtain ⟨⟨key, w'⟩, hw', himage⟩ := mem_forall₂_left himages hx
      obtain rfl : _ = key := himage.key_eq
      exact ⟨_, w', hw', himage.mirrors.back hnone _ ⟨_, hy, _, _, _, hshows, hblocked⟩⟩

theorem mirrors_copied {w : Value}
    (hleads : Leads root budget.isSome active v referrers active' w) (hmap : w.asMap = none) :
    Mirrors root budget limit (fun place => Refers root place w)
      fun place => Left root budget.isSome place active isRoot v := by
  constructor
  · intro place href
    refine .inr ⟨active, isRoot, v, .here .., ?_⟩
    cases w with
    | list items => exact .copied hleads href
    | map => cases hmap
    | _ => exact absurd href (not_refers rfl rfl)
  · rintro hnone place ⟨active'', isRoot', u, hshows, hblocked⟩
    have hunique {referrers₂ active₂ w₂}
        (h₂ : Leads root budget.isSome active v referrers₂ active₂ w₂) :=
      hleads.unique (by rw [hnone]; rfl) h₂
    have hnomap : ∀ {referrers₂ active₂ map},
        ¬Leads root budget.isSome active v referrers₂ active₂ (.map map) := by
      intro referrers₂ active₂ map hleads'
      rw [(hunique hleads').2.2] at hmap
      cases hmap
    cases hshows with
    | here =>
      cases hblocked with
      | open_ hleads' => exact absurd hleads' hnomap
      | indirect hleads' => exact absurd hleads' hnomap
      | copied hleads' href =>
        rw [(hunique hleads').2.2]
        exact href
    | under hleads' => exact absurd hleads' hnomap

/-- Where a chain of references from `v` has come: what is left of the way leads where
`v` leads. -/
structure OnTheWay (root : List Entry) (budget : Option ℕ) (active : List String) (v : Value)
    (spent : ℕ) (c : Chase) : Prop where
  free : Free root budget (c.followed.reverse ++ active) c.inliner
  spent_eq : c.inliner.spent = spent
  new : ∀ name ∈ c.followed, name ∉ active
  leads : ∀ referrers active' w, Leads root budget.isSome (c.followed.reverse ++ active) c.current
    referrers active' w → Leads root budget.isSome active v (c.referrers ++ referrers) active' w
  distinct : c.current.Distinct
  referrers_distinct : ∀ map ∈ c.referrers, (Value.map map).Distinct

/-- The end of a chain: where it leads, and why no reference is followed there. -/
structure Arrived (root : List Entry) (budget : Option ℕ) (active : List String) (v : Value)
    (spent : ℕ) (c : Chase) : Prop where
  free : Free root budget (c.followed.reverse ++ active) c.inliner
  spent_eq : c.inliner.spent = spent
  new : ∀ name ∈ c.followed, name ∉ active
  leads : Leads root budget.isSome active v c.referrers (c.followed.reverse ++ active) c.current
  ended : ∀ map reference key name found, c.current = .map map →
    AssocList.get Vocab.ref map = some (.string reference) →
    lookup root reference = some ((key, name), found) →
    name ∈ c.followed.reverse ++ active ∨ Over root budget spent (key, name)
  distinct : c.current.Distinct
  referrers_distinct : ∀ map ∈ c.referrers, (Value.map map).Distinct

variable {s : Inliner}

/-- A schema has a definition to expand where its reference is a text naming one that is
not open. -/
theorem target_iff (hs : Free root budget active s) {map : List Entry}
    {name : String} {found : Value} : s.target map = some (name, found) ↔
      ∃ reference key, AssocList.get Vocab.ref map = some (.string reference) ∧
        lookup root reference = some ((key, name), found) ∧ name ∉ active := by
  unfold Inliner.target
  rw [hs.root_eq, hs.active_eq]
  constructor
  · intro h
    rw [Option.bind_eq_some_iff] at h
    obtain ⟨reference, htext, h⟩ := h
    rw [Option.bind_eq_some_iff] at h
    obtain ⟨⟨⟨key, name'⟩, found'⟩, hlookup, h⟩ := h
    rw [Option.bind_eq_some_iff] at htext
    obtain ⟨x, hx, htext⟩ := htext
    dsimp only at h
    split at h
    · cases h
    · next hclosed =>
      cases h
      cases x with
      | string text =>
        cases htext
        exact ⟨reference, key, hx, hlookup, hclosed⟩
      | _ => cases htext
  · rintro ⟨reference, key, href, hlookup, hclosed⟩
    simp [href, Value.asStr, hlookup, hclosed]

/-- Measuring a definition keeps the state, and it is refused only when what one of its
name costs does not fit. -/
theorem free_affords (hs : Free root budget active s) {reference key name : String}
    {found : Value} (hfound : lookup root reference = some ((key, name), found)) :
    Free root budget active (s.affords name found).2 ∧
      ((s.affords name found).1 = false → Over root budget s.spent (key, name)) := by
  have hcost : Costs root name ((AssocList.get name s.sizes).getD (size found)) := by
    cases hget : AssocList.get name s.sizes with
    | none => exact ⟨reference, key, found, hfound, rfl⟩
    | some cost => exact hs.costs name cost hget
  refine ⟨⟨hs.root_eq, hs.budget_eq, hs.active_eq, fun name' cost hget => ?_⟩, fun hrefused => ?_⟩
  · dsimp only [Inliner.affords] at hget
    by_cases hname : name' = name
    · subst hname
      rw [AssocList.get_set_self] at hget
      cases hget
      exact hcost
    · rw [AssocList.get_set_of_ne hname] at hget
      exact hs.costs name' cost hget
  · dsimp only [Inliner.affords] at hrefused
    rw [hs.budget_eq] at hrefused
    cases budget with
    | none => cases hrefused
    | some most =>
      simp only [Option.map_some, Option.getD_some, decide_eq_false_iff_not, not_le] at hrefused
      exact ⟨most, _, rfl, hcost, hrefused⟩

include hdefinitions in
theorem onTheWay_turn {spent : ℕ} {c c' : Chase} (h : OnTheWay root budget active v spent c)
    (hturn : c.turn = .inr c') : OnTheWay root budget active v spent c' := by
  unfold Chase.turn at hturn
  split at hturn
  · next map hcurrent =>
    split at hturn
    · cases hturn
    · next name target htarget =>
      split at hturn
      · cases hturn
      · next inliner hafford =>
        cases hturn
        obtain ⟨reference, key, href, hlookup, hclosed⟩ := (target_iff h.free).mp htarget
        have hinliner : inliner = (c.inliner.affords name target).2 := by rw [hafford]
        subst hinliner
        obtain ⟨hfree, -⟩ := free_affords h.free hlookup
        have hopened : (c.followed ++ [name]).reverse ++ active =
            name :: (c.followed.reverse ++ active) := by simp
        refine ⟨⟨hfree.root_eq, hfree.budget_eq, ?_, hfree.costs⟩, h.spent_eq, ?_, ?_, ?_, ?_⟩
        · rw [hopened, ← h.free.active_eq]
          rfl
        · intro n hn
          rcases List.mem_append.mp hn with hn | hn
          · exact h.new n hn
          · rw [List.mem_singleton.mp hn]
            exact fun hmem => hclosed (List.mem_append_right _ hmem)
        · intro referrers active' w hleads
          dsimp only at hleads ⊢
          rw [hopened] at hleads
          rw [List.append_assoc, List.singleton_append]
          refine h.leads _ _ _ ?_
          rw [hcurrent]
          exact .hop href hlookup hclosed hleads
        · exact hdefinitions _ _ _ hlookup
        · intro m hm
          rcases List.mem_append.mp hm with hm | hm
          · exact h.referrers_distinct m hm
          · rw [List.mem_singleton.mp hm, ← hcurrent]
            exact h.distinct
  · cases hturn

/-- A chain ends at a schema with nothing to expand, or with what does not fit. -/
theorem turn_stops {c c' : Chase} (hs : Free root budget active c.inliner)
    (hstop : c.turn = .inl c') :
    (∃ inliner, c' = { c with inliner := inliner } ∧ inliner.spent = c.inliner.spent ∧
      Free root budget active inliner) ∧
    ∀ map reference key name found, c.current = .map map →
      AssocList.get Vocab.ref map = some (.string reference) →
      lookup root reference = some ((key, name), found) →
      name ∈ active ∨ Over root budget c.inliner.spent (key, name) := by
  unfold Chase.turn at hstop
  split at hstop
  · next map hcurrent =>
    split at hstop
    · next htarget =>
      cases hstop
      refine ⟨⟨c.inliner, rfl, rfl, hs⟩, fun map' reference key name found heq href hfound => ?_⟩
      rw [hcurrent] at heq
      cases heq
      left
      by_contra hclosed
      rw [(target_iff hs).mpr ⟨reference, key, href, hfound, hclosed⟩] at htarget
      cases htarget
    · next name target htarget =>
      obtain ⟨reference, key, href, hlookup, hclosed⟩ := (target_iff hs).mp htarget
      obtain ⟨hfree, hover⟩ := free_affords hs hlookup
      split at hstop
      · next inliner hafford =>
        cases hstop
        have hinliner : inliner = (c.inliner.affords name target).2 := by rw [hafford]
        subst hinliner
        refine ⟨⟨_, rfl, rfl, hfree⟩, fun map' reference' key' name' found' heq href' hfound' => ?_⟩
        rw [hcurrent] at heq
        cases heq
        rw [href] at href'
        cases href'
        rw [hlookup] at hfound'
        cases hfound'
        exact .inr (hover (by rw [hafford]))
      · cases hstop
  · next hnomap =>
    cases hstop
    exact ⟨⟨c.inliner, rfl, rfl, hs⟩, fun map' _ _ _ _ heq => absurd heq (hnomap map')⟩

theorem onTheWay_stop {spent : ℕ} {c c' : Chase} (h : OnTheWay root budget active v spent c)
    (hstop : c.turn = .inl c') : Arrived root budget active v spent c' := by
  obtain ⟨⟨inliner, rfl, hspent, hfree⟩, hended⟩ := turn_stops h.free hstop
  rw [h.spent_eq] at hspent hended
  refine ⟨hfree, hspent, h.new, ?_, hended, h.distinct, h.referrers_distinct⟩
  have hleads := h.leads _ _ _ (.stop fun map reference found name key heq href hfound =>
    (hended map reference key name found heq href hfound).imp_right fun hover => by
      obtain ⟨most, -, hbudget, -⟩ := hover
      rw [hbudget]
      rfl)
  rwa [List.append_nil] at hleads

include hdefinitions in
theorem arrived_run (hv : v.Distinct) (hs : Free root budget active s) :
    Arrived root budget active v s.spent (chaseLoop.run ⟨s, v, [], []⟩) := by
  refine chaseLoop.run_invariant (I := OnTheWay root budget active v s.spent) (Q := _)
    (fun c c' h hturn => onTheWay_turn hdefinitions h hturn)
    (fun c c' h hstop => onTheWay_stop h hstop) ?_
  exact ⟨hs, rfl, by simp, fun _ _ _ h => h, hv, by simp⟩

theorem Over.mono {place : String × String} {spent : ℕ} (h : Over root budget spent place)
    (hle : spent ≤ limit) : Over root budget limit place := by
  obtain ⟨most, cost, hbudget, hcost, hlt⟩ := h
  exact ⟨most, cost, hbudget, hcost, by omega⟩

include hdefinitions in
theorem copies_visit {entry : String → Value → Inline Value}
    (hentry : ∀ active key (v : Value), v.Distinct → ∀ s, Free root budget active s →
      Walks root budget limit active (entry key v) s
        fun w => Image root budget limit active (key, v) (key, w))
    (isRoot : Bool) (hv : v.Distinct) :
    Copies root budget limit active isRoot v (Inline.visit entry isRoot v) := by
  intro s hs
  simp only [Walks, Inline.visit, yields_bind, yields_get, yields_set, yields_modify, yields_pure]
  obtain ⟨hfree, hspent, hnew, hleads, hended, hcurrent, hreferrers⟩ :=
    arrived_run hdefinitions hv hs
  generalize chaseLoop.run ⟨s, v, [], []⟩ = c at *
  have hexpand : Walks root budget limit (c.followed.reverse ++ active)
      (Inline.expand entry c.current c.referrers isRoot) c.inliner
      (Copied root budget limit active isRoot v) := by
    unfold Inline.expand
    split
    · next map hmap =>
      rw [hmap] at hcurrent hleads
      obtain ⟨hnodup, hvalues⟩ := Value.distinct_map.mp hcurrent
      refine Walks.bind ((Walks.charge hfree 1).bind fun _ s₁ hs₁ _ _ =>
        walks_objectEntries (hentry _) _ hvalues hs₁ fun _ => .nil) fun mid s₂ hs₂ hle₂ hmid => ?_
      refine (walks_lay (hentry _) isRoot hreferrers hs₂ hmid).bind fun out s₃ hs₃ hle₃ hout => ?_
      refine .pure hs₃ fun hlimit => ⟨?_, fun text h => ?_, fun hnone text h => ?_, fun hnone => ?_⟩
      · refine mirrors_images hleads (fun reference key name found href hfound => ?_) hnodup
          (hout hlimit)
        exact (hended _ _ _ _ _ hmap href hfound).imp_right (Over.mono · (by omega))
      · cases h
      · obtain ⟨referrers, active', h⟩ := h
        cases (hleads.unique (by rw [hnone]; rfl) h).2.2
      · rw [← hleads.eq_of_not_map hnone] at hnone
        cases hnone
    · next hnomap =>
      have hnone : c.current.asMap = none := by
        cases hc : c.current with
        | map map => exact absurd hc (hnomap map)
        | _ => rfl
      refine (walks_data hfree c.current).mono fun out hout => ?_
      subst hout
      refine ⟨mirrors_copied hleads hnone, fun text heq => ⟨_, _, heq ▸ hleads⟩,
        fun hnone text h => ?_, hleads.eq_of_not_map⟩
      obtain ⟨referrers, active', h⟩ := h
      exact (hleads.unique (by rw [hnone]; rfl) h).2.2
  refine Yields.mono hexpand fun out s' hpost => ?_
  obtain ⟨hs', hle, hcopied⟩ := hpost
  refine ⟨⟨hs'.root_eq, hs'.budget_eq, ?_, hs'.costs⟩, hspent ▸ hle, hcopied⟩
  dsimp only
  rw [hs'.active_eq, Inline.filter_followed hnew]

include hdefinitions in
theorem copies_schemaAt (levels : ℕ) (isRoot : Bool) (hv : v.Distinct) :
    Copies root budget limit active isRoot v (schemaAt levels isRoot v) := by
  induction levels using Nat.strong_induction_on generalizing isRoot active v with
  | _ levels ih =>
    match levels with
    | 0 =>
      intro s _
      exact yields_throw
    | 1 =>
      exact copies_visit hdefinitions
        (fun active key v hv s hs => walks_entry (by simp) hv hs) isRoot hv
    | levels + 2 =>
      refine copies_visit hdefinitions (fun active key v hv s hs => walks_entry ?_ hv hs) isRoot hv
      rintro p ⟨⟩
      exact ⟨fun v hv => ih (levels + 1) (by omega) false hv,
        fun v hv => ih levels (by omega) false hv⟩

end Schemas

end Walk

theorem lookup_distinct {schema : Value} (hdistinct : schema.Distinct) {reference : String}
    {place : String × String} {found : Value}
    (h : lookup (rootOf schema) reference = some (place, found)) : found.Distinct := by
  obtain ⟨key, name⟩ := place
  obtain ⟨-, under, hunder, hfound⟩ := lookup_eq_some h
  cases schema with
  | map entries =>
    have hmap := (Value.distinct_map.mp hdistinct).2 _ _ (AssocList.mem_of_get hunder)
    exact (Value.distinct_map.mp hmap).2 _ _ (AssocList.mem_of_get hfound)
  | _ => cases hunder

/-- A copy of a document refers where reading it is blocked, or to what is over the
budget by the end. -/
theorem mirrors_run {schema out : Value} {budget : Option ℕ} {s : Inliner}
    (hdistinct : schema.Distinct)
    (h : schemaAt maxDepth true schema ⟨rootOf schema, [], [], budget, 0⟩ = .ok (out, s)) :
    Mirrors (rootOf schema) budget s.spent (fun place => Refers (rootOf schema) place out)
      fun place => Left (rootOf schema) budget.isSome place [] true schema := by
  have hcopies : Copies (rootOf schema) budget s.spent [] true schema
      (schemaAt maxDepth true schema) :=
    copies_schemaAt (fun _ _ _ => lookup_distinct hdistinct) maxDepth true hdistinct
  obtain ⟨-, -, hcopied⟩ := hcopies ⟨rootOf schema, [], [], budget, 0⟩
    ⟨rfl, rfl, rfl, fun _ _ h => nomatch h⟩ out s h
  exact (hcopied le_rfl).mirrors

theorem inlineWith_eq_ok {budget : Option ℕ} {schema out : Value}
    (h : inlineWith budget schema = .ok out) :
    ∃ s, schemaAt maxDepth true schema ⟨rootOf schema, [], [], budget, 0⟩ = .ok (out, s) := by
  unfold inlineWith at h
  cases hrun : schemaAt maxDepth true schema ⟨schema.asMap.getD [], [], [], budget, 0⟩ with
  | error e =>
    rw [hrun] at h
    cases h
  | ok p =>
    rw [hrun] at h
    cases h
    exact ⟨p.2, hrun⟩

theorem refers_iff_left {schema out : Value} (hdistinct : schema.Distinct)
    (hbudget : WithinBudget schema) (h : inlineRefs schema = .ok out) (place : String × String) :
    Refers (rootOf schema) place out ↔ Left (rootOf schema) false place [] true schema := by
  rw [WithinBudget, h] at hbudget
  obtain ⟨s, hrun⟩ := inlineWith_eq_ok hbudget
  have hmirrors := mirrors_run hdistinct hrun
  constructor
  · intro href
    rcases hmirrors.forth place href with ⟨_, _, hnone, -⟩ | hleft
    · cases hnone
    · exact hleft
  · exact hmirrors.back rfl place

theorem left_or_exceeds {schema out : Value} (hdistinct : schema.Distinct)
    (hcost : OneCost (rootOf schema)) (h : inlineRefs schema = .ok out) {place : String × String}
    (href : Refers (rootOf schema) place out) :
    Left (rootOf schema) true place [] true schema ∨ Exceeds schema place := by
  obtain ⟨s, hrun⟩ := inlineWith_eq_ok h
  rcases (mirrors_run hdistinct hrun).forth place href with hover | hleft
  · obtain ⟨most, cost, hmost, ⟨reference, key, found, hfound, rfl⟩, hlt⟩ := hover
    cases hmost
    obtain ⟨reference', found', hfound'⟩ := found_of_refers href
    rw [hcost _ _ _ _ _ _ _ hfound hfound'] at hlt
    exact .inr ⟨out, s, reference', found', hrun, hfound', hlt⟩
  · exact .inl hleft

/-- A list of nodes, each with a type beside the next: the one definition refers to
itself. -/
private def nodesDocument : Value :=
  .map [("$defs", .map [("A", .map [("type", .string "string")]),
      ("Node", .map [("properties", .map [("of", .map [("$ref", .string "#/$defs/A")]),
        ("next", .map [("$ref", .string "#/$defs/Node")])])])]),
    ("properties", .map [("first", .map [("$ref", .string "#/$defs/Node")])])]

/-- A document that refers to its one definition twice, the second time under a keyword
beside the first. -/
private def besideDocument : Value :=
  .map [("$defs", .map [("A", .map [("type", .string "string")])]),
    ("$ref", .string "#/$defs/A"),
    ("properties", .map [("x", .map [("$ref", .string "#/$defs/A")])])]

theorem acyclic_of_not_names {schema : Value}
    (h : ∀ place place', ¬Names (rootOf schema) place place') : Acyclic schema := by
  intro place hcycle
  obtain ⟨place', hfirst, -⟩ := Relation.TransGen.head'_iff.mp hcycle
  exact h _ _ hfirst

theorem besideDocument_acyclic : Acyclic besideDocument := by
  apply acyclic_of_not_names
  rintro ⟨key, name⟩ place' ⟨hkey, under, found, hunder, hfound, hrefers⟩
  have htype : ¬Refers (rootOf besideDocument) place' (.map [("type", .string "string")]) := by
    rw [refers_map]
    rintro (⟨reference, found, href, -⟩ | ⟨key, v, hmem, hunder⟩)
    · cases href
    · rw [List.mem_singleton] at hmem
      cases hmem
      rw [refersUnder_plain (by decide) (fun _ => rfl)] at hunder
      exact not_refers rfl rfl hunder
  rcases hkey with rfl | rfl
  · cases hunder
    have hname : ("A" = name) := by
      by_contra hne
      simp [Value.get, Value.asMap, AssocList.get, hne] at hfound
    subst hname
    cases hfound
    exact htype hrefers
  · cases hunder

end Guatiao.Schema
