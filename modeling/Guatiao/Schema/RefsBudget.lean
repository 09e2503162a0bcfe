import Guatiao.Lib.Yields
import Guatiao.Schema.Refs

/-!
# Inlining is bounded

Every node of the copy is charged for, and a reference is followed only while what is
spent fits the budget. What may still be charged once nothing more is followed is the
rest of the definitions open, each open once, and of the document itself: so what is
spent never passes the budget by more than the document's own size, twice over.
-/

namespace Guatiao.Schema

open Lib

theorem nodesItems_le_sizeItems {items : List Value}
    (ih : ∀ v ∈ items, v.nodes ≤ size v) : Value.nodesItems items ≤ sizeItems items := by
  induction items with
  | nil => exact Nat.le_refl _
  | cons v rest ihrest =>
    have hv := ih v (List.mem_cons_self ..)
    have hrest := ihrest fun w hw => ih w (List.mem_cons_of_mem _ hw)
    simp only [Value.nodesItems, sizeItems]
    omega

variable {entries : List Entry} {v : Value}

theorem nodesEntries_le_sizeEntries (ih : ∀ k v, (k, v) ∈ entries → v.nodes ≤ size v) :
    Value.nodesEntries entries ≤ sizeEntries entries := by
  induction entries with
  | nil => exact Nat.le_refl _
  | cons p rest ihrest =>
    obtain ⟨k, v⟩ := p
    have hv := ih k v (List.mem_cons_self ..)
    have hrest := ihrest fun l w hw => ih l w (List.mem_cons_of_mem _ hw)
    simp only [Value.nodesEntries, sizeEntries]
    omega

theorem nodes_le_size (v : Value) : v.nodes ≤ size v := by
  induction v with
  | list items ih =>
    have := nodesItems_le_sizeItems ih
    simp only [Value.nodes, size]
    omega
  | map entries ih =>
    have := nodesEntries_le_sizeEntries ih
    simp only [Value.nodes, size]
    omega
  | _ =>
    simp only [Value.nodes, size]
    omega

theorem nodesEntries_set_le (key : String) (v : Value) (entries : List Entry) :
    Value.nodesEntries (AssocList.set key v entries) ≤ Value.nodesEntries entries + v.nodes := by
  induction entries with
  | nil => simp [AssocList.set, Value.nodesEntries]
  | cons p rest ih =>
    obtain ⟨k, w⟩ := p
    simp only [AssocList.set]
    split
    · simp only [Value.nodesEntries]
      omega
    · simp only [Value.nodesEntries]
      omega

/-- The cost of the entries whose keys are not among some names. -/
def sizeBut (names : List String) : List Entry → ℕ
  | [] => 0
  | (key, v) :: rest => (if key ∈ names then 0 else size v) + sizeBut names rest

theorem sizeBut_le (names : List String) (entries : List Entry) :
    sizeBut names entries ≤ sizeEntries entries := by
  induction entries with
  | nil => exact Nat.le_refl _
  | cons p rest ih =>
    obtain ⟨key, v⟩ := p
    simp only [sizeBut, sizeEntries]
    split <;> omega

theorem sizeBut_cons_le (name : String) (names : List String) (entries : List Entry) :
    sizeBut (name :: names) entries ≤ sizeBut names entries := by
  induction entries with
  | nil => exact Nat.le_refl _
  | cons p rest ih =>
    obtain ⟨key, v⟩ := p
    simp only [sizeBut, List.mem_cons]
    split
    · omega
    · next hne => rw [if_neg fun h => hne (.inr h)]; omega

theorem sizeBut_cons_get {name : String} {names : List String}
    (hnew : name ∉ names) (hget : AssocList.get name entries = some v) :
    sizeBut (name :: names) entries + size v ≤ sizeBut names entries := by
  induction entries with
  | nil => cases hget
  | cons p rest ih =>
    obtain ⟨key, w⟩ := p
    simp only [AssocList.get] at hget
    split at hget
    · next heq =>
      subst heq
      cases hget
      have := sizeBut_cons_le key names rest
      simp only [sizeBut, List.mem_cons, true_or, if_true, if_neg hnew]
      omega
    · next hne =>
      have := ih hget
      simp only [sizeBut, List.mem_cons, hne, false_or]
      omega

/-- The definitions under one spelling. -/
def definitionsUnder (root : List Entry) (key : String) : List Entry :=
  ((AssocList.get key root).bind Value.asMap).getD []

/-- The cost of the definitions that are not open. -/
def unopened (root : List Entry) (active : List String) : ℕ :=
  sizeBut active (definitionsUnder root Vocab.defs) +
    sizeBut active (definitionsUnder root Vocab.definitions)

theorem unopened_cons {s : Inliner} {map : List Entry} {name : String} {found : Value}
    (h : s.target map = some (name, found)) :
    unopened s.root (name :: s.active) + size found ≤ unopened s.root s.active := by
  obtain ⟨hnew, key, under, hkey, hunder, hfound⟩ := Inliner.target_eq_some h
  have hdefs := sizeBut_cons_le name s.active (definitionsUnder s.root Vocab.defs)
  have hdefinitions := sizeBut_cons_le name s.active (definitionsUnder s.root Vocab.definitions)
  have hget : AssocList.get name (definitionsUnder s.root key) = some found := by
    simpa [definitionsUnder, hunder, Value.asMap] using hfound
  have hless := sizeBut_cons_get hnew hget
  unfold unopened
  rcases hkey with rfl | rfl <;> omega

theorem size_under_le {key : String}
    (h : AssocList.get key entries = some v) : size v ≤ sizeEntries entries := by
  induction entries with
  | nil => cases h
  | cons p rest ih =>
    obtain ⟨k, w⟩ := p
    simp only [AssocList.get] at h
    simp only [sizeEntries]
    split at h
    · cases h
      omega
    · have := ih h
      omega

theorem size_two_le {k l : String} {w : Value} (hne : k ≠ l)
    (hk : AssocList.get k entries = some v) (hl : AssocList.get l entries = some w) :
    size v + size w ≤ sizeEntries entries := by
  induction entries with
  | nil => cases hk
  | cons p rest ih =>
    obtain ⟨key, u⟩ := p
    simp only [AssocList.get] at hk hl
    simp only [sizeEntries]
    split at hk
    · next hkey =>
      cases hk
      rw [if_neg fun h => hne (hkey.symm.trans h)] at hl
      have := size_under_le hl
      omega
    · split at hl
      · cases hl
        have := size_under_le hk
        omega
      · have := ih hk hl
        omega

theorem unopened_le (root : List Entry) (active : List String) :
    unopened root active ≤ sizeEntries root := by
  have hunder : ∀ key, sizeBut active (definitionsUnder root key) ≤
      ((AssocList.get key root).map size).getD 0 := by
    intro key
    unfold definitionsUnder
    cases hget : AssocList.get key root with
    | none => exact Nat.le_refl _
    | some v =>
      cases v with
      | map entries =>
        have := sizeBut_le active entries
        simp only [Option.bind_some, Value.asMap, Option.getD_some, Option.map_some, size]
        omega
      | _ => simp [Value.asMap, sizeBut]
  have hdefs := hunder Vocab.defs
  have hdefinitions := hunder Vocab.definitions
  unfold unopened
  cases hd : AssocList.get Vocab.defs root with
  | none =>
    cases hd' : AssocList.get Vocab.definitions root with
    | none => simp_all
    | some w =>
      have := size_under_le hd'
      simp only [hd, hd', Option.map_none, Option.getD_none, Option.map_some,
        Option.getD_some] at hdefs hdefinitions
      omega
  | some v =>
    cases hd' : AssocList.get Vocab.definitions root with
    | none =>
      have := size_under_le hd
      simp only [hd, hd', Option.map_none, Option.getD_none, Option.map_some,
        Option.getD_some] at hdefs hdefinitions
      omega
    | some w =>
      have := size_two_le (by decide) hd hd'
      simp only [hd, hd', Option.map_some, Option.getD_some] at hdefs hdefinitions
      omega

namespace Inline

variable {α β : Type} {root : List Entry} {budget : ℕ} {active : List String}

/-- The states of one walk while some definitions are open. -/
structure At (root : List Entry) (budget : ℕ) (active : List String) (s : Inliner) : Prop where
  root_eq : s.root = root
  budget_eq : s.budget = some budget
  active_eq : s.active = active

/-- A step leaves the open definitions as they are, charges for every node it adds to the
`base` it was given, and spends at most `cost` more than was spent, or than the budget
and what is not open come to. -/
def Spends (root : List Entry) (budget : ℕ) (active : List String) (cost base : ℕ)
    (gain : α → ℕ) (x : Inline α) : Prop :=
  ∀ s, At root budget active s → Yields x s fun a s' =>
    At root budget active s' ∧ s.spent + gain a ≤ s'.spent + base ∧
      s'.spent ≤ max s.spent (budget + unopened root active) + cost

variable {base n : ℕ} {x : Inline α}

theorem spends_pure (a : α) (gain : α → ℕ) (h : gain a ≤ base) :
    Spends root budget active 0 base gain (return a) := by
  intro s hs
  rw [yields_pure]
  exact ⟨hs, by omega, by omega⟩

theorem Spends.bind {f : α → Inline β} {m : ℕ} {mid : α → ℕ}
    {gain : β → ℕ} (hx : Spends root budget active m base mid x)
    (hf : ∀ a, Spends root budget active n (mid a) gain (f a)) :
    Spends root budget active (m + n) base gain (x >>= f) := by
  intro s hs
  rw [yields_bind]
  refine (hx s hs).mono fun a s' ⟨hs', hgain, hcost⟩ => ?_
  refine (hf a s' hs').mono fun b s'' ⟨hs'', hgain', hcost'⟩ => ⟨hs'', by omega, by omega⟩

theorem Spends.weaken {m base' : ℕ} {gain gain' : α → ℕ}
    (hx : Spends root budget active m base gain x) (hcost : m ≤ n)
    (hgain : ∀ a, gain' a + base ≤ gain a + base') :
    Spends root budget active n base' gain' x := by
  intro s hs
  refine (hx s hs).mono fun a s' ⟨hs', hspent, hmax⟩ => ⟨hs', ?_, by omega⟩
  have := hgain a
  omega

theorem Spends.above {gain : α → ℕ} (k : ℕ) (hx : Spends root budget active n base gain x) :
    Spends root budget active n (k + base) (fun a => k + gain a) x :=
  hx.weaken (Nat.le_refl _) fun a => by omega

theorem spends_charge {units mid : ℕ} (h : mid ≤ base + units) :
    Spends root budget active units base (fun _ => mid) (charge units) := by
  intro s hs
  rw [charge, yields_modify]
  exact ⟨⟨hs.root_eq, hs.budget_eq, hs.active_eq⟩, by dsimp only; omega, by dsimp only; omega⟩

theorem spends_data (v : Value) :
    Spends root budget active (size v) 0 Value.nodes (data v) := by
  have hcharge : Spends root budget active (size v) 0 (fun _ => size v) (charge (size v)) :=
    spends_charge (by omega)
  exact hcharge.bind (f := fun _ => return v) fun _ => spends_pure _ _ (nodes_le_size v)

/-- A way of walking a schema that spends what the schema costs. -/
def Walks (root : List Entry) (budget : ℕ) (active : List String)
    (walk : Value → Inline Value) : Prop :=
  ∀ v, Spends root budget active (size v) 0 Value.nodes (walk v)

theorem spends_items {walk : Value → Inline Value} (hwalk : Walks root budget active walk)
    (list : List Value) :
    Spends root budget active (sizeItems list) 0 Value.nodesItems (items walk list) := by
  induction list with
  | nil => exact spends_pure _ _ (Nat.le_refl _)
  | cons v rest ih =>
    refine (hwalk v).bind fun child => ?_
    refine (ih.above child.nodes).bind (n := 0) fun children => ?_
    exact spends_pure _ _ (Nat.le_refl _)

theorem spends_store {f : List Entry → Inline (List Entry)}
    (hf : ∀ out, Spends root budget active n (Value.nodesEntries out) Value.nodesEntries (f out))
    (key : String) (out : List Entry) (child : Value) :
    Spends root budget active n (Value.nodesEntries out + child.nodes) Value.nodesEntries
      (f (AssocList.set key child out)) := by
  refine (hf _).weaken (Nat.le_refl _) fun out' => ?_
  have := nodesEntries_set_le key child out
  omega

theorem spends_child {x : Inline Value}
    (hx : Spends root budget active n 0 Value.nodes x) (base : ℕ) :
    Spends root budget active n base (fun child => base + child.nodes) x :=
  hx.weaken (Nat.le_refl _) fun child => by omega

theorem spends_named {walk : Value → Inline Value}
    (hwalk : Walks root budget active walk) (names out : List Entry) :
    Spends root budget active (sizeEntries names) (Value.nodesEntries out) Value.nodesEntries
      (named walk names out) := by
  induction names generalizing out with
  | nil => exact spends_pure _ _ (Nat.le_refl _)
  | cons p rest ih =>
    obtain ⟨key, v⟩ := p
    have hcharge : Spends root budget active (asBytes key).length (Value.nodesEntries out)
        (fun _ => Value.nodesEntries out) (charge (asBytes key).length) :=
      spends_charge (by omega)
    have h := hcharge.bind fun _ => (spends_child (hwalk v) _).bind fun child =>
      spends_store (fun out => ih out) key out child
    exact h.weaken (by simp only [sizeEntries]; omega) fun _ => Nat.le_refl _

theorem spends_entry {deeper : Option ((Value → Inline Value) × (Value → Inline Value))}
    (hdeeper : ∀ p ∈ deeper, Walks root budget active p.1 ∧ Walks root budget active p.2)
    (key : String) (v : Value) :
    Spends root budget active (size v) 0 Value.nodes (entry deeper key v) := by
  unfold entry
  split
  · exact spends_data v
  · cases deeper with
    | none =>
      intro s _
      exact yields_throw
    | some p =>
      obtain ⟨one, two⟩ := p
      obtain ⟨hone, htwo⟩ := hdeeper _ rfl
      dsimp only
      split
      · next names =>
        split
        · have hcharge : Spends root budget active 1 0 (fun _ => 1) (charge 1) := spends_charge (by omega)
          have hnamed := (spends_named htwo names []).above 1
          have h := hcharge.bind fun _ => hnamed.bind (n := 0) fun out =>
            spends_pure (.map out) Value.nodes (Nat.le_refl _)
          exact h.weaken (by simp only [size]; omega) fun _ => Nat.le_refl _
        · exact hone _
      · next list =>
        have hcharge : Spends root budget active 1 0 (fun _ => 1) (charge 1) := spends_charge (by omega)
        have hitems := (spends_items htwo list).above 1
        have h := hcharge.bind fun _ => hitems.bind (n := 0) fun out =>
          spends_pure (.list out) Value.nodes (Nat.le_refl _)
        exact h.weaken (by simp only [size]; omega) fun _ => Nat.le_refl _
      · exact hone _

section Expand

variable {entry : String → Value → Inline Value}
  (hentry : ∀ key v, Spends root budget active (size v) 0 Value.nodes (entry key v))
include hentry

theorem spends_objectEntries (isRoot : Bool) (map out : List Entry) :
    Spends root budget active (sizeEntries map) (Value.nodesEntries out) Value.nodesEntries
      (objectEntries entry isRoot map out) := by
  induction map generalizing out with
  | nil => exact spends_pure _ _ (Nat.le_refl _)
  | cons p rest ih =>
    obtain ⟨key, v⟩ := p
    unfold objectEntries
    split
    · exact (ih out).weaken (by simp only [sizeEntries]; omega) fun _ => Nat.le_refl _
    · have hcharge : Spends root budget active (asBytes key).length (Value.nodesEntries out)
          (fun _ => Value.nodesEntries out) (charge (asBytes key).length) :=
        spends_charge (by omega)
      have h := hcharge.bind fun _ => (spends_child (hentry key v) _).bind fun child =>
        spends_store (fun out => ih out) key out child
      exact h.weaken (by simp only [sizeEntries]; omega) fun _ => Nat.le_refl _

theorem spends_beside (isRoot : Bool) (map out : List Entry) :
    Spends root budget active (sizeEntries map) (Value.nodesEntries out) Value.nodesEntries
      (beside entry isRoot map out) := by
  induction map generalizing out with
  | nil => exact spends_pure _ _ (Nat.le_refl _)
  | cons p rest ih =>
    obtain ⟨key, v⟩ := p
    unfold beside
    split
    · exact (ih out).weaken (by simp only [sizeEntries]; omega) fun _ => Nat.le_refl _
    · have h := (spends_child (hentry key v) (Value.nodesEntries out)).bind fun child =>
        spends_store (fun out => ih out) key out child
      exact h.weaken (by simp only [sizeEntries]; omega) fun _ => Nat.le_refl _

theorem spends_lay (isRoot : Bool) (referrers : List (List Entry)) (out : List Entry) :
    Spends root budget active (referrers.map sizeEntries).sum (Value.nodesEntries out)
      Value.nodesEntries (lay entry isRoot referrers out) := by
  induction referrers generalizing isRoot with
  | nil => exact spends_pure _ _ (Nat.le_refl _)
  | cons referrer inner ih =>
    have h := (ih false).bind fun out => spends_beside hentry isRoot referrer out
    refine h.weaken ?_ fun _ => Nat.le_refl _
    simp only [List.map_cons, List.sum_cons]
    omega

theorem spends_expand (current : Value) (referrers : List (List Entry)) (isRoot : Bool) :
    Spends root budget active (size current + (referrers.map sizeEntries).sum) 0 Value.nodes
      (expand entry current referrers isRoot) := by
  unfold expand
  split
  · next map =>
    have hcharge : Spends root budget active 1 0 (fun _ => 1) (charge 1) := spends_charge (by omega)
    have hobject := (spends_objectEntries hentry (isRoot && referrers.isEmpty) map []).above 1
    have hlay := fun out => (spends_lay hentry isRoot referrers out).above 1
    have h := (hcharge.bind fun _ => hobject).bind fun out => (hlay out).bind (n := 0) fun out =>
      spends_pure (.map out) Value.nodes (Nat.le_refl _)
    exact h.weaken (by simp only [size]; omega) fun _ => Nat.le_refl _
  · exact (spends_data current).weaken (by omega) fun _ => Nat.le_refl _

end Expand

/-- Where a chain of references from `v` has come: what it opened is opened, each once,
it was affordable if anything was, and what it came through is paid for by what is no
longer unopened. -/
structure Chased (root : List Entry) (budget : ℕ) (active : List String) (v : Value) (spent : ℕ)
    (c : Chase) : Prop where
  at_ : At root budget (c.followed.reverse ++ active) c.inliner
  spent_eq : c.inliner.spent = spent
  new : ∀ name ∈ c.followed, name ∉ active
  affordable : c.followed = [] ∨ spent ≤ budget
  paid : unopened root (c.followed.reverse ++ active) + size c.current +
    (c.referrers.map sizeEntries).sum ≤ unopened root active + size v

theorem chased_turn {v : Value} {spent : ℕ} {c c' : Chase}
    (h : Chased root budget active v spent c) (hturn : c.turn = .inr c') :
    Chased root budget active v spent c' := by
  unfold Chase.turn at hturn
  split at hturn
  · next map hcurrent =>
    split at hturn
    · cases hturn
    · next name target htarget =>
      split at hturn
      · cases hturn
      · next inliner hafford =>
        cases hturn
        obtain ⟨⟨hroot, hbudget, hactive⟩, hspent, hnew, -, hpaid⟩ := h
        have hopen := unopened_cons htarget
        have hname := (Inliner.target_eq_some htarget).1
        have hinliner : inliner = (c.inliner.affords name target).2 := by rw [hafford]
        have hfits : (c.inliner.affords name target).1 = true := by rw [hafford]
        simp only [Inliner.affords, hbudget, Option.map_some, Option.getD_some,
          decide_eq_true_eq, hspent] at hfits
        subst hinliner
        rw [hroot, hactive] at hopen
        rw [hactive, List.mem_append, List.mem_reverse, not_or] at hname
        refine ⟨⟨hroot, hbudget, ?_⟩, hspent, ?_, .inr (by omega), ?_⟩
        · simp [Inliner.affords, hactive]
        · intro n hn
          rcases List.mem_append.mp hn with hn | hn
          · exact hnew n hn
          · rw [List.mem_singleton.mp hn]
            exact hname.2
        · rw [hcurrent, size] at hpaid
          simp only [List.reverse_append, List.reverse_cons, List.reverse_nil, List.nil_append,
            List.cons_append, List.map_append, List.map_cons, List.map_nil,
            List.sum_append, List.sum_cons, List.sum_nil]
          omega
  · cases hturn

theorem chased_run {v : Value} {s : Inliner} (hs : At root budget active s) :
    Chased root budget active v s.spent (chaseLoop.run ⟨s, v, [], []⟩) := by
  refine chaseLoop.run_invariant (I := Chased root budget active v s.spent) (Q := _)
    (fun c c' h hturn => chased_turn h hturn) ?_ ?_
  · intro c c' h hstop
    have hstop : c.turn = .inl c' := hstop
    unfold Chase.turn at hstop
    split at hstop
    · split at hstop
      · cases hstop
        exact h
      · split at hstop
        · next inliner hafford =>
          cases hstop
          obtain ⟨⟨hroot, hbudget, hactive⟩, hspent, hnew, hafforded, hpaid⟩ := h
          have hinliner := congrArg Prod.snd hafford
          subst hinliner
          exact ⟨⟨hroot, hbudget, hactive⟩, hspent, hnew, hafforded, hpaid⟩
        · cases hstop
    · cases hstop
      exact h
  · exact ⟨⟨hs.root_eq, hs.budget_eq, by simpa using hs.active_eq⟩, rfl, by simp, .inl rfl,
      by simp⟩

theorem spends_visit {entry : String → Value → Inline Value}
    (hentry : ∀ active key v, Spends root budget active (size v) 0 Value.nodes (entry key v))
    (active : List String) (isRoot : Bool) (v : Value) :
    Spends root budget active (size v) 0 Value.nodes (visit entry isRoot v) := by
  intro s hs
  simp only [visit, yields_bind, yields_get, yields_set, yields_modify, yields_pure]
  obtain ⟨hat, hspent, hnew, hafforded, hpaid⟩ := chased_run (v := v) hs
  generalize chaseLoop.run ⟨s, v, [], []⟩ = c at hat hspent hnew hafforded hpaid
  have hexpand := spends_expand (hentry _) c.current c.referrers isRoot c.inliner hat
  refine hexpand.mono fun out s' hpost => ?_
  obtain ⟨hs', hgain, hcost⟩ := hpost
  refine ⟨⟨hs'.root_eq, hs'.budget_eq, ?_⟩, ?_, ?_⟩
  · dsimp only
    rw [hs'.active_eq, filter_followed hnew]
  · omega
  · rw [hspent] at hcost
    rcases hafforded with hnone | hfits
    · rw [hnone] at hcost hpaid
      simp only [List.reverse_nil, List.nil_append] at hcost hpaid
      omega
    · omega

end Inline

theorem spends_schemaAt {root : List Entry} {budget : ℕ} (levels : ℕ) (isRoot : Bool)
    (active : List String) :
    ∀ v, Inline.Spends root budget active (size v) 0 Value.nodes (schemaAt levels isRoot v) := by
  induction levels using Nat.strong_induction_on generalizing isRoot active with
  | _ levels ih =>
    match levels with
    | 0 =>
      intro v s _
      exact yields_throw
    | 1 =>
      exact Inline.spends_visit (fun active key v => Inline.spends_entry (by simp) key v) active
        isRoot
    | levels + 2 =>
      refine Inline.spends_visit (fun active key v => Inline.spends_entry ?_ key v) active isRoot
      rintro p ⟨⟩
      exact ⟨ih (levels + 1) (by omega) false active, ih levels (by omega) false active⟩

/-- Inlining is bounded: the copy has at most as many nodes as the budget and twice the
document's own size. -/
theorem inlineRefs_nodes_le {schema out : Value} (h : inlineRefs schema = .ok out) :
    out.nodes ≤ budgetFactor * size schema + budgetFloor + 2 * size schema := by
  unfold inlineRefs inlineWith at h
  cases hrun : schemaAt maxDepth true schema
      ⟨schema.asMap.getD [], [], [], some (budgetOf schema), 0⟩ with
  | error e =>
    rw [hrun] at h
    cases h
  | ok p =>
    obtain ⟨v, s⟩ := p
    rw [hrun] at h
    cases h
    obtain ⟨-, hgain, hcost⟩ := spends_schemaAt maxDepth true [] schema
      ⟨schema.asMap.getD [], [], [], some (budgetOf schema), 0⟩ ⟨rfl, rfl, rfl⟩ _ _ hrun
    have hdefinitions : unopened (schema.asMap.getD []) [] ≤ size schema := by
      have := unopened_le (schema.asMap.getD []) []
      cases schema with
      | map entries =>
        simp only [Value.asMap, Option.getD_some, size] at this ⊢
        omega
      | _ => exact this.trans (Nat.zero_le _)
    dsimp only at hgain hcost ⊢
    rw [budgetOf, Nat.mul_comm] at hcost
    omega

/-- A document with one reference keeps within its bound. -/
theorem inlineRefs_nodes_le_sample :
    (inlineRefs (.map [("$ref", .string "#/$defs/A"), ("$defs", .map [("A", .null)])])).isOk =
        true ∧
      Value.null.nodes ≤ budgetFactor * 23 + budgetFloor + 2 * 23 := by
  refine ⟨by decide +kernel, ?_⟩
  have hsize : size (.map [("$ref", .string "#/$defs/A"), ("$defs", .map [("A", .null)])]) = 23 := by
    decide +kernel
  rw [← hsize]
  exact inlineRefs_nodes_le (by decide +kernel)

end Guatiao.Schema
