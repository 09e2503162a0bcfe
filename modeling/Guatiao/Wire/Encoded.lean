import Guatiao.Visit.Walk
import Guatiao.Wire.Skip

/-!
# Bytes that walk themselves

Wire bytes walk into a visitor as they are read, with no tree built. A node reads from where it
starts each time it is walked; where it ends is kept for its container, which passes over a node no
walk of which got there. Bytes that are a value walk as the value does, for every visitor. Any other
bytes are refused, and for what the tree decoder refuses them for unless the visitor refuses
something itself or they hold two faults at once.
-/

namespace Guatiao.Wire

open Lib Visit

/-- Where a refusal points; the refusal of a type read into points nowhere. -/
def WireError.offset : WireError → ℕ
  | .truncated o | .unknownTag o _ | .overlong o | .notUtf8 o | .notANumber o | .notABool o _
  | .duplicateKey o | .trailing o | .tooDeep o => o
  | .refused _ => 0

/-- A wire refusal as a writing error, at its offset. -/
def unparsed : WireError → ValueError
  | .truncated o => .unparsed o "a node that is not cut short"
  | .unknownTag o _ => .unparsed o "a tag this build knows"
  | .overlong o => .unparsed o "a length in its shortest LEB128 form"
  | .notUtf8 o => .unparsed o "text that is UTF-8"
  | .notANumber o => .unparsed o "a number in the JSON number grammar"
  | .notABool o _ => .unparsed o "a bool byte of 0 or 1"
  | .duplicateKey o => .unparsed o "a key not repeated in its map"
  | .trailing o => .unparsed o "the end of the bytes"
  | .tooDeep _ => .tooDeep
  | .refused _ => .unparsed 0 "the wire encoding"

theorem unparsed_offset {e : WireError} {o : ℕ} (h : e.NotBefore o) :
    ∃ expected, unparsed e = .unparsed e.offset expected := by
  cases e <;> first | exact h.elim | exact ⟨_, rfl⟩

namespace Encoded

variable {S E : Type}

/-- What the walks of a node share besides the visitor: the keys of the maps open, and where the
node ends once a walk of it got there. -/
abbrev Shared := OpenKeys × Option Reader

/-- How the node at a reader walks. -/
abbrev NodeWalk (S E : Type) := Reader → S × Shared → Walked (S × Shared) E

/-- Where the elements of a container end, or why one was refused, and the visitor and the keys
after. -/
abbrev Looked (S E : Type) := Except E Reader × S × OpenKeys

variable (V : Visitor S E) (draw : ℕ → Seeded)

/-- Where a child ends: where its walk stopped, or, when none got there, past it. The decoder that
passes over it draws seeds of its own. -/
def after (child : Reader) : Option Reader → Except ValueError Reader
  | some «end» => .ok «end»
  | none =>
    let (skipped, d) := Decoder.skip { Decoder.new (draw child.offset) [] with reader := child }
    match skipped with
    | .ok () => .ok d.reader
    | .error _ => .error (d.failure.elim .wrongKind unparsed)

/-- The child at a reader as the visitor has it walk, and where the next element starts. -/
def child (walk : NodeWalk S E) (r : Reader) (s : S) (keys : OpenKeys) : Looked S E :=
  match (V.beside Shared).element (walk r) 2 [] (s, keys, none) with
  | (some e, s, keys, _) => (.error e, s, keys)
  | (none, s, keys, «end») => ((after draw r «end»).mapError V.from, s, keys)

/-- A list's items in turn. -/
def items (walk : NodeWalk S E) : ℕ → Reader → S → OpenKeys → Looked S E
  | 0, r, s, keys => (.ok r, s, keys)
  | left + 1, r, s, keys =>
    match child V draw walk r s keys with
    | (.error e, s, keys) => (.error e, s, keys)
    | (.ok r, s, keys) => items walk left r s keys

/-- A map's entries in turn, a key checked as soon as it is read. -/
def entries (walk : NodeWalk S E) (start : ℕ) : ℕ → Reader → S → OpenKeys → Looked S E
  | 0, r, s, keys => (.ok r, s, keys)
  | left + 1, r, s, keys =>
    match r.text with
    | .error e => (.error (V.from (unparsed e)), s, keys)
    | .ok (key, r') =>
      match keys.insert start key left with
      | (false, keys) => (.error (V.from (unparsed (.duplicateKey r.offset))), s, keys)
      | (true, keys) =>
        match V.on s (.key key) with
        | (some e, s) => (.error e, s, keys)
        | (none, s) =>
          match child V draw walk r' s keys with
          | (.error e, s, keys) => (.error e, s, keys)
          | (.ok r, s, keys) => entries walk start left r s keys

/-- The last event of a node, which ends at a reader whatever the visitor answers. -/
def last (event : Event) (r : Reader) (s : S) (keys : OpenKeys) : Walked (S × Shared) E :=
  let (e, s) := V.on s event
  (e, s, keys, some r)

/-- The node at a reader walks, given how the elements of a container do; none where a container may
not open. -/
def head (inside : Option (NodeWalk S E)) : NodeWalk S E
  | r, (s, keys, «end») =>
    match r.token with
    | .error e => (some (V.from (unparsed e)), s, keys, «end»)
    | .ok (.absent, r') => last V .absent r' s keys
    | .ok (.null, r') => last V .null r' s keys
    | .ok (.bool b, r') => last V (.bool b) r' s keys
    | .ok (.number n, r') => last V (.number n.text) r' s keys
    | .ok (.string text, r') => last V (.string text) r' s keys
    | .ok (.bytes data, r') => last V (.bytes data) r' s keys
    | .ok (.list count, r') =>
      match inside with
      | none => (some (V.from (unparsed (.tooDeep r.offset))), s, keys, «end»)
      | some walk =>
        match V.on s (.listBegin (some count)) with
        | (some e, s) => (some e, s, keys, «end»)
        | (none, s) =>
          match items V draw walk count r' s keys with
          | (.error e, s, keys) => (some e, s, keys, «end»)
          | (.ok r', s, keys) => last V .listEnd r' s keys
    | .ok (.map count, r') =>
      match inside with
      | none => (some (V.from (unparsed (.tooDeep r.offset))), s, keys, «end»)
      | some walk =>
        let start := keys.list.length
        match V.on s (.mapBegin (some count)) with
        | (some e, s) => (some e, s, keys, «end»)
        | (none, s) =>
          match entries V draw walk start count r' s keys with
          | (.error e, s, keys) => (some e, s, keys.truncate start, «end»)
          | (.ok r', s, keys) => last V .mapEnd r' s (keys.truncate start)

/-- The node at a reader walks, with room for so many more containers. -/
def node : ℕ → NodeWalk S E
  | 0 => head V draw none
  | room + 1 => head V draw (some (node room))

/-- Bytes walk: the one node they hold, and nothing behind it. -/
def walk (seeds : Seeded) (bytes : List UInt8) (s : S) : Walked S E :=
  match node V draw maxDepth (.start bytes 0) (s, ⟨[], [], seeds⟩, none) with
  | (some e, s, _) => (some e, s)
  | (none, s, _, «end») =>
    match after draw (.start bytes 0) «end» with
    | .error e => (some (V.from e), s)
    | .ok r => if r.rest ≠ [] then (some (V.from (unparsed (.trailing r.offset))), s) else (none, s)

theorem new_sound (seeds : Seeded) : (⟨[], [], seeds⟩ : OpenKeys).Sound := by
  intro p hp
  cases hp

variable {v : Value} {r r' : Reader} {room : ℕ}

theorem after_whole {«end» : Option Reader} (hwell : v.WellFormed)
    (htakes : r.Takes (wire v) r') (hend : «end» = none ∨ «end» = some r') :
    after draw r «end» = .ok r' := by
  rcases hend with rfl | rfl
  · have hfuel : r.rest.length < r.rest.length + 1 := Nat.lt_succ_self _
    have hread := (readStreamed_exact _ r v r' hfuel).mpr ⟨hwell, htakes⟩
    have hskip := Decoder.skip_eq (d := { Decoder.new (draw r.offset) [] with reader := r })
      (new_sound _) rfl hfuel
    simp only [hread] at hskip
    simp only [after, hskip]
  · rfl

theorem after_refused {fuel : ℕ} {e : WireError} (hfuel : r.rest.length < fuel)
    (hread : readStreamed fuel r = .error e) : after draw r none = .error (unparsed e) := by
  have hskip := Decoder.skip_eq (d := { Decoder.new (draw r.offset) [] with reader := r })
    (new_sound _) rfl hfuel
  simp only [hread] at hskip
  obtain ⟨hstop, hfailure⟩ := hskip
  simp only [after]
  split
  · next h =>
    rw [h] at hstop
    cases hstop
  · simp [hfailure]

/-- What the elements of a container come to when they end at a reader and the visitor walked them
so. -/
def landed (walked : Walked S E) (r : Reader) (keys : OpenKeys) : Looked S E :=
  match walked with
  | (some e, s) => (.error e, s, keys)
  | (none, s) => (.ok r, s, keys)

/-- A walk of the node at a reader is a walk of the value there: it leaves the keys as they were, and
gets to the value's end or was refused before. -/
def WalksAs (walk : NodeWalk S E) (depth : ℕ) (r : Reader) (v : Value) (r' : Reader) : Prop :=
  ∀ s (keys : OpenKeys) «end», keys.Sound → ∃ end',
    walk r (s, keys, «end») = ((V.walk depth v s).1, (V.walk depth v s).2, keys, end') ∧
      (end' = «end» ∨ end' = some r')

section Whole

variable {V draw} {walk : NodeWalk S E} {depth : ℕ}

variable {r r' : Reader} {keys : OpenKeys}

theorem element_whole {v : Value} (hwalks : WalksAs V walk depth r v r')
    (hkeys : keys.Sound) (left : ℕ) (outcomes : List (Option E)) (s : S) («end» : Option Reader) :
    ∃ end', (V.beside Shared).element (walk r) left outcomes (s, keys, «end») =
        ((V.element (V.walk depth v) left outcomes s).1,
          (V.element (V.walk depth v) left outcomes s).2, keys, end') ∧
      (end' = «end» ∨ end' = some r') := by
  induction left generalizing outcomes s «end» with
  | zero => exact ⟨«end», rfl, .inl rfl⟩
  | succ left ih =>
    simp only [Visitor.element, Visitor.beside]
    cases hwant : V.walks s outcomes with
    | none => exact ⟨«end», rfl, .inl rfl⟩
    | some s' =>
      obtain ⟨mid, hwalk, hmid⟩ := hwalks s' keys «end» hkeys
      obtain ⟨end', helement, hend⟩ :=
        ih (outcomes ++ [(V.walk depth v s').1]) (V.walk depth v s').2 mid
      simp only [Option.map_some, hwalk]
      refine ⟨end', helement, ?_⟩
      rcases hend with rfl | hend
      · exact hmid
      · exact .inr hend

theorem child_whole {v : Value} (hwalks : WalksAs V walk depth r v r')
    (hwell : v.WellFormed) (htakes : r.Takes (wire v) r') (hkeys : keys.Sound) (s : S) :
    child V draw walk r s keys = landed (V.element (V.walk depth v) 2 [] s) r' keys := by
  obtain ⟨end', helement, hend⟩ := element_whole hwalks hkeys 2 [] s none
  simp only [child, helement, landed]
  rcases V.element (V.walk depth v) 2 [] s with ⟨_ | e, s'⟩
  · simp only [after_whole draw hwell htakes hend, Except.mapError]
  · rfl

theorem items_whole {vs : List Value} (hitems : WholeItems r vs r')
    (hwalks : ∀ v r r', v.WellFormed → r.Takes (wire v) r' → WalksAs V walk depth r v r')
    (hkeys : keys.Sound) (s : S) :
    items V draw walk vs.length r s keys = landed (V.walkItems depth vs s) r' keys := by
  induction vs generalizing r s with
  | nil =>
    have heq := (Reader.Takes.refl r).unique hitems.2
    subst heq
    rfl
  | cons v rest ih =>
    obtain ⟨hall, htakes⟩ := hitems
    obtain ⟨u, hv, hrest⟩ := htakes.split
    have hwell := hall v (List.mem_cons_self ..)
    simp only [List.length_cons, items, Visitor.walkItems]
    rw [child_whole (hwalks v r u hwell hv) hwell hv hkeys]
    rcases V.element (V.walk depth v) 2 [] s with ⟨_ | e, s'⟩
    · exact ih ⟨fun w hw => hall w (List.mem_cons_of_mem _ hw), hrest⟩ s'
    · rfl

theorem entries_whole {es : List Entry} {inner : OpenKeys}
    (held : List String) (hnodup : (held ++ AssocList.keys es).Nodup)
    (hall : ∀ k v, (k, v) ∈ es → (asBytes k).length < 2 ^ 64 ∧ v.WellFormed)
    (htakes : r.Takes (wireEntries es) r')
    (hwalks : ∀ v r r', v.WellFormed → r.Takes (wire v) r' → WalksAs V walk depth r v r')
    (hkeys : keys.Sound) (hwithin : keys.Within held inner) (s : S) :
    ∃ inner', inner'.truncate keys.list.length = keys ∧
      entries V draw walk keys.list.length es.length r s inner =
        landed (V.walkEntries depth es s) r' inner' := by
  induction es generalizing r s held inner with
  | nil =>
    have heq := (Reader.Takes.refl r).unique htakes
    subst heq
    exact ⟨inner, hwithin.truncate hkeys, rfl⟩
  | cons p rest ih =>
    obtain ⟨key, v⟩ := p
    obtain ⟨u', hpair, hrest⟩ := htakes.split
    obtain ⟨u, hkey, hv⟩ := hpair.split
    obtain ⟨hlength, hwell⟩ := hall key v (List.mem_cons_self ..)
    have htext := Reader.text_eq_ok.mpr ⟨hlength, hkey⟩
    have hnew : key ∉ held := by
      intro hmem
      exact (List.nodup_append.mp hnodup).2.2 key hmem key (by simp) rfl
    obtain ⟨inner', hinsert, hwithin'⟩ := hwithin.insert hkeys key rest.length
    rw [decide_eq_false hnew] at hinsert
    rw [if_neg hnew] at hwithin'
    simp only [List.length_cons, entries, htext, hinsert, Bool.not_false, Visitor.walkEntries]
    rcases V.on s (.key key) with ⟨_ | e, s'⟩
    · simp only [Walked.andThen]
      rw [child_whole (hwalks v u u' hwell hv) hwell hv (hwithin'.sound hkeys)]
      rcases V.element (V.walk depth v) 2 [] s' with ⟨_ | e, s''⟩
      · exact ih _ (by simpa using hnodup) (fun k w hw => hall k w (List.mem_cons_of_mem _ hw))
          hrest hwithin' s''
      · exact ⟨inner', hwithin'.truncate hkeys, rfl⟩
    · exact ⟨inner', hwithin'.truncate hkeys, rfl⟩

end Whole

theorem token_of_takes (hwell : v.WellFormed) (htakes : r.Takes (wire v) r') :
    ∃ u, r.token = .ok (headOf v, u) ∧ u.Takes (bodyOf v) r' := by
  rw [wire_eq] at htakes
  obtain ⟨u, hhead, hbody⟩ := htakes.split
  exact ⟨u, Reader.token_eq_ok.mpr ⟨headOf_fits hwell hbody.length, hhead⟩, hbody⟩

/-- Where a value is, the node walks as the value. -/
theorem node_whole (hroom : room ≤ maxDepth) (hwell : v.WellFormed) (htakes : r.Takes (wire v) r') :
    WalksAs V (node V draw room) (maxDepth - room) r v r' := by
  induction room generalizing v r r' with
  | zero =>
    intro s keys «end» hkeys
    obtain ⟨u, htoken, hbody⟩ := token_of_takes hwell htakes
    cases v
    case list vs =>
      simp only [headOf] at htoken
      simp only [node, head, htoken, Visitor.walk, Nat.sub_zero, Nat.le_refl, if_true]
      exact ⟨«end», rfl, .inl rfl⟩
    case map es =>
      simp only [headOf] at htoken
      simp only [node, head, htoken, Visitor.walk, Nat.sub_zero, Nat.le_refl, if_true]
      exact ⟨«end», rfl, .inl rfl⟩
    all_goals
      have heq := (Reader.Takes.refl u).unique hbody
      subst heq
      simp only [headOf] at htoken
      simp only [node, head, htoken, Visitor.walk, last]
      exact ⟨some u, rfl, .inr rfl⟩
  | succ room ih =>
    intro s keys «end» hkeys
    obtain ⟨u, htoken, hbody⟩ := token_of_takes hwell htakes
    have hdepth : maxDepth - (room + 1) + 1 = maxDepth - room := by omega
    have hshallow : ¬maxDepth ≤ maxDepth - (room + 1) := by omega
    have hwalks : ∀ v r r', v.WellFormed → r.Takes (wire v) r' →
        WalksAs V (node V draw room) (maxDepth - room) r v r' :=
      fun v r r' hwell htakes => ih (by omega) hwell htakes
    cases v
    case list vs =>
      have hall := (wellFormed_list.mp hwell).2
      simp only [headOf] at htoken
      simp only [node, head, htoken, Visitor.walk, if_neg hshallow, hdepth]
      rcases V.on s (.listBegin (some vs.length)) with ⟨_ | e, s'⟩
      · simp only [Walked.andThen]
        rw [items_whole ⟨hall, hbody⟩ hwalks hkeys]
        rcases V.walkItems (maxDepth - room) vs s' with ⟨_ | e, s''⟩
        · exact ⟨some r', rfl, .inr rfl⟩
        · exact ⟨«end», rfl, .inl rfl⟩
      · exact ⟨«end», rfl, .inl rfl⟩
    case map es =>
      obtain ⟨-, hnodup, hall⟩ := wellFormed_map.mp hwell
      simp only [headOf] at htoken
      simp only [node, head, htoken, Visitor.walk, if_neg hshallow, hdepth]
      rcases V.on s (.mapBegin (some es.length)) with ⟨_ | e, s'⟩
      · simp only [Walked.andThen]
        obtain ⟨inner, htruncate, hentries⟩ := entries_whole [] hnodup hall hbody hwalks
          hkeys (OpenKeys.within_nil keys) s'
        rw [hentries]
        rcases V.walkEntries (maxDepth - room) es s' with ⟨_ | e, s''⟩
        · exact ⟨some r', by simp only [landed, last, htruncate], .inr rfl⟩
        · exact ⟨«end», by simp only [landed, htruncate], .inl rfl⟩
      · exact ⟨«end», rfl, .inl rfl⟩
    all_goals
      have heq := (Reader.Takes.refl u).unique hbody
      subst heq
      simp only [headOf] at htoken
      simp only [node, head, htoken, Visitor.walk, last]
      exact ⟨some u, rfl, .inr rfl⟩

/-- A value nested deeper than there is room has a container where there is no room. -/
theorem nests_of_depth (hwell : v.WellFormed)
    (htakes : r.Takes (wire v) r') (hdeep : room < v.depth) : Nests room r := by
  induction v generalizing room r r' with
  | list vs ih =>
    obtain ⟨u, htoken, hbody⟩ := token_of_takes hwell htakes
    have hall := (wellFormed_list.mp hwell).2
    cases room with
    | zero => exact ⟨r, _, u, .here r, .inl htoken⟩
    | succ room =>
      have hmore : ∃ v ∈ vs, room < v.depth := by
        by_contra hnone
        have hle : Value.depthItems vs ≤ room := by
          apply Value.depthItems_le.mpr
          intro v hv
          by_contra hlt
          exact hnone ⟨v, hv, by omega⟩
        simp only [Value.depth] at hdeep
        omega
      obtain ⟨v, hv, hvdeep⟩ := hmore
      obtain ⟨before, behind, rfl⟩ := List.append_of_mem hv
      simp only [bodyOf, wireItems_append] at hbody
      obtain ⟨t, hbefore, hrest⟩ := hbody.split
      obtain ⟨t', hvalue, -⟩ := hrest.split
      have hholds : Holds r t := by
        apply Holds.item htoken ⟨fun w hw => hall w (List.mem_append_left _ hw), hbefore⟩
        simp
      exact (ih v hv (hall v hv) hvalue hvdeep).inside hholds
  | map es ih =>
    obtain ⟨u, htoken, hbody⟩ := token_of_takes hwell htakes
    obtain ⟨-, hnodup, hall⟩ := wellFormed_map.mp hwell
    cases room with
    | zero => exact ⟨r, _, u, .here r, .inr htoken⟩
    | succ room =>
      have hmore : ∃ k v, (k, v) ∈ es ∧ room < v.depth := by
        by_contra hnone
        have hle : Value.depthEntries es ≤ room := by
          apply Value.depthEntries_le.mpr
          intro k v hv
          by_contra hlt
          exact hnone ⟨k, v, hv, by omega⟩
        simp only [Value.depth] at hdeep
        omega
      obtain ⟨k, v, hv, hvdeep⟩ := hmore
      obtain ⟨before, behind, rfl⟩ := List.append_of_mem hv
      simp only [bodyOf, wireEntries_append] at hbody
      obtain ⟨t, hbefore, hrest⟩ := hbody.split
      obtain ⟨t', hpair, -⟩ := hrest.split
      obtain ⟨t'', hkey, hvalue⟩ := hpair.split
      rw [AssocList.keys_append, List.nodup_append] at hnodup
      have hholds : Holds r t'' := by
        apply Holds.entry htoken
          ⟨hnodup.1, fun k w hw => hall k w (List.mem_append_left _ hw), hbefore⟩
        · simp
        · exact Reader.text_eq_ok.mpr ⟨(hall k v hv).1, hkey⟩
        · intro hmem
          exact hnodup.2.2 k hmem k (by simp) rfl
      exact (ih k v hv (hall k v hv).2 hvalue hvdeep).inside hholds
  | _ => exact absurd hdeep (Nat.not_lt_zero _)

/-- What bytes that are no value are refused for: something the visitor refuses itself, a container
there is no room for, or what a reading of them is refused for. -/
def Blamed (room : ℕ) (r : Reader) (fault : WireError) (why : E) : Prop :=
  V.Own why ∨ (why = V.from .tooDeep ∧ Nests room r) ∨ why = V.from (unparsed fault)

theorem Blamed.inside {t : Reader} {fault : WireError} {why : E}
    (hholds : Holds r t) (h : Blamed V room t fault why) : Blamed V (room + 1) r fault why := by
  rcases h with hown | ⟨hwhy, hnests⟩ | hwhy
  · exact .inl hown
  · exact .inr (.inl ⟨hwhy, hnests.inside hholds⟩)
  · exact .inr (.inr hwhy)

/-- A walk of the node at a reader is refused, and leaves the keys as they were and the node with no
end of its own. -/
def Refused (walk : NodeWalk S E) (room : ℕ) (r : Reader) (fault : WireError) : Prop :=
  ∀ s (keys : OpenKeys) «end», keys.Sound → ∃ why s',
    walk r (s, keys, «end») = (some why, s', keys, «end») ∧ Blamed V room r fault why

section Ill

variable {V} {walk : NodeWalk S E} {room fuel n : ℕ} {r u : Reader} {fault : WireError}

variable {keys : OpenKeys}

theorem element_ill (hrefused : Refused V walk room r fault)
    (hkeys : keys.Sound) (left : ℕ) (outcomes : List (Option E)) (s : S) :
    ∃ e s', (V.beside Shared).element (walk r) left outcomes (s, keys, none) =
        (e, s', keys, none) ∧
      ∀ why, e = some why → some why ∈ outcomes ∨ Blamed V room r fault why := by
  have hended : ∀ s outcomes, ∀ why, (V.ended s outcomes).1 = some why →
      some why ∈ outcomes ∨ Blamed V room r fault why := by
    intro s outcomes why h
    by_cases hmem : some why ∈ outcomes
    · exact .inl hmem
    · exact .inr (.inl (.inr ⟨s, outcomes, h, hmem⟩))
  induction left generalizing outcomes s with
  | zero => exact ⟨_, _, rfl, hended s outcomes⟩
  | succ left ih =>
    simp only [Visitor.element, Visitor.beside]
    cases hwant : V.walks s outcomes with
    | none => exact ⟨_, _, rfl, hended s outcomes⟩
    | some s₁ =>
      obtain ⟨why₁, s₂, hwalk, hblamed⟩ := hrefused s₁ keys none hkeys
      obtain ⟨e, s', helement, hwhy⟩ := ih (outcomes ++ [some why₁]) s₂
      simp only [Option.map_some, hwalk]
      refine ⟨e, s', helement, ?_⟩
      intro why he
      rcases hwhy why he with hmem | hblamed'
      · rcases List.mem_append.mp hmem with hmem | hmem
        · exact .inl hmem
        · cases List.mem_singleton.mp hmem
          exact .inr hblamed
      · exact .inr hblamed'

theorem child_ill (hrefused : Refused V walk room r fault) (hfuel : r.rest.length < fuel)
    (hread : readStreamed fuel r = .error fault) (hkeys : keys.Sound) (s : S) :
    ∃ why s', child V draw walk r s keys = (.error why, s', keys) ∧
      Blamed V room r fault why := by
  obtain ⟨e, s', helement, hwhy⟩ := element_ill hrefused hkeys 2 [] s
  simp only [child, helement]
  cases e with
  | none =>
    simp only [after_refused draw hfuel hread]
    exact ⟨_, s', rfl, .inr (.inr rfl)⟩
  | some why =>
    rcases hwhy why rfl with hmem | hblamed
    · cases hmem
    · exact ⟨why, s', rfl, hblamed⟩

theorem whole_blamed {v : Value} {r' : Reader} (hroom : room ≤ maxDepth)
    (hwell : v.WellFormed) (htakes : r.Takes (wire v) r') {s : S} {why : E}
    (h : (V.element (V.walk (maxDepth - room) v) 2 [] s).1 = some why) :
    Blamed V room r fault why := by
  rcases V.element_refused h with hown | hmem | ⟨s', h⟩
  · exact .inl hown
  · cases hmem
  · rcases V.walk_refused h with hown | ⟨hwhy, hdeep⟩
    · exact .inl hown
    · exact .inr (.inl ⟨hwhy, nests_of_depth hwell htakes (by omega)⟩)

variable (hroom : room ≤ maxDepth)
  (hrefused : ∀ r fault, r.rest.length < fuel → readStreamed fuel r = .error fault →
    Refused V walk room r fault)
  (hwhole : ∀ v r r', Value.WellFormed v → r.Takes (wire v) r' →
    WalksAs V walk (maxDepth - room) r v r')
include hroom hrefused hwhole

theorem items_ill (hhead : r.token = .ok (.list n, u)) (hu : u.rest.length < fuel)
    {vs : List Value} {t : Reader} (hitems : WholeItems u vs t) {k : ℕ} (hk : vs.length + k = n)
    (hread : readItems (readStreamed fuel) k t = .error fault)
    (hkeys : keys.Sound) (s : S) :
    ∃ why s', items V draw walk k t s keys = (.error why, s', keys) ∧
      Blamed V (room + 1) r fault why := by
  induction k generalizing vs t s with
  | zero => cases hread
  | succ k ih =>
    have hlength := hitems.2.length
    have hfuel : t.rest.length < fuel := by omega
    have hholds : Holds r t := .item hhead hitems (by omega)
    simp only [readItems, Bind.bind, Except.bind] at hread
    simp only [items]
    cases hv : readStreamed fuel t with
    | error e =>
      rw [hv] at hread
      cases hread
      obtain ⟨why, s', hchild, hblamed⟩ := child_ill draw (hrefused t fault hfuel hv) hfuel hv hkeys s
      rw [hchild]
      exact ⟨why, s', rfl, hblamed.inside V hholds⟩
    | ok p =>
      obtain ⟨v, t'⟩ := p
      obtain ⟨hwell, htakes⟩ := (readStreamed_exact fuel t v t' hfuel).mp hv
      simp only [hv] at hread
      rw [child_whole (hwhole v t t' hwell htakes) hwell htakes hkeys]
      rcases helement : V.element (V.walk (maxDepth - room) v) 2 [] s with ⟨_ | e, s'⟩
      · apply ih (items_snoc hitems hwell htakes)
        · rw [List.length_append, List.length_singleton]
          omega
        · cases hrest : readItems (readStreamed fuel) k t' with
          | error e =>
            rw [hrest] at hread
            exact hread
          | ok q =>
            rw [hrest] at hread
            cases hread
      · have hblamed : Blamed V room t fault e :=
          whole_blamed hroom hwell htakes (by rw [helement])
        exact ⟨e, s', rfl, hblamed.inside V hholds⟩

theorem entries_ill (hhead : r.token = .ok (.map n, u)) (hu : u.rest.length < fuel)
    {es : List Entry} {t : Reader} (hentries : WholeEntries u es t) {k : ℕ}
    (hk : es.length + k = n) (hread : readKeyed (readStreamed fuel) es k t = .error fault)
    {inner : OpenKeys} (hkeys : keys.Sound) (hwithin : keys.Within (AssocList.keys es) inner)
    (s : S) :
    ∃ why s' inner', inner'.truncate keys.list.length = keys ∧
      entries V draw walk keys.list.length k t s inner = (.error why, s', inner') ∧
      Blamed V (room + 1) r fault why := by
  induction k generalizing es t s inner with
  | zero => cases hread
  | succ k ih =>
    have hlength := hentries.2.2.length
    simp only [readKeyed, Bind.bind, Except.bind] at hread
    simp only [entries]
    cases htext : t.text with
    | error e =>
      rw [htext] at hread
      cases hread
      exact ⟨_, s, inner, hwithin.truncate hkeys, rfl, .inr (.inr rfl)⟩
    | ok p =>
      obtain ⟨key, t₁⟩ := p
      have htextShort := Reader.text_shorter htext
      obtain ⟨inner', hinsert, hwithin'⟩ := hwithin.insert hkeys key k
      simp only [htext, AssocList.contains_iff] at hread
      simp only [hinsert]
      by_cases hold : key ∈ AssocList.keys es
      · rw [if_pos hold] at hread hwithin'
        cases hread
        rw [decide_eq_true hold]
        exact ⟨_, s, inner', hwithin'.truncate hkeys, rfl, .inr (.inr rfl)⟩
      · rw [if_neg hold] at hread hwithin'
        rw [decide_eq_false hold]
        have hfuel : t₁.rest.length < fuel := by omega
        have hholds : Holds r t₁ := .entry hhead hentries (by omega) htext hold
        have hsound := hwithin'.sound hkeys
        rcases htold : V.on s (.key key) with ⟨_ | e, s₁⟩
        · simp only [Bool.not_false]
          cases hv : readStreamed fuel t₁ with
          | error e =>
            rw [hv] at hread
            cases hread
            obtain ⟨why, s', hchild, hblamed⟩ :=
              child_ill draw (hrefused t₁ fault hfuel hv) hfuel hv hsound s₁
            rw [hchild]
            exact ⟨why, s', inner', hwithin'.truncate hkeys, rfl, hblamed.inside V hholds⟩
          | ok q =>
            obtain ⟨v, t₂⟩ := q
            obtain ⟨hwell, htakes⟩ := (readStreamed_exact fuel t₁ v t₂ hfuel).mp hv
            simp only [hv] at hread
            rw [child_whole (hwhole v t₁ t₂ hwell htakes) hwell htakes hsound]
            rcases helement : V.element (V.walk (maxDepth - room) v) 2 [] s₁ with ⟨_ | e, s₂⟩
            · apply ih (entries_snoc hentries htext hold hwell htakes) _ hread
              · simpa using hwithin'
              · rw [List.length_append, List.length_singleton]
                omega
            · have hblamed : Blamed V room t₁ fault e :=
                whole_blamed hroom hwell htakes (by rw [helement])
              exact ⟨e, s₂, inner', hwithin'.truncate hkeys, rfl, hblamed.inside V hholds⟩
        · exact ⟨e, s₁, inner', hwithin'.truncate hkeys, rfl, .inl (.inl ⟨s, _, by rw [htold]⟩)⟩

end Ill

/-- Where no value is, a walk of the node is refused. -/
theorem node_ill {room fuel : ℕ} (hroom : room ≤ maxDepth) {r : Reader} {fault : WireError}
    (hfuel : r.rest.length < fuel) (hread : readStreamed fuel r = .error fault) :
    Refused V (node V draw room) room r fault := by
  induction room generalizing r fault fuel with
  | zero =>
    intro s keys «end» hkeys
    obtain ⟨fuel, rfl⟩ : ∃ n, fuel = n + 1 := ⟨fuel - 1, by omega⟩
    simp only [readStreamed, Reader.node_eq_token, Bind.bind, Except.bind] at hread
    simp only [node, head]
    cases htoken : r.token with
    | error e =>
      rw [htoken] at hread
      cases hread
      exact ⟨_, s, rfl, .inr (.inr rfl)⟩
    | ok p =>
      obtain ⟨token, u⟩ := p
      rw [htoken] at hread
      cases token
      case list n => exact ⟨_, s, rfl, .inr (.inl ⟨rfl, r, n, u, .here r, .inl htoken⟩)⟩
      case map n => exact ⟨_, s, rfl, .inr (.inl ⟨rfl, r, n, u, .here r, .inr htoken⟩)⟩
      all_goals cases hread
  | succ room ih =>
    intro s keys «end» hkeys
    obtain ⟨fuel, rfl⟩ : ∃ n, fuel = n + 1 := ⟨fuel - 1, by omega⟩
    have hrefused : ∀ r fault, r.rest.length < fuel → readStreamed fuel r = .error fault →
        Refused V (node V draw room) room r fault :=
      fun r fault hfuel hread => ih (by omega) hfuel hread
    have hwhole : ∀ v r r', Value.WellFormed v → r.Takes (wire v) r' →
        WalksAs V (node V draw room) (maxDepth - room) r v r' :=
      fun v r r' hwell htakes => node_whole V draw (by omega) hwell htakes
    simp only [readStreamed, Reader.node_eq_token, Bind.bind, Except.bind] at hread
    simp only [node, head]
    cases htoken : r.token with
    | error e =>
      rw [htoken] at hread
      cases hread
      exact ⟨_, s, rfl, .inr (.inr rfl)⟩
    | ok p =>
      obtain ⟨token, u⟩ := p
      have hshort := Reader.token_shorter htoken
      simp only [htoken, Except.map] at hread
      cases token
      case list n =>
        dsimp only [Token.node] at hread ⊢
        rcases htold : V.on s (.listBegin (some n)) with ⟨_ | e, s₁⟩
        · cases hitems : readItems (readStreamed fuel) n u with
          | ok q => simp [hitems] at hread
          | error e =>
            rw [hitems] at hread
            cases hread
            obtain ⟨why, s', hlooked, hblamed⟩ := items_ill draw (by omega) hrefused hwhole htoken
              (by omega) (.nil u) (Nat.zero_add n) hitems hkeys s₁
            simp only [hlooked]
            exact ⟨why, s', rfl, hblamed⟩
        · exact ⟨e, s₁, rfl, .inl (.inl ⟨s, _, by rw [htold]⟩)⟩
      case map n =>
        dsimp only [Token.node] at hread ⊢
        rcases htold : V.on s (.mapBegin (some n)) with ⟨_ | e, s₁⟩
        · cases hentries : readKeyed (readStreamed fuel) [] n u with
          | ok q => simp [hentries] at hread
          | error e =>
            rw [hentries] at hread
            cases hread
            obtain ⟨why, s', inner, htruncate, hlooked, hblamed⟩ := entries_ill draw (by omega)
              hrefused hwhole htoken (by omega) (.nil u) (Nat.zero_add n) hentries hkeys
              (OpenKeys.within_nil keys) s₁
            simp only [hlooked, htruncate]
            exact ⟨why, s', rfl, hblamed⟩
        · exact ⟨e, s₁, rfl, .inl (.inl ⟨s, _, by rw [htold]⟩)⟩
      all_goals cases hread

/-- Walking bytes is walking the value they decode to, for every visitor, whatever it notes of the
events and however often, twice at most, it has each element walk. Bytes that decode are refused by
nobody but the visitor unless they are nested too deep. Bytes that do not decode are refused, and
where the tree decoder refuses them unless the visitor refuses something itself, they are nested too
deep or they hold two faults at once. -/
theorem walk_agrees (seeds treeSeeds : Seeded) (bytes : List UInt8) (s : S) :
    match decode treeSeeds bytes with
    | .ok v => walk V draw seeds bytes s = V.walk 0 v s ∧
        (v.depth ≤ maxDepth → ∀ why, (walk V draw seeds bytes s).1 = some why → V.Own why)
    | .error e => ∃ why, (walk V draw seeds bytes s).1 = some why ∧
        (V.Own why ∨ (why = V.from .tooDeep ∧ Nests maxDepth (.start bytes 0)) ∨
          TwoFaults (.start bytes 0) ∨ ∃ expected, why = V.from (.unparsed e.offset expected)) := by
  have hfuel : (Reader.start bytes 0).rest.length < bytes.length + 1 := Nat.lt_succ_self _
  have hsound := new_sound seeds
  rw [decode, decodeSeeded_eq, descend]
  simp only [Bind.bind, Except.bind]
  cases hread : readValue (bytes.length + 1) (.start bytes 0) with
  | ok p =>
    obtain ⟨v, r⟩ := p
    obtain ⟨hwell, htakes⟩ := (readValue_exact _ _ v r hfuel).mp hread
    obtain ⟨«end», hnode, hend⟩ :=
      node_whole V draw (Nat.le_refl maxDepth) hwell htakes s ⟨[], [], seeds⟩ none hsound
    rw [Nat.sub_self] at hnode
    have hafter := after_whole draw hwell htakes hend
    by_cases hrest : r.rest = []
    · have hwalk : walk V draw seeds bytes s = V.walk 0 v s := by
        simp only [walk, hnode]
        rcases V.walk 0 v s with ⟨_ | e, s'⟩
        · simp only [hafter, hrest, ne_eq, not_true_eq_false, if_false]
        · rfl
      simp only [hrest, ne_eq, not_true_eq_false, if_false]
      refine ⟨hwalk, ?_⟩
      intro hdepth why hwhy
      rw [hwalk] at hwhy
      rcases V.walk_refused hwhy with hown | ⟨-, hdeep⟩
      · exact hown
      · omega
    · simp only [hrest, ne_eq, not_false_eq_true, if_true]
      simp only [walk, hnode]
      rcases hvalue : V.walk 0 v s with ⟨_ | why, s'⟩
      · simp only [hafter, hrest, ne_eq, not_false_eq_true, if_true]
        exact ⟨_, rfl, .inr (.inr (.inr ⟨_, rfl⟩))⟩
      · have hrefused : (V.walk 0 v s).1 = some why := by rw [hvalue]
        refine ⟨why, rfl, ?_⟩
        rcases V.walk_refused hrefused with hown | ⟨hwhy, hdeep⟩
        · exact .inl hown
        · exact .inr (.inl ⟨hwhy, nests_of_depth hwell htakes (by omega)⟩)
  | error e =>
    dsimp only
    have hstreamed : ∃ fault, readStreamed (bytes.length + 1) (.start bytes 0) = .error fault := by
      cases hs : readStreamed (bytes.length + 1) (.start bytes 0) with
      | error fault => exact ⟨fault, rfl⟩
      | ok p =>
        rw [readStreamed_eq_ok.mp hs] at hread
        cases hread
    obtain ⟨fault, hfault⟩ := hstreamed
    obtain ⟨why, s', hnode, hblamed⟩ := node_ill V draw (Nat.le_refl maxDepth) hfuel hfault s
      ⟨[], [], seeds⟩ none hsound
    simp only [walk, hnode]
    refine ⟨why, rfl, ?_⟩
    rcases hblamed with hown | hdeep | hwhy
    · exact .inl hown
    · exact .inr (.inl hdeep)
    · refine .inr (.inr ?_)
      by_cases hfaults : TwoFaults (.start bytes 0)
      · exact .inl hfaults
      · rw [readStreamed_eq hfuel hfaults, hread] at hfault
        cases hfault
        obtain ⟨expected, hunparsed⟩ := unparsed_offset (readValue_refused hfuel hread)
        exact .inr ⟨expected, by rw [hwhy, hunparsed]⟩

end Encoded

end Guatiao.Wire
