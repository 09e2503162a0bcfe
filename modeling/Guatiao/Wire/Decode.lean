import Guatiao.Lib.Yields
import Guatiao.Wire.Keys
import Guatiao.Wire.Reader

/-!
# Decoding a value

`decode` is the loop of the source over the containers half built. `readValue` is the
same reading by descent, one call a node, and the loop is the descent: from any stack,
reading one value and placing it is what the loop does.
-/

namespace Guatiao.Wire

open Lib

/-- A container being built. -/
inductive Frame where
  /-- A list, the items it has and how many are left. -/
  | list (items : List Value) (left : ℕ)
  /-- A map, the entries it has, how many are left, the key whose value is being read
  and where it starts, and the hashes of a wide map's keys. -/
  | map (entries : List Entry) (left : ℕ) (key : Option (String × ℕ)) (seen : Option KeySet)

namespace Frame

/-- How many elements are left. -/
def left : Frame → ℕ
  | .list _ left => left
  | .map _ left _ _ => left

/-- The value built so far. -/
def intoValue : Frame → Value
  | .list items _ => .list items
  | .map entries _ _ _ => .map entries

end Frame

/-- The state of the decoding loop: the bytes left and the containers open, innermost
first. -/
structure Decoding where
  reader : Reader
  stack : List Frame

/-- Whether a key came before in its map, and the map's hashes with the key's. A hash
seen before is a repeat only if the key itself is. -/
def repeated (key : String) (entries : List Entry) (seen : Option KeySet) :
    Bool × Option KeySet :=
  match seen with
  | none => (AssocList.contains key entries, none)
  | some set =>
    let (new, set) := set.insert (asBytes key)
    (!new && AssocList.contains key entries, some set)

/-- The second half of a turn: a finished value goes into the innermost container, or
is the result. -/
def place (value : Value) (r : Reader) : List Frame → Except WireError Value ⊕ Decoding
  | [] => .inl (if r.rest ≠ [] then .error (.trailing r.offset) else .ok value)
  | .list items left :: below => .inr ⟨r, .list (items ++ [value]) (left - 1) :: below⟩
  | .map entries left key seen :: below =>
    -- The source expects a key here: a map's value is read after its key.
    let (key, keyAt) := key.getD ("", 0)
    match repeated key entries seen with
    | (true, _) => .inl (.error (.duplicateKey keyAt))
    | (false, seen) => .inr ⟨r, .map (entries ++ [(key, value)]) (left - 1) none seen :: below⟩

/-- Reads one node: a leaf or an empty container is placed, any other is opened. -/
def openNode (seeds : Seeded) (r : Reader) (stack : List Frame) :
    Except WireError Value ⊕ Decoding :=
  match r.node with
  | .error e => .inl (.error e)
  | .ok (.leaf value, r) => place value r stack
  | .ok (.list 0, r) => place (.list []) r stack
  | .ok (.map 0, r) => place (.map []) r stack
  | .ok (.list left, r) => .inr ⟨r, .list [] left :: stack⟩
  | .ok (.map left, r) =>
    let seen := if LINEAR < left then some (KeySet.new seeds) else none
    .inr ⟨r, .map [] left none seen :: stack⟩

/-- One turn of the decoding loop: a container with nothing left is a finished value,
and else the next node is read, behind its key in a map. -/
def decodeTurn (seeds : Seeded) (s : Decoding) : Except WireError Value ⊕ Decoding :=
  match s.stack with
  | [] => openNode seeds s.reader []
  | top :: below =>
    if top.left = 0 then place top.intoValue s.reader below
    else
      match top with
      | .list .. => openNode seeds s.reader (top :: below)
      | .map entries left _ seen =>
        match s.reader.text with
        | .error e => .inl (.error e)
        | .ok (key, r) =>
          openNode seeds r (.map entries left (some (key, s.reader.offset)) seen :: below)

variable {r : Reader}

theorem place_measure {value : Value} {stack : List Frame} {s : Decoding}
    (h : place value r stack = .inr s) :
    s.reader = r ∧ s.stack.length = stack.length := by
  unfold place at h
  split at h
  · cases h
  · cases h
    exact ⟨rfl, rfl⟩
  · dsimp only at h
    split at h
    · cases h
    · cases h
      exact ⟨rfl, rfl⟩

theorem node_shorter {r' : Reader} {n : Node} (h : r.node = .ok (n, r')) :
    r'.rest.length < r.rest.length := by
  rw [Reader.node_eq_token] at h
  cases ht : r.token with
  | error e => simp [ht, Except.map] at h
  | ok p =>
    obtain ⟨t, s⟩ := p
    simp only [ht, Except.map, Except.ok.injEq, Prod.mk.injEq] at h
    obtain ⟨-, rfl⟩ := h
    exact Reader.token_shorter ht

theorem openNode_measure {seeds : Seeded} {stack : List Frame}
    {s : Decoding} (h : openNode seeds r stack = .inr s) :
    2 * s.reader.rest.length + s.stack.length < 2 * r.rest.length + stack.length := by
  unfold openNode at h
  split at h
  · cases h
  · next hnode =>
    obtain ⟨hr, hs⟩ := place_measure h
    have := node_shorter hnode
    rw [hr, hs]
    omega
  · next hnode =>
    obtain ⟨hr, hs⟩ := place_measure h
    have := node_shorter hnode
    rw [hr, hs]
    omega
  · next hnode =>
    obtain ⟨hr, hs⟩ := place_measure h
    have := node_shorter hnode
    rw [hr, hs]
    omega
  · next hnode =>
    have := node_shorter hnode
    cases h
    simp only [List.length_cons]
    omega
  · next hnode =>
    have := node_shorter hnode
    cases h
    simp only [List.length_cons]
    omega

/-- The decoding loop: a node read takes a byte, and a container finished is popped. -/
def decodeLoop (seeds : Seeded) : Loop Decoding (Except WireError Value) where
  body := decodeTurn seeds
  measure s := 2 * s.reader.rest.length + s.stack.length
  decreases := by
    intro s s' h
    unfold decodeTurn at h
    cases hstack : s.stack with
    | nil =>
      rw [hstack] at h
      have := openNode_measure h
      simpa [hstack] using this
    | cons top below =>
      simp only [hstack] at h
      split at h
      · obtain ⟨hr, hs⟩ := place_measure h
        rw [hr, hs, List.length_cons]
        omega
      · cases top with
        | list items left =>
          have := openNode_measure h
          simpa [hstack] using this
        | map entries left key seen =>
          cases htext : s.reader.text with
          | error e => simp [htext] at h
          | ok p =>
            obtain ⟨key, r⟩ := p
            simp only [htext] at h
            have := openNode_measure h
            have := Reader.text_shorter htext
            simp only [List.length_cons] at *
            omega

/-- Decodes `bytes`, reporting offsets as if they began at `base`. -/
def decodeSeeded (seeds : Seeded) (bytes : List UInt8) (base : ℕ) : Except WireError Value :=
  (decodeLoop seeds).run ⟨.start bytes base, []⟩

/-- The value `bytes` hold. The source draws the seeds at random; here they are given. -/
def decode (seeds : Seeded) (bytes : List UInt8) : Except WireError Value :=
  decodeSeeded seeds bytes 0

/-- What reads one value. -/
abbrev Read := Reader → Except WireError (Value × Reader)

/-- Reads a list's items. -/
def readItems (read : Read) : ℕ → Reader → Except WireError (List Value × Reader)
  | 0, r => .ok ([], r)
  | n + 1, r => do
    let (v, r) ← read r
    let (items, r) ← readItems read n r
    .ok (v :: items, r)

/-- Reads the rest of a map's entries after some: a key that came before is refused
once its value is read. -/
def readEntries (read : Read) (before : List Entry) :
    ℕ → Reader → Except WireError (List Entry × Reader)
  | 0, r => .ok (before, r)
  | n + 1, r => do
    let (key, r₁) ← r.text
    let (v, r₂) ← read r₁
    if AssocList.contains key before then .error (.duplicateKey r.offset)
    else readEntries read (before ++ [(key, v)]) n r₂

/-- Reads one value; `fuel` is more than the bytes that are left. -/
def readValue : ℕ → Read
  | 0, r => .error (.truncated r.offset)
  | fuel + 1, r => do
    let (node, r) ← r.node
    match node with
    | .leaf v => .ok (v, r)
    | .list n => do
      let (items, r) ← readItems (readValue fuel) n r
      .ok (.list items, r)
    | .map n => do
      let (entries, r) ← readEntries (readValue fuel) [] n r
      .ok (.map entries, r)

/-- The value bytes hold, read by descent. -/
def descend (bytes : List UInt8) (base : ℕ) : Except WireError Value := do
  let (v, r) ← readValue (bytes.length + 1) (.start bytes base)
  if r.rest ≠ [] then .error (.trailing r.offset) else .ok v

/-- Reading answers no more bytes than it was given. -/
def Read.Shrinks (read : Read) : Prop :=
  ∀ r v r', read r = .ok (v, r') → r'.rest.length ≤ r.rest.length

section Shrinks

variable {read : Read} (hread : read.Shrinks)
include hread

theorem readItems_shrinks {n : ℕ} {r r' : Reader} {items : List Value}
    (h : readItems read n r = .ok (items, r')) : r'.rest.length ≤ r.rest.length := by
  induction n generalizing r items with
  | zero =>
    cases h
    exact Nat.le_refl _
  | succ n ih =>
    obtain ⟨⟨v, s⟩, hv, h⟩ := bind_eq_ok h
    obtain ⟨⟨rest, s'⟩, hrest, h⟩ := bind_eq_ok h
    cases h
    exact (ih hrest).trans (hread r v s hv)

theorem readEntries_shrinks {n : ℕ} {r r' : Reader} {before entries : List Entry}
    (h : readEntries read before n r = .ok (entries, r')) :
    r'.rest.length ≤ r.rest.length := by
  induction n generalizing r before with
  | zero =>
    cases h
    exact Nat.le_refl _
  | succ n ih =>
    obtain ⟨⟨key, s⟩, htext, h⟩ := bind_eq_ok h
    obtain ⟨⟨v, s'⟩, hv, h⟩ := bind_eq_ok h
    dsimp only at h
    split at h
    · cases h
    · have := Reader.text_shorter htext
      have := hread s v s' hv
      have := ih h
      omega

end Shrinks

theorem readValue_shorter {fuel : ℕ} {r' : Reader} {v : Value}
    (h : readValue fuel r = .ok (v, r')) : r'.rest.length < r.rest.length := by
  induction fuel generalizing r r' v with
  | zero => cases h
  | succ fuel ih =>
    have hread : (readValue fuel).Shrinks := fun r v r' h => (ih h).le
    obtain ⟨⟨node, s⟩, hnode, h⟩ := bind_eq_ok h
    have hshort := node_shorter hnode
    cases node with
    | leaf w =>
      cases h
      exact hshort
    | list n =>
      obtain ⟨⟨items, s'⟩, hitems, h⟩ := bind_eq_ok h
      cases h
      exact (readItems_shrinks hread hitems).trans_lt hshort
    | map n =>
      obtain ⟨⟨entries, s'⟩, hentries, h⟩ := bind_eq_ok h
      cases h
      exact (readEntries_shrinks hread hentries).trans_lt hshort

section Descent

variable (seeds : Seeded)

/-- What the loop answers from a turn. -/
private def finish : Except WireError Value ⊕ Decoding → Except WireError Value :=
  (decodeLoop seeds).finish

/-- What the loop makes of a value read, with the containers open around it. -/
private def resume (stack : List Frame) :
    Except WireError (Value × Reader) → Except WireError Value
  | .error e => .error e
  | .ok (v, r) => finish seeds (place v r stack)

/-- A map's hashes answer for the keys it has. -/
def Covered (entries : List Entry) : Option KeySet → Prop
  | none => True
  | some set => set.Covers (AssocList.keys entries)

variable {entries : List Entry} {seen : Option KeySet} {fuel : ℕ} {stack : List Frame} {r : Reader}

theorem repeated_fst (key : String) (h : Covered entries seen) :
    (repeated key entries seen).1 = AssocList.contains key entries := by
  cases seen with
  | none => rfl
  | some set => exact KeySet.Covers.repeated_iff h key _ AssocList.contains_iff

theorem repeated_snd (key : String) (v : Value) (h : Covered entries seen) :
    Covered (entries ++ [(key, v)]) (repeated key entries seen).2 := by
  cases seen with
  | none => trivial
  | some set =>
    have := KeySet.Covers.insert h key
    simpa [Covered, repeated] using this

theorem run_items {n : ℕ} {items : List Value} (hfuel : r.rest.length < fuel)
    (ih : ∀ r stack, r.rest.length < fuel →
      finish seeds (openNode seeds r stack) = resume seeds stack (readValue fuel r)) :
    (decodeLoop seeds).run ⟨r, .list items n :: stack⟩ =
      resume seeds stack
        ((readItems (readValue fuel) n r).map fun p => (.list (items ++ p.1), p.2)) := by
  induction n generalizing r items with
  | zero =>
    rw [Loop.run_eq_finish]
    simp [decodeLoop, decodeTurn, Frame.left, Frame.intoValue, readItems, Except.map, resume,
      finish]
  | succ n ihn =>
    have hturn : (decodeLoop seeds).body ⟨r, .list items (n + 1) :: stack⟩ =
        openNode seeds r (.list items (n + 1) :: stack) := rfl
    rw [Loop.run_eq_finish, hturn]
    refine (ih r _ hfuel).trans ?_
    simp only [readItems, Bind.bind, Except.bind]
    cases hv : readValue fuel r with
    | error e => rfl
    | ok p =>
      obtain ⟨v, s⟩ := p
      have hshort := readValue_shorter hv
      have hplace : place v s (.list items (n + 1) :: stack) =
          .inr ⟨s, .list (items ++ [v]) n :: stack⟩ := rfl
      simp only [resume, hplace, finish, Loop.finish_inr]
      rw [ihn (by omega)]
      cases readItems (readValue fuel) n s with
      | error e => rfl
      | ok q => simp only [Except.map, List.append_assoc, List.singleton_append, resume, finish]

theorem run_entries {n : ℕ} {key : Option (String × ℕ)}
    (hfuel : r.rest.length < fuel) (hseen : Covered entries seen) (ih : ∀ r stack, r.rest.length < fuel →
      finish seeds (openNode seeds r stack) = resume seeds stack (readValue fuel r)) :
    (decodeLoop seeds).run ⟨r, .map entries n key seen :: stack⟩ =
      resume seeds stack
        ((readEntries (readValue fuel) entries n r).map fun p => (.map p.1, p.2)) := by
  induction n generalizing r entries key seen with
  | zero =>
    rw [Loop.run_eq_finish]
    simp [decodeLoop, decodeTurn, Frame.left, Frame.intoValue, readEntries, Except.map, resume,
      finish]
  | succ n ihn =>
    rw [Loop.run_eq_finish]
    cases htext : r.text with
    | error e =>
      simp [decodeLoop, decodeTurn, Frame.left, readEntries, htext, Bind.bind, Except.bind,
        Except.map, resume]
    | ok p =>
      obtain ⟨k, s⟩ := p
      have htextShort := Reader.text_shorter htext
      have hturn : (decodeLoop seeds).body ⟨r, .map entries (n + 1) key seen :: stack⟩ =
          openNode seeds s (.map entries (n + 1) (some (k, r.offset)) seen :: stack) := by
        simp [decodeLoop, decodeTurn, Frame.left, htext]
      rw [hturn]
      refine (ih s _ (by omega)).trans ?_
      simp only [readEntries, htext, Bind.bind, Except.bind]
      cases hv : readValue fuel s with
      | error e => rfl
      | ok q =>
        obtain ⟨v, s'⟩ := q
        have hshort := readValue_shorter hv
        have hfst := repeated_fst k hseen
        have hsnd := repeated_snd k v hseen
        simp only [resume, place, finish, Option.getD_some]
        rcases hrep : repeated k entries seen with ⟨_ | _, seen'⟩
        · rw [hrep] at hfst hsnd
          rw [← hfst, if_neg Bool.false_ne_true]
          simp only [Loop.finish_inr, Nat.add_sub_cancel]
          exact ihn (by omega) hsnd
        · rw [hrep] at hfst
          rw [← hfst, if_pos rfl]
          rfl

theorem openNode_eq (hfuel : r.rest.length < fuel) :
    finish seeds (openNode seeds r stack) = resume seeds stack (readValue fuel r) := by
  induction fuel generalizing r stack with
  | zero => omega
  | succ fuel ih =>
    simp only [openNode, readValue, Bind.bind, Except.bind]
    cases hnode : r.node with
    | error e => rfl
    | ok p =>
      obtain ⟨node, s⟩ := p
      have hshort := node_shorter hnode
      rcases node with v | n | n
      · rfl
      · cases n with
        | zero => rfl
        | succ n =>
          refine (run_items seeds (by omega) fun r stack h => ih h).trans ?_
          dsimp only
          cases readItems (readValue fuel) (n + 1) s <;> rfl
      · cases n with
        | zero => rfl
        | succ n =>
          refine (run_entries seeds (by omega) ?_ fun r stack h => ih h).trans ?_
          · split
            · exact KeySet.new_covers seeds
            · trivial
          · dsimp only
            cases readEntries (readValue fuel) [] (n + 1) s <;> rfl

theorem decodeSeeded_eq (bytes : List UInt8) (base : ℕ) :
    decodeSeeded seeds bytes base = descend bytes base := by
  have hturn : (decodeLoop seeds).body ⟨.start bytes base, []⟩ =
      openNode seeds (.start bytes base) [] := rfl
  rw [decodeSeeded, Loop.run_eq_finish, hturn]
  have hfuel : (Reader.start bytes base).rest.length < bytes.length + 1 := Nat.lt_succ_self _
  refine (openNode_eq seeds hfuel).trans ?_
  unfold descend
  cases readValue (bytes.length + 1) (.start bytes base) with
  | error e => rfl
  | ok p => rfl

end Descent

end Guatiao.Wire
