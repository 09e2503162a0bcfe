import Guatiao.Wire.Agreement

/-!
# Passing over a value

A decoder passes over a value with a stack of its own, so however deep it is. It checks what a
decoder of the value checks, a key as soon as it is read: `readStreamed` is the same reading by
descent. It takes the values the tree decoder takes, and refuses the rest as the tree decoder does
unless a key repeats in front of something that is no value.
-/

namespace Guatiao.Wire

open Lib

/-- The state of the passing loop: the decoder and the containers open, innermost first, each with
the values it still holds and, a map, where its keys start. -/
structure Skipping where
  decoder : Decoder
  opened : List (ℕ × Option ℕ)

namespace Decoder

/-- What passing over a value came to, and the decoder after. -/
abbrev Skipped := Except WireError Unit × Decoder

/-- Passes over one head: a container is opened. -/
def skipToken (d : Decoder) (opened : List (ℕ × Option ℕ)) : Skipped ⊕ Skipping :=
  match d.reader.token with
  | .ok (.list n, r) => .inr ⟨{ d with reader := r }, (n, none) :: opened⟩
  | .ok (.map n, r) => .inr ⟨{ d with reader := r }, (n, some d.keys.list.length) :: opened⟩
  | .ok (_, r) => .inr ⟨{ d with reader := r }, opened⟩
  | .error e => .inl (.error e, d)

/-- One turn of the passing loop: a container with nothing left is closed, and else the next head is
passed over, behind its key in a map. -/
def skipTurn (s : Skipping) : Skipped ⊕ Skipping :=
  let d := s.decoder
  match s.opened with
  | [] => .inl (.ok (), d)
  | (0, none) :: below => .inr ⟨d, below⟩
  | (0, some start) :: below => .inr ⟨{ d with keys := d.keys.truncate start }, below⟩
  | (left + 1, none) :: below => d.skipToken ((left, none) :: below)
  | (left + 1, some start) :: below =>
    match d.reader.text with
    | .error e => .inl (.error e, d)
    | .ok (key, r) =>
      match d.keys.insert start key left with
      | (false, keys) =>
        .inl (.error (.duplicateKey d.reader.offset), { d with reader := r, keys := keys })
      | (true, keys) =>
        skipToken { d with reader := r, keys := keys } ((left, some start) :: below)

theorem skipToken_measure {d : Decoder} {opened : List (ℕ × Option ℕ)} {s : Skipping}
    (h : d.skipToken opened = .inr s) :
    2 * s.decoder.reader.rest.length + s.opened.length <
      2 * d.reader.rest.length + opened.length := by
  unfold skipToken at h
  split at h
  · next htoken =>
    have := Reader.token_shorter htoken
    cases h
    simp only [List.length_cons]
    omega
  · next htoken =>
    have := Reader.token_shorter htoken
    cases h
    simp only [List.length_cons]
    omega
  · next htoken =>
    have := Reader.token_shorter htoken
    cases h
    simp only
    omega
  · cases h

/-- The passing loop: a head takes a byte, and a container passed over is popped. -/
def skipLoop : Loop Skipping Skipped where
  body := skipTurn
  measure s := 2 * s.decoder.reader.rest.length + s.opened.length
  decreases := by
    rintro ⟨d, opened⟩ s' h
    unfold skipTurn at h
    dsimp only at h ⊢
    split at h
    · cases h
    · cases h
      simp
    · cases h
      simp
    · have := skipToken_measure h
      simpa using this
    · split at h
      · cases h
      · next htext =>
        have hshort := Reader.text_shorter htext
        split at h
        · cases h
        · have := skipToken_measure h
          simp only [List.length_cons] at *
          omega

/-- Passes over one value. -/
def skip (d : Decoder) : Built Unit :=
  let (skipped, d') := skipLoop.run ⟨d, [(1, none)]⟩
  let d' := { d' with keys := d'.keys.truncate d.keys.list.length }
  match skipped with
  | .ok () => (.ok (), d')
  | .error e => d'.fail e

end Decoder

/-- Reads one value however deep, a repeated key refused as soon as it is read; `fuel` is more than
the bytes that are left. -/
def readStreamed : ℕ → Read
  | 0, r => .error (.truncated r.offset)
  | fuel + 1, r => do
    let (node, r) ← r.node
    match node with
    | .leaf v => .ok (v, r)
    | .list n => do
      let (items, r) ← readItems (readStreamed fuel) n r
      .ok (.list items, r)
    | .map n => do
      let (entries, r) ← readKeyed (readStreamed fuel) [] n r
      .ok (.map entries, r)

/-- Two answers are the same as far as they are values. -/
private def Alike {α : Type} (x y : Except WireError α) : Prop := ∀ a, x = .ok a ↔ y = .ok a

section Alike

variable {α β : Type} {x y : Except WireError α}

theorem Alike.refl (x : Except WireError α) : Alike x x := fun _ => Iff.rfl

theorem Alike.bind (h : Alike x y) {f g : α → Except WireError β}
    (hf : ∀ a, x = .ok a → Alike (f a) (g a)) : Alike (x.bind f) (y.bind g) := by
  intro b
  constructor
  · intro hb
    cases hx : x with
    | error e =>
      rw [hx] at hb
      cases hb
    | ok a =>
      rw [hx] at hb
      rw [(h a).mp hx]
      exact (hf a hx b).mp hb
  · intro hb
    cases hy : y with
    | error e =>
      rw [hy] at hb
      cases hb
    | ok a =>
      have hx := (h a).mpr hy
      rw [hy] at hb
      rw [hx]
      exact (hf a hx b).mpr hb

variable {read read' : Read} (hread : ∀ r, Alike (read r) (read' r))
include hread

theorem readItems_alike (n : ℕ) (r : Reader) :
    Alike (readItems read n r) (readItems read' n r) := by
  induction n generalizing r with
  | zero => exact .refl _
  | succ n ih =>
    apply (hread r).bind
    intro p hp
    exact (ih p.2).bind fun _ _ => .refl _

theorem readEntries_alike (before : List Entry) (n : ℕ) (r : Reader) :
    Alike (readEntries read before n r) (readEntries read' before n r) := by
  induction n generalizing before r with
  | zero => exact .refl _
  | succ n ih =>
    apply (Alike.refl r.text).bind
    intro p hp
    apply (hread p.2).bind
    intro q hq
    dsimp only
    split
    · exact .refl _
    · exact ih _ _

end Alike

theorem readStreamed_eq_ok {fuel : ℕ} {r : Reader} {p : Value × Reader} :
    readStreamed fuel r = .ok p ↔ readValue fuel r = .ok p := by
  have halike : ∀ fuel r, Alike (readStreamed fuel r) (readValue fuel r) := by
    intro fuel
    induction fuel with
    | zero => exact fun r => .refl _
    | succ fuel ih =>
      intro r
      apply (Alike.refl r.node).bind
      rintro ⟨node, s⟩ -
      cases node with
      | leaf v => exact .refl _
      | list n => exact (readItems_alike ih n s).bind fun _ _ => .refl _
      | map n =>
        have hkeyed : Alike (readKeyed (readStreamed fuel) [] n s)
            (readEntries (readValue fuel) [] n s) := by
          intro entries
          rw [readKeyed_eq_ok]
          exact readEntries_alike ih [] n s entries
        exact hkeyed.bind fun _ _ => .refl _
  exact halike fuel r p

/-- The descent takes a value exactly when it is well formed and the bytes start with its
encoding. -/
theorem readStreamed_exact (fuel : ℕ) : Read.Exact (readStreamed fuel) fuel Value.WellFormed := by
  intro r v r' hfuel
  rw [readStreamed_eq_ok]
  exact readValue_exact fuel r v r' hfuel

namespace Decoder

/-- What the passing loop comes to is what it makes of a reading: a refusal stops it, and it goes on
behind a value. -/
private def Passes {α : Type} (d : Decoder) (opened : List (ℕ × Option ℕ)) (skipped : Skipped) :
    Except WireError (α × Reader) → Prop
  | .error e => skipped.1 = .error e ∧ skipped.2.failure = d.failure
  | .ok (_, r) => skipped = skipLoop.run ⟨{ d with reader := r }, opened⟩

/-- Passing over a value and going on is what reading it by descent makes of it. -/
private def PassesAt (fuel : ℕ) : Prop :=
  ∀ (d : Decoder) (opened : List (ℕ × Option ℕ)), d.keys.Sound → d.reader.rest.length < fuel →
    d.Passes opened (skipLoop.finish (d.skipToken opened)) (readStreamed fuel d.reader)

theorem run_items {fuel : ℕ} (hpasses : PassesAt fuel) (d : Decoder)
    (opened : List (ℕ × Option ℕ)) (hkeys : d.keys.Sound) (hfuel : d.reader.rest.length < fuel)
    (n : ℕ) :
    d.Passes opened (skipLoop.run ⟨d, (n, none) :: opened⟩)
      (readItems (readStreamed fuel) n d.reader) := by
  induction n generalizing d with
  | zero => exact skipLoop.run_of_turn rfl
  | succ n ih =>
    have hturn : skipLoop.body ⟨d, (n + 1, none) :: opened⟩ = d.skipToken ((n, none) :: opened) :=
      rfl
    have hfirst := hpasses d ((n, none) :: opened) hkeys hfuel
    rw [Loop.run_eq_finish, hturn]
    simp only [readItems, Bind.bind, Except.bind]
    cases hv : readStreamed fuel d.reader with
    | error e =>
      rw [hv] at hfirst
      exact hfirst
    | ok p =>
      obtain ⟨v, r⟩ := p
      have hlength := ((readStreamed_exact fuel d.reader v r hfuel).mp hv).2.length
      have hrest := ih { d with reader := r } hkeys (by simp only; omega)
      simp only [hv, Passes] at hfirst
      rw [hfirst]
      dsimp only at hrest ⊢
      cases hitems : readItems (readStreamed fuel) n r with
      | error e =>
        rw [hitems] at hrest
        exact hrest
      | ok q =>
        rw [hitems] at hrest
        exact hrest

theorem run_entries {fuel : ℕ} (hpasses : PassesAt fuel) {keys : OpenKeys}
    (hsound : keys.Sound) (d : Decoder) (opened : List (ℕ × Option ℕ)) (before : List Entry)
    (hkeys : keys.Within (AssocList.keys before) d.keys) (hfuel : d.reader.rest.length < fuel)
    (n : ℕ) :
    { d with keys := keys }.Passes opened
      (skipLoop.run ⟨d, (n, some keys.list.length) :: opened⟩)
      (readKeyed (readStreamed fuel) before n d.reader) := by
  induction n generalizing d before with
  | zero =>
    have hturn : skipLoop.body ⟨d, (0, some keys.list.length) :: opened⟩ =
        .inr ⟨{ d with keys := d.keys.truncate keys.list.length }, opened⟩ := rfl
    rw [skipLoop.run_of_turn hturn, hkeys.truncate hsound]
    rfl
  | succ n ih =>
    rw [Loop.run_eq_finish]
    simp only [readKeyed, Bind.bind, Except.bind]
    cases htext : d.reader.text with
    | error e => simp [skipLoop, skipTurn, htext, Passes]
    | ok p =>
      obtain ⟨key, r⟩ := p
      have htextShort := Reader.text_shorter htext
      obtain ⟨inner, hinsert, hwithin⟩ := hkeys.insert hsound key n
      simp only [AssocList.contains_iff]
      by_cases hold : key ∈ AssocList.keys before
      · rw [decide_eq_true hold] at hinsert
        simp [skipLoop, skipTurn, htext, hinsert, Passes, hold]
      · rw [decide_eq_false hold] at hinsert
        rw [if_neg hold] at hwithin ⊢
        have hturn : skipLoop.body ⟨d, (n + 1, some keys.list.length) :: opened⟩ =
            skipToken { d with reader := r, keys := inner }
              ((n, some keys.list.length) :: opened) := by
          simp [skipLoop, skipTurn, htext, hinsert]
        have hfirst := hpasses { d with reader := r, keys := inner }
          ((n, some keys.list.length) :: opened) (hwithin.sound hsound) (by simp only; omega)
        rw [hturn]
        cases hv : readStreamed fuel r with
        | error e =>
          rw [hv] at hfirst
          exact hfirst
        | ok q =>
          obtain ⟨v, r'⟩ := q
          have hlength := ((readStreamed_exact fuel r v r' (by omega)).mp hv).2.length
          have hrest := ih { d with reader := r', keys := inner } (before ++ [(key, v)])
            (by simpa using hwithin) (by simp only; omega)
          simp only [hv, Passes] at hfirst
          rw [hfirst]
          exact hrest

theorem skipToken_passes (fuel : ℕ) : PassesAt fuel := by
  induction fuel with
  | zero =>
    intro d opened hkeys hfuel
    omega
  | succ fuel ih =>
    intro d opened hkeys hfuel
    simp only [skipToken, readStreamed, Reader.node_eq_token, Bind.bind, Except.bind]
    cases htoken : d.reader.token with
    | error e => exact ⟨rfl, rfl⟩
    | ok p =>
      obtain ⟨t, r⟩ := p
      have hshort := Reader.token_shorter htoken
      cases t
      case list n =>
        have hitems := run_items ih { d with reader := r } opened hkeys (by simp only; omega) n
        simp only [Except.map, Token.node, Loop.finish_inr]
        dsimp only at hitems
        cases hread : readItems (readStreamed fuel) n r with
        | error e =>
          rw [hread] at hitems
          exact hitems
        | ok q =>
          rw [hread] at hitems
          exact hitems
      case map n =>
        have hentries := run_entries ih hkeys { d with reader := r } opened []
          (OpenKeys.within_nil d.keys) (by simp only; omega) n
        simp only [Except.map, Token.node, Loop.finish_inr]
        dsimp only at hentries
        cases hread : readKeyed (readStreamed fuel) [] n r with
        | error e =>
          rw [hread] at hentries
          exact hentries
        | ok q =>
          rw [hread] at hentries
          exact hentries
      all_goals rfl

theorem skip_eq {d : Decoder} {fuel : ℕ} (hkeys : d.keys.Sound) (hfailure : d.failure = none)
    (hfuel : d.reader.rest.length < fuel) :
    match readStreamed fuel d.reader with
    | .ok (_, r) => d.skip = (.ok (), { d with reader := r })
    | .error e => d.skip.1 = .error .stopped ∧ d.skip.2.failure = some e := by
  have hturn : skipLoop.body ⟨d, [(1, none)]⟩ = d.skipToken [(0, none)] := rfl
  have hlast : ∀ d : Decoder, skipLoop.run ⟨d, [(0, none)]⟩ = (.ok (), d) := by
    intro d
    have hclose : skipLoop.body ⟨d, [(0, none)]⟩ = .inr ⟨d, []⟩ := rfl
    rw [skipLoop.run_of_turn hclose]
    exact skipLoop.run_of_stop rfl
  have hpasses := skipToken_passes fuel d [(0, none)] hkeys hfuel
  simp only [skip, Loop.run_eq_finish skipLoop ⟨d, [(1, none)]⟩, hturn]
  cases hread : readStreamed fuel d.reader with
  | error e =>
    rw [hread] at hpasses
    obtain ⟨hstop, hsame⟩ := hpasses
    simp [hstop, fail, hsame, hfailure]
  | ok p =>
    simp only [hread, Passes, hlast] at hpasses
    have hclosed := (OpenKeys.within_nil d.keys).truncate hkeys
    simp only [hpasses, hclosed]

end Decoder

/-- From `s` to `s'` the bytes are whole items. -/
def WholeItems (s : Reader) (items : List Value) (s' : Reader) : Prop :=
  (∀ v ∈ items, v.WellFormed) ∧ s.Takes (wireItems items) s'

/-- From `s` to `s'` the bytes are whole entries under distinct keys. -/
def WholeEntries (s : Reader) (entries : List Entry) (s' : Reader) : Prop :=
  (AssocList.keys entries).Nodup ∧
    (∀ k v, (k, v) ∈ entries → (asBytes k).length < 2 ^ 64 ∧ v.WellFormed) ∧
    s.Takes (wireEntries entries) s'

theorem WholeItems.nil (s : Reader) : WholeItems s [] s := ⟨by simp, .refl s⟩

theorem WholeEntries.nil (s : Reader) : WholeEntries s [] s := ⟨by simp, by simp, .refl s⟩

/-- The value at a reader is a container and one of its elements starts at another, what it holds
before being whole and, in a map, the element's key new. -/
inductive Holds : Reader → Reader → Prop
  | item {n : ℕ} {r s t : Reader} {items : List Value} (hhead : r.token = .ok (.list n, s))
      (hitems : WholeItems s items t) (hmore : items.length < n) : Holds r t
  | entry {n : ℕ} {r s s' t : Reader} {entries : List Entry} {key : String}
      (hhead : r.token = .ok (.map n, s)) (hentries : WholeEntries s entries s')
      (hmore : entries.length < n) (hkey : s'.text = .ok (key, t))
      (hnew : key ∉ AssocList.keys entries) : Holds r t

/-- Reading the value at a reader comes to one at another, so many containers down. -/
inductive Reaches : ℕ → Reader → Reader → Prop
  | here (r : Reader) : Reaches 0 r r
  | inside {k : ℕ} {r s t : Reader} (hholds : Holds r s) (h : Reaches k s t) : Reaches (k + 1) r t

/-- The map at a reader repeats a key in front of something that is no value. -/
def RepeatsKey (r : Reader) : Prop :=
  ∃ n s entries s' key u, r.token = .ok (.map n, s) ∧ WholeEntries s entries s' ∧
    entries.length < n ∧ s'.text = .ok (key, u) ∧ key ∈ AssocList.keys entries ∧
    ¬∃ v r', Value.WellFormed v ∧ u.Takes (wire v) r'

/-- Reading a value comes to two faults at once: a key is repeated, and what is under it is no
value. -/
def TwoFaults (r : Reader) : Prop := ∃ k t, Reaches k r t ∧ RepeatsKey t

/-- Reading a value comes to a container's head with so many containers open around it. -/
def Nests (k : ℕ) (r : Reader) : Prop :=
  ∃ t n s, Reaches k r t ∧ (t.token = .ok (.list n, s) ∨ t.token = .ok (.map n, s))

theorem TwoFaults.inside {r t : Reader} (hholds : Holds r t) (h : TwoFaults t) : TwoFaults r := by
  obtain ⟨k, u, hreaches, hrepeats⟩ := h
  exact ⟨k + 1, u, .inside hholds hreaches, hrepeats⟩

theorem Nests.inside {k : ℕ} {r t : Reader} (hholds : Holds r t) (h : Nests k t) :
    Nests (k + 1) r := by
  obtain ⟨u, n, s, hreaches, hhead⟩ := h
  exact ⟨u, n, s, .inside hholds hreaches, hhead⟩

section Same

variable {fuel n : ℕ} {r s : Reader}
  (hbelow : ∀ t, Holds r t → t.rest.length < fuel → readStreamed fuel t = readValue fuel t)
include hbelow

theorem readItems_streamed (hhead : r.token = .ok (.list n, s))
    (hs : s.rest.length < fuel) {items : List Value} {s' : Reader}
    (hitems : WholeItems s items s') {k : ℕ} (hk : items.length + k = n) :
    readItems (readStreamed fuel) k s' = readItems (readValue fuel) k s' := by
  induction k generalizing items s' with
  | zero => rfl
  | succ k ih =>
    have hlength := hitems.2.length
    have hv := hbelow s' (.item hhead hitems (by omega)) (by omega)
    simp only [readItems, Bind.bind, Except.bind, hv]
    cases hread : readValue fuel s' with
    | error e => rfl
    | ok p =>
      obtain ⟨hwell, htakes⟩ := (readValue_exact fuel s' p.1 p.2 (by omega)).mp hread
      have hrest := ih (items_snoc hitems hwell htakes) (by
        rw [List.length_append, List.length_singleton]
        omega)
      simp only [hrest]

theorem readEntries_streamed (hhead : r.token = .ok (.map n, s))
    (hs : s.rest.length < fuel) (hrepeats : ¬RepeatsKey r) {entries : List Entry} {s' : Reader}
    (hentries : WholeEntries s entries s') {k : ℕ} (hk : entries.length + k = n) :
    readKeyed (readStreamed fuel) entries k s' = readEntries (readValue fuel) entries k s' := by
  induction k generalizing entries s' with
  | zero => rfl
  | succ k ih =>
    have hlength := hentries.2.2.length
    simp only [readKeyed, readEntries, Bind.bind, Except.bind]
    cases hkey : s'.text with
    | error e => rfl
    | ok p =>
      obtain ⟨key, u⟩ := p
      have hkeyLength := Reader.text_shorter hkey
      simp only [AssocList.contains_iff]
      by_cases hold : key ∈ AssocList.keys entries
      · simp only [if_pos hold]
        cases hv : readValue fuel u with
        | ok q => rfl
        | error e =>
          -- The value behind the repeated key is refused: that is a second fault.
          apply absurd _ hrepeats
          refine ⟨n, s, entries, s', key, u, hhead, hentries, by omega, hkey, hold, ?_⟩
          rintro ⟨v, r', hwell, htakes⟩
          rw [(readValue_exact fuel u v r' (by omega)).mpr ⟨hwell, htakes⟩] at hv
          cases hv
      · have hv := hbelow u (.entry hhead hentries (by omega) hkey hold) (by omega)
        simp only [if_neg hold, hv]
        cases hread : readValue fuel u with
        | error e => rfl
        | ok q =>
          obtain ⟨hwell, htakes⟩ := (readValue_exact fuel u q.1 q.2 (by omega)).mp hread
          apply ih (entries_snoc hentries hkey hold hwell htakes)
          rw [List.length_append, List.length_singleton]
          omega

end Same

theorem readStreamed_eq {fuel : ℕ} {r : Reader} (hfuel : r.rest.length < fuel)
    (hfaults : ¬TwoFaults r) : readStreamed fuel r = readValue fuel r := by
  induction fuel generalizing r with
  | zero => omega
  | succ fuel ih =>
    have hbelow : ∀ t, Holds r t → t.rest.length < fuel →
        readStreamed fuel t = readValue fuel t := by
      intro t hholds ht
      exact ih ht fun h => hfaults (h.inside hholds)
    simp only [readStreamed, readValue, Reader.node_eq_token, Bind.bind, Except.bind]
    cases htoken : r.token with
    | error e => rfl
    | ok p =>
      obtain ⟨t, s⟩ := p
      have hshort := Reader.token_shorter htoken
      cases t
      case list n =>
        have hitems := readItems_streamed hbelow htoken (by omega) (.nil s) (Nat.zero_add n)
        simp only [Except.map, Token.node, hitems]
      case map n =>
        have hrepeats : ¬RepeatsKey r := fun h => hfaults ⟨0, r, .here r, h⟩
        have hentries := readEntries_streamed hbelow htoken (by omega) hrepeats (.nil s)
          (Nat.zero_add n)
        simp only [Except.map, Token.node, hentries]
      all_goals rfl

end Guatiao.Wire
