import Guatiao.Wire.Decoder
import Guatiao.Wire.RoundTrip

/-!
# Where the two decoders agree

The tree decoder looks for a repeated key once the value under it is read, the streaming
decoder as soon as the key is read. Bytes in which a key repeats in front of something
that is no value are refused by both, for different reasons; on all others the two
answer alike, up to the depth the streaming one follows.
-/

namespace Guatiao.Wire

open Lib

variable {depth n fuel : ℕ} {read : Read} {before : List Entry} {r : Reader} {e : WireError}

theorem depth_list_le {items : List Value} :
    depth + (Value.list items).depth ≤ maxDepth ↔
      depth < maxDepth ∧ ∀ v ∈ items, depth + 1 + v.depth ≤ maxDepth := by
  have h : Value.depthItems items ≤ maxDepth - depth - 1 ↔ _ := Value.depthItems_le
  simp only [Value.depth]
  constructor
  · intro hle
    have hall := h.mp (by omega)
    exact ⟨by omega, fun v hv => by have := hall v hv; omega⟩
  · rintro ⟨hlt, hall⟩
    have := h.mpr fun v hv => by have := hall v hv; omega
    omega

theorem depth_map_le {entries : List Entry} :
    depth + (Value.map entries).depth ≤ maxDepth ↔
      depth < maxDepth ∧ ∀ k v, (k, v) ∈ entries → depth + 1 + v.depth ≤ maxDepth := by
  have h : Value.depthEntries entries ≤ maxDepth - depth - 1 ↔ _ := Value.depthEntries_le
  simp only [Value.depth]
  constructor
  · intro hle
    have hall := h.mp (by omega)
    exact ⟨by omega, fun k v hv => by have := hall k v hv; omega⟩
  · rintro ⟨hlt, hall⟩
    have := h.mpr fun k v hv => by have := hall k v hv; omega
    omega

theorem readKeyed_eq_ok {p : List Entry × Reader} :
    readKeyed read before n r = .ok p ↔ readEntries read before n r = .ok p := by
  induction n generalizing before r with
  | zero => rfl
  | succ n ih =>
    simp only [readKeyed, readEntries, Bind.bind, Except.bind]
    cases r.text with
    | error e => rfl
    | ok q =>
      obtain ⟨key, s⟩ := q
      dsimp only
      cases read s with
      | error e => split <;> simp
      | ok w =>
        dsimp only
        split
        · simp
        · exact ih

/-- A well formed value that opens no container past the bound, when `depth` are open
around it. -/
def Bounded (depth : ℕ) (v : Value) : Prop := v.WellFormed ∧ depth + v.depth ≤ maxDepth

theorem bounded_list {items : List Value} :
    Bounded depth (.list items) ↔
      items.length < 2 ^ 64 ∧ depth < maxDepth ∧ ∀ v ∈ items, Bounded (depth + 1) v := by
  rw [Bounded, wellFormed_list, depth_list_le]
  constructor
  · rintro ⟨⟨hlength, hwell⟩, hlt, hall⟩
    exact ⟨hlength, hlt, fun v hv => ⟨hwell v hv, hall v hv⟩⟩
  · rintro ⟨hlength, hlt, hall⟩
    exact ⟨⟨hlength, fun v hv => (hall v hv).1⟩, hlt, fun v hv => (hall v hv).2⟩

theorem bounded_map {entries : List Entry} :
    Bounded depth (.map entries) ↔
      entries.length < 2 ^ 64 ∧ depth < maxDepth ∧ (AssocList.keys entries).Nodup ∧
        ∀ k v, (k, v) ∈ entries → (asBytes k).length < 2 ^ 64 ∧ Bounded (depth + 1) v := by
  rw [Bounded, wellFormed_map, depth_map_le]
  constructor
  · rintro ⟨⟨hlength, hnodup, hwell⟩, hlt, hall⟩
    exact ⟨hlength, hlt, hnodup, fun k v hv =>
      ⟨(hwell k v hv).1, (hwell k v hv).2, hall k v hv⟩⟩
  · rintro ⟨hlength, hlt, hnodup, hall⟩
    exact ⟨⟨hlength, hnodup, fun k v hv => ⟨(hall k v hv).1, (hall k v hv).2.1⟩⟩, hlt,
      fun k v hv => (hall k v hv).2.2⟩

theorem readBounded_eq_ok {fuel : ℕ} {p : Value × Reader} :
    readBounded (fuel + 1) depth r = .ok p ↔
      turn (readBounded fuel (depth + 1)) (depth < maxDepth) r = .ok p := by
  simp only [readBounded, turn, Bind.bind, Except.bind, ← Nat.not_lt, ite_not]
  cases r.token with
  | error e => rfl
  | ok q =>
    obtain ⟨t, s⟩ := q
    cases t
    case map n =>
      dsimp only [Token.node]
      split
      · cases hkeyed : readKeyed (readBounded fuel (depth + 1)) [] n s with
        | ok entries => rw [readKeyed_eq_ok.mp hkeyed]
        | error e =>
          cases hentries : readEntries (readBounded fuel (depth + 1)) [] n s with
          | error e' => simp
          | ok entries =>
            rw [readKeyed_eq_ok.mpr hentries] at hkeyed
            cases hkeyed
      · rfl
    all_goals rfl

/-- The bounded descent reads a value exactly when it is well formed and within the
bound, and the bytes start with its encoding. -/
theorem readBounded_exact (fuel : ℕ) (hdepth : depth ≤ maxDepth) :
    Read.Exact (readBounded fuel depth) fuel (Bounded depth) := by
  induction fuel generalizing depth with
  | zero =>
    intro r v r' h
    omega
  | succ fuel ih =>
    intro r v r' hfuel
    rw [readBounded_eq_ok]
    apply turn_exact (fun hopens => ih hopens) (fun _ h => h.1) (fun v hv hwell => ⟨hwell, ?_⟩)
      (fun _ => bounded_list) (fun _ => bounded_map) r v r' hfuel
    omega

theorem readItems_refused {P : Value → Prop} (hread : read.Exact fuel P)
    (hrefused : ∀ r e, r.rest.length < fuel → read r = .error e → e.NotBefore r.offset)
    (hfuel : r.rest.length < fuel) (h : readItems read n r = .error e) :
    e.NotBefore r.offset := by
  induction n generalizing r with
  | zero => cases h
  | succ n ih =>
    simp only [readItems, Bind.bind, Except.bind] at h
    cases hv : read r with
    | error e' =>
      rw [hv] at h
      cases h
      exact hrefused r e hfuel hv
    | ok p =>
      obtain ⟨v, s⟩ := p
      have htakes := ((hread r v s hfuel).mp hv).2
      have hlength := htakes.length
      have hoffset := htakes.offset
      simp only [hv] at h
      cases hrest : readItems read n s with
      | error e' =>
        rw [hrest] at h
        cases h
        exact (ih (by omega) hrest).mono (by omega)
      | ok q => simp [hrest] at h

theorem readEntries_refused {P : Value → Prop} (hread : read.Exact fuel P)
    (hrefused : ∀ r e, r.rest.length < fuel → read r = .error e → e.NotBefore r.offset)
    (hfuel : r.rest.length < fuel) (h : readEntries read before n r = .error e) :
    e.NotBefore r.offset := by
  induction n generalizing r before with
  | zero => cases h
  | succ n ih =>
    simp only [readEntries, Bind.bind, Except.bind] at h
    cases htext : r.text with
    | error e' =>
      rw [htext] at h
      cases h
      exact Reader.text_refused htext
    | ok p =>
      obtain ⟨key, s⟩ := p
      have hkey := (Reader.text_eq_ok.mp htext).2
      have hkeyLength := hkey.length
      have hkeyOffset := hkey.offset
      simp only [htext] at h
      cases hv : read s with
      | error e' =>
        rw [hv] at h
        cases h
        exact (hrefused s e (by omega) hv).mono (by omega)
      | ok q =>
        obtain ⟨v, s'⟩ := q
        have htakes := ((hread s v s' (by omega)).mp hv).2
        have hlength := htakes.length
        have hoffset := htakes.offset
        simp only [hv] at h
        split at h
        · cases h
          exact Nat.le_refl _
        · exact (ih (by omega) h).mono (by omega)

theorem readValue_refused (hfuel : r.rest.length < fuel)
    (h : readValue fuel r = .error e) : e.NotBefore r.offset := by
  induction fuel generalizing r e with
  | zero => omega
  | succ fuel ih =>
    simp only [readValue, Reader.node_eq_token, Bind.bind, Except.bind] at h
    cases htoken : r.token with
    | error e' =>
      rw [htoken] at h
      cases h
      exact Reader.token_refused htoken
    | ok p =>
      obtain ⟨t, s⟩ := p
      have hshort := Reader.token_shorter htoken
      have hoffset := (Reader.token_eq_ok.mp htoken).2.offset
      simp only [htoken, Except.map] at h
      cases t
      case list n =>
        dsimp only [Token.node] at h
        cases hitems : readItems (readValue fuel) n s with
        | error e' =>
          rw [hitems] at h
          cases h
          exact (readItems_refused (readValue_exact fuel) (fun r e => ih) (by omega) hitems).mono
            (by omega)
        | ok q => simp [hitems] at h
      case map n =>
        dsimp only [Token.node] at h
        cases hentries : readEntries (readValue fuel) [] n s with
        | error e' =>
          rw [hentries] at h
          cases h
          exact (readEntries_refused (readValue_exact fuel) (fun r e => ih) (by omega)
            hentries).mono (by omega)
        | ok q => simp [hentries] at h
      all_goals cases h

/-- From `s` to `s'` the bytes are whole items, none past the bound. -/
def ItemsAt (depth : ℕ) (s : Reader) (items : List Value) (s' : Reader) : Prop :=
  (∀ v ∈ items, Bounded depth v) ∧ s.Takes (wireItems items) s'

/-- From `s` to `s'` the bytes are whole entries under distinct keys, none past the
bound. -/
def EntriesAt (depth : ℕ) (s : Reader) (entries : List Entry) (s' : Reader) : Prop :=
  (AssocList.keys entries).Nodup ∧
    (∀ k v, (k, v) ∈ entries → (asBytes k).length < 2 ^ 64 ∧ Bounded depth v) ∧
    s.Takes (wireEntries entries) s'

/-- Reading the value at a reader, with some containers open around it, comes to a value
at another, with so many open: every head on the way is a container's, and everything
passed over is well formed and within the bound. -/
inductive ComesTo : ℕ → Reader → ℕ → Reader → Prop
  | here (depth : ℕ) (r : Reader) : ComesTo depth r depth r
  | item {depth d n : ℕ} {r s s' t : Reader} {items : List Value} (hdepth : depth < maxDepth)
      (hhead : r.token = .ok (.list n, s)) (hitems : ItemsAt (depth + 1) s items s')
      (hmore : items.length < n) (h : ComesTo (depth + 1) s' d t) : ComesTo depth r d t
  | entry {depth d n : ℕ} {r s s' u t : Reader} {entries : List Entry} {key : String}
      (hdepth : depth < maxDepth) (hhead : r.token = .ok (.map n, s))
      (hentries : EntriesAt (depth + 1) s entries s') (hmore : entries.length < n)
      (hkey : s'.text = .ok (key, u)) (hnew : key ∉ AssocList.keys entries)
      (h : ComesTo (depth + 1) u d t) : ComesTo depth r d t

/-- The map at a reader repeats a key in front of something that is no well formed
value, everything before the key being well formed and within the bound. -/
def RepeatAt (depth : ℕ) (r : Reader) : Prop :=
  depth < maxDepth ∧ ∃ n s entries s' key u, r.token = .ok (.map n, s) ∧
    EntriesAt (depth + 1) s entries s' ∧ entries.length < n ∧ s'.text = .ok (key, u) ∧
    key ∈ AssocList.keys entries ∧ ¬∃ v r', Value.WellFormed v ∧ u.Takes (wire v) r'

/-- Reading a value comes to a key repeated in front of something that is no value. -/
def RepeatHides (depth : ℕ) (r : Reader) : Prop := ∃ d t, ComesTo depth r d t ∧ RepeatAt d t

/-- Reading a value comes to a container's head with as many open around it as the
streaming decoder follows. -/
def TooDeepAt (depth : ℕ) (r t : Reader) : Prop :=
  ComesTo depth r maxDepth t ∧ ∃ n s, t.token = .ok (.list n, s) ∨ t.token = .ok (.map n, s)

/-- Two answers are the same, or the first is that a container is too deep. -/
def Same {α : Type} (deep : Reader → Prop) (x y : Except WireError α) : Prop :=
  x = y ∨ ∃ t, deep t ∧ x = .error (.tooDeep t.offset)

section Same

variable {α β : Type} {deep deep' : Reader → Prop} {x y : Except WireError α}

theorem Same.refl (x : Except WireError α) : Same deep x x := .inl rfl

theorem Same.mono (h : Same deep x y) (hdeep : ∀ t, deep t → deep' t) :
    Same deep' x y := by
  rcases h with rfl | ⟨t, ht, rfl⟩
  · exact .refl x
  · exact .inr ⟨t, hdeep t ht, rfl⟩

theorem Same.bind {f g : α → Except WireError β} (h : Same deep x y)
    (hnext : ∀ a, x = .ok a → Same deep (f a) (g a)) : Same deep (x.bind f) (y.bind g) := by
  rcases h with rfl | ⟨t, ht, rfl⟩
  · cases x with
    | error e => exact .refl _
    | ok a => exact hnext a rfl
  · exact .inr ⟨t, ht, rfl⟩

end Same

section Agree

variable {fuel depth n : ℕ} {r s : Reader}

/-- Two ways of reading a value that answer the same below a container. -/
private def SameBelow (fuel depth : ℕ) : Prop :=
  ∀ s, s.rest.length < fuel → ¬RepeatHides (depth + 1) s →
    Same (TooDeepAt (depth + 1) s) (readBounded fuel (depth + 1) s) (readValue fuel s)

theorem readItems_same (hbelow : SameBelow fuel depth) (hdepth : depth < maxDepth)
    (hhead : r.token = .ok (.list n, s)) (hs : s.rest.length < fuel)
    (hhides : ¬RepeatHides depth r) {items : List Value} {s' : Reader}
    (hitems : ItemsAt (depth + 1) s items s') {k : ℕ} (hk : items.length + k = n) :
    Same (TooDeepAt depth r) (readItems (readBounded fuel (depth + 1)) k s')
      (readItems (readValue fuel) k s') := by
  induction k generalizing items s' with
  | zero => exact .refl _
  | succ k ih =>
    have hlength := hitems.2.length
    have hcomes : ∀ {d t}, ComesTo (depth + 1) s' d t → ComesTo depth r d t :=
      fun h => .item hdepth hhead hitems (by omega) h
    have hhere : ¬RepeatHides (depth + 1) s' := by
      rintro ⟨d, t, h, hrepeat⟩
      exact hhides ⟨d, t, hcomes h, hrepeat⟩
    have hv := hbelow s' (by omega) hhere
    simp only [readItems, Bind.bind]
    refine (hv.mono fun t ht => And.intro (hcomes ht.1) ht.2).bind fun p hp => ?_
    obtain ⟨hbounded, htakes⟩ := (readBounded_exact fuel hdepth s' p.1 p.2 (by omega)).mp hp
    refine (ih (items_snoc hitems hbounded htakes) ?_).bind fun _ _ => .refl _
    rw [List.length_append, List.length_singleton]
    omega

theorem readEntries_same (hbelow : SameBelow fuel depth) (hdepth : depth < maxDepth)
    (hhead : r.token = .ok (.map n, s)) (hs : s.rest.length < fuel)
    (hhides : ¬RepeatHides depth r) {entries : List Entry} {s' : Reader}
    (hentries : EntriesAt (depth + 1) s entries s') {k : ℕ} (hk : entries.length + k = n) :
    Same (TooDeepAt depth r) (readKeyed (readBounded fuel (depth + 1)) entries k s')
      (readEntries (readValue fuel) entries k s') := by
  induction k generalizing entries s' with
  | zero => exact .refl _
  | succ k ih =>
    have hlength := hentries.2.2.length
    simp only [readKeyed, readEntries, Bind.bind]
    refine (Same.refl s'.text).bind fun p hkey => ?_
    obtain ⟨key, u⟩ := p
    have hkeyLength := Reader.text_shorter hkey
    dsimp only
    by_cases hold : key ∈ AssocList.keys entries
    · simp only [AssocList.contains_iff, if_pos hold]
      cases hv : readValue fuel u with
      | ok q => exact .refl _
      | error e =>
        -- The value behind the repeated key is refused: that is what nothing hides.
        refine absurd ⟨depth, r, .here depth r, hdepth, n, s, entries, s', key, u, hhead,
          hentries, by omega, hkey, hold, ?_⟩ hhides
        rintro ⟨v, r', hwell, htakes⟩
        rw [(readValue_exact fuel u v r' (by omega)).mpr ⟨hwell, htakes⟩] at hv
        cases hv
    · simp only [AssocList.contains_iff, if_neg hold]
      have hcomes : ∀ {d t}, ComesTo (depth + 1) u d t → ComesTo depth r d t :=
        fun h => .entry hdepth hhead hentries (by omega) hkey hold h
      have hhere : ¬RepeatHides (depth + 1) u := by
        rintro ⟨d, t, h, hrepeat⟩
        exact hhides ⟨d, t, hcomes h, hrepeat⟩
      have hv := hbelow u (by omega) hhere
      refine (hv.mono fun t ht => And.intro (hcomes ht.1) ht.2).bind fun q hq => ?_
      obtain ⟨hbounded, htakes⟩ := (readBounded_exact fuel hdepth u q.1 q.2 (by omega)).mp hq
      refine ih (entries_snoc hentries hkey hold hbounded htakes) ?_
      rw [List.length_append, List.length_singleton]
      omega

/-- Where no repeated key hides a refusal, the two descents answer alike, up to a
container that is too deep. -/
theorem readBounded_same (hdepth : depth ≤ maxDepth) (hfuel : r.rest.length < fuel)
    (hhides : ¬RepeatHides depth r) :
    Same (TooDeepAt depth r) (readBounded fuel depth r) (readValue fuel r) := by
  induction fuel generalizing depth r with
  | zero => omega
  | succ fuel ih =>
    simp only [readBounded, readValue, Reader.node_eq_token, Bind.bind]
    cases htoken : r.token with
    | error e => exact .refl _
    | ok p =>
      obtain ⟨t, s⟩ := p
      have hshort := Reader.token_shorter htoken
      cases t
      case list n =>
        simp only [Except.map, Except.bind, Token.node]
        split
        · next hdeep =>
          have hmax : depth = maxDepth := by omega
          subst hmax
          exact .inr ⟨r, ⟨.here _ r, n, s, .inl htoken⟩, rfl⟩
        · next hshallow =>
          have hbelow : SameBelow fuel depth := fun s hs h => ih (by omega) hs h
          exact (readItems_same hbelow (by omega) htoken (by omega) hhides
            (show ItemsAt (depth + 1) s [] s from ⟨by simp, .refl s⟩) (by simp)).bind fun _ _ => .refl _
      case map n =>
        simp only [Except.map, Except.bind, Token.node]
        split
        · next hdeep =>
          have hmax : depth = maxDepth := by omega
          subst hmax
          exact .inr ⟨r, ⟨.here _ r, n, s, .inr htoken⟩, rfl⟩
        · next hshallow =>
          have hbelow : SameBelow fuel depth := fun s hs h => ih (by omega) hs h
          exact (readEntries_same hbelow (by omega) htoken (by omega) hhides
            (show EntriesAt (depth + 1) s [] s from ⟨by simp, by simp, .refl s⟩) (by simp)).bind fun _ _ => .refl _
      all_goals exact .refl _

end Agree

theorem new_head {rest : List Entry} {key : String} {v : Value}
    (hnodup : (AssocList.keys (before ++ (key, v) :: rest)).Nodup) :
    ¬AssocList.contains key before = true := by
  rw [AssocList.contains_iff]
  rw [AssocList.keys_append, List.nodup_append] at hnodup
  intro hmem
  exact hnodup.2.2 key hmem key (by simp) rfl

section Prefix

variable {read : Read} {fuel k : ℕ} {P : Value → Prop} (hread : read.Exact fuel P)
  {s s' : Reader} (hs : s.rest.length < fuel)
include hread hs

theorem readItems_past {items : List Value} (hall : ∀ v ∈ items, P v)
    (htakes : s.Takes (wireItems items) s') :
    readItems read (items.length + k) s =
      (readItems read k s').map fun p => (items ++ p.1, p.2) := by
  induction items generalizing s with
  | nil =>
    rw [← (Reader.Takes.refl s).unique htakes, List.length_nil, Nat.zero_add]
    cases readItems read k s <;> rfl
  | cons v rest ih =>
    obtain ⟨u, hv, hrest⟩ := htakes.split
    have hlength := hv.length
    have hok := (hread s v u hs).mpr ⟨hall v (List.mem_cons_self ..), hv⟩
    rw [List.length_cons, Nat.add_right_comm]
    simp only [readItems, hok, Bind.bind, Except.bind]
    rw [ih (by omega) (fun w hw => hall w (List.mem_cons_of_mem _ hw)) hrest]
    cases readItems read k s' <;> rfl

theorem text_then_value {key : String} {v : Value} {u : Reader}
    (hkey : (asBytes key).length < 2 ^ 64) (hP : P v)
    (htakes : s.Takes (putBytes (asBytes key) ++ wire v) u) :
    ∃ u', s.text = .ok (key, u') ∧ read u' = .ok (v, u) ∧ u.rest.length < fuel := by
  obtain ⟨u', hk, hv⟩ := htakes.split
  have hkLength := hk.length
  have hvLength := hv.length
  exact ⟨u', Reader.text_eq_ok.mpr ⟨hkey, hk⟩, (hread u' v u (by omega)).mpr ⟨hP, hv⟩, by omega⟩

theorem readEntries_past (before : List Entry) {entries : List Entry}
    (hnodup : (AssocList.keys (before ++ entries)).Nodup)
    (hall : ∀ k v, (k, v) ∈ entries → (asBytes k).length < 2 ^ 64 ∧ P v)
    (htakes : s.Takes (wireEntries entries) s') :
    readEntries read before (entries.length + k) s = readEntries read (before ++ entries) k s' ∧
      readKeyed read before (entries.length + k) s = readKeyed read (before ++ entries) k s' := by
  induction entries generalizing s before with
  | nil =>
    rw [← (Reader.Takes.refl s).unique htakes, List.length_nil, Nat.zero_add, List.append_nil]
    exact ⟨rfl, rfl⟩
  | cons p rest ih =>
    obtain ⟨key, v⟩ := p
    obtain ⟨u, hpair, hrest⟩ := htakes.split
    obtain ⟨hkey, hP⟩ := hall key v (List.mem_cons_self ..)
    obtain ⟨u', htext, hok, hu⟩ := text_then_value hread hs hkey hP hpair
    have hnew := new_head hnodup
    have happend : before ++ (key, v) :: rest = (before ++ [(key, v)]) ++ rest := by simp
    have hnext := ih hu _ (happend ▸ hnodup)
      (fun k w hmem => hall k w (List.mem_cons_of_mem _ hmem)) hrest
    rw [List.length_cons, Nat.add_right_comm, happend]
    simp only [readEntries, readKeyed, htext, hok, Bind.bind, Except.bind, if_neg hnew]
    exact hnext

end Prefix

/-- Where a repeated key hides a refusal, the bounded descent refuses the key and the
other what is behind it. -/
theorem readBounded_hides (hfuel : r.rest.length < fuel) (hhides : RepeatHides depth r) :
    ∃ offset e, readBounded fuel depth r = .error (.duplicateKey offset) ∧
      readValue fuel r = .error e ∧ e.NotBefore (offset + 1) := by
  obtain ⟨d, t, hcomes, hrepeat⟩ := hhides
  induction hcomes generalizing fuel with
  | here depth r =>
    obtain ⟨hdepth, n, s, entries, s', key, u, hhead, hentries, hmore, hkey, hold, hno⟩ := hrepeat
    cases fuel with
    | zero => omega
    | succ fuel =>
      have hs := Reader.token_shorter hhead
      obtain ⟨hnodup, hall, htakes⟩ := hentries
      have hlength := htakes.length
      have hu := Reader.text_shorter hkey
      have hoffset := (Reader.text_eq_ok.mp hkey).2.offset
      obtain ⟨k, rfl⟩ : ∃ k, n = entries.length + (k + 1) := ⟨n - entries.length - 1, by omega⟩
      have hstream := (readEntries_past (readBounded_exact fuel hdepth) (by omega) []
        (k := k + 1) hnodup hall htakes).2
      have htree := (readEntries_past (readValue_exact fuel) (by omega) []
        (k := k + 1) hnodup (fun k v hmem => ⟨(hall k v hmem).1, (hall k v hmem).2.1⟩) htakes).1
      have hrefused : ∃ e, readValue fuel u = .error e := by
        cases hv : readValue fuel u with
        | error e => exact ⟨e, rfl⟩
        | ok p =>
          refine absurd ⟨p.1, p.2, ?_⟩ hno
          exact (readValue_exact fuel u p.1 p.2 (by omega)).mp hv
      obtain ⟨e, hv⟩ := hrefused
      have hat : s'.offset + 1 ≤ u.offset := by
        have := List.length_pos_iff.mpr (putLen_ne_nil (asBytes key).length)
        rw [putBytes, List.length_append] at hoffset
        omega
      refine ⟨s'.offset, e, ?_, ?_, (readValue_refused (by omega) hv).mono hat⟩
      · simp only [readBounded, hhead, Bind.bind, Except.bind]
        rw [if_neg (by omega), hstream]
        simp [readKeyed, hkey, hold, Bind.bind, Except.bind]
      · simp only [readValue, Reader.node_eq_token, hhead, Except.map, Token.node, Bind.bind,
          Except.bind]
        rw [htree]
        simp [readEntries, hkey, hv, Bind.bind, Except.bind]
  | @item depth d n r s s' t items hdepth hhead hitems hmore hcomes ih =>
    cases fuel with
    | zero => omega
    | succ fuel =>
      have hs := Reader.token_shorter hhead
      obtain ⟨hall, htakes⟩ := hitems
      have hlength := htakes.length
      have hfuel' : s'.rest.length < fuel := by omega
      obtain ⟨offset, e, hbounded, hvalue, hlater⟩ := ih hfuel' hrepeat
      obtain ⟨k, rfl⟩ : ∃ k, n = items.length + (k + 1) := ⟨n - items.length - 1, by omega⟩
      have hstream := readItems_past (readBounded_exact fuel hdepth) (by omega) (k := k + 1)
        hall htakes
      have htree := readItems_past (readValue_exact fuel) (by omega) (k := k + 1)
        (fun v hv => (hall v hv).1) htakes
      refine ⟨offset, e, ?_, ?_, hlater⟩
      · simp only [readBounded, hhead, Bind.bind, Except.bind]
        rw [if_neg (by omega), hstream]
        simp [readItems, hbounded, Bind.bind, Except.bind, Except.map]
      · simp only [readValue, Reader.node_eq_token, hhead, Except.map, Token.node, Bind.bind,
          Except.bind]
        rw [htree]
        simp [readItems, hvalue, Bind.bind, Except.bind, Except.map]
  | @entry depth d n r s s' u t entries key hdepth hhead hentries hmore hkey hnew hcomes ih =>
    cases fuel with
    | zero => omega
    | succ fuel =>
      have hs := Reader.token_shorter hhead
      have hu := Reader.text_shorter hkey
      obtain ⟨hnodup, hall, htakes⟩ := hentries
      have hlength := htakes.length
      have hfuel' : u.rest.length < fuel := by omega
      obtain ⟨offset, e, hbounded, hvalue, hlater⟩ := ih hfuel' hrepeat
      obtain ⟨k, rfl⟩ : ∃ k, n = entries.length + (k + 1) := ⟨n - entries.length - 1, by omega⟩
      have hstream := (readEntries_past (readBounded_exact fuel hdepth) (by omega) []
        (k := k + 1) hnodup hall htakes).2
      have htree := (readEntries_past (readValue_exact fuel) (by omega) []
        (k := k + 1) hnodup (fun k v hmem => ⟨(hall k v hmem).1, (hall k v hmem).2.1⟩) htakes).1
      refine ⟨offset, e, ?_, ?_, hlater⟩
      · simp only [readBounded, hhead, Bind.bind, Except.bind]
        rw [if_neg (by omega), hstream]
        simp [readKeyed, hkey, hnew, hbounded, Bind.bind, Except.bind]
      · simp only [readValue, Reader.node_eq_token, hhead, Except.map, Token.node, Bind.bind,
          Except.bind]
        rw [htree]
        simp [readEntries, hkey, hvalue, Bind.bind, Except.bind]

/-- The two decoders agree on some bytes: the same value, or the same refusal at the
same offset, unless the streaming one comes to a container nested past its bound. -/
def Agrees (streamSeeds treeSeeds : Seeded) (bytes : List UInt8) : Prop :=
  Same (TooDeepAt 0 (.start bytes 0)) (decodeAs streamSeeds bytes) (decode treeSeeds bytes)

/-- The streaming decoder agrees with the tree decoder exactly on the bytes in which no
key repeats in front of something that is not a value. -/
theorem decodeAs_agrees_iff (streamSeeds treeSeeds : Seeded) (bytes : List UInt8) :
    Agrees streamSeeds treeSeeds bytes ↔ ¬RepeatHides 0 (.start bytes 0) := by
  have hfuel : (Reader.start bytes 0).rest.length < bytes.length + 1 := Nat.lt_succ_self _
  rw [Agrees, decodeAs_eq, decode, decodeSeeded_eq, descendBounded, descend]
  constructor
  · intro hsame hhides
    obtain ⟨offset, e, hstream, htree, hlater⟩ := readBounded_hides hfuel hhides
    simp only [hstream, htree, Bind.bind, Except.bind] at hsame
    rcases hsame with heq | ⟨t, -, heq⟩
    · cases heq
      simp only [WireError.NotBefore] at hlater
      omega
    · cases heq
  · intro hhides
    exact (readBounded_same (by decide) hfuel hhides).bind fun _ _ => .refl _

/-- A map that repeats the key `a` in front of an unknown tag. -/
def repeatedThenUnknown : List UInt8 := [7, 2, 1, 97, 1, 1, 97, 99]

/-- The streaming decoder refuses the key, the tree decoder the tag behind it. -/
theorem decodeAs_disagrees :
    decodeAs ⟨0, 0⟩ repeatedThenUnknown = .error (.duplicateKey 5) ∧
      decode ⟨0, 0⟩ repeatedThenUnknown = .error (.unknownTag 7 99) ∧
      ¬Agrees ⟨0, 0⟩ ⟨0, 0⟩ repeatedThenUnknown := by
  have hstream : decodeAs ⟨0, 0⟩ repeatedThenUnknown = .error (.duplicateKey 5) := by
    rw [decodeAs_eq]
    decide +kernel
  have htree : decode ⟨0, 0⟩ repeatedThenUnknown = .error (.unknownTag 7 99) := by
    rw [decode, decodeSeeded_eq]
    decide +kernel
  refine ⟨hstream, htree, ?_⟩
  rintro (heq | ⟨t, -, heq⟩)
  · rw [hstream, htree] at heq
    cases heq
  · rw [hstream] at heq
    cases heq

end Guatiao.Wire
