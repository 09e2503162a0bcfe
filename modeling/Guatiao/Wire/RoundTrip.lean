import Guatiao.Wire.Decode

/-!
# The wire format is one spelling a value

Reading is characterised piece by piece: a reader answers a value exactly when the
value is well formed and the bytes start with its encoding. The round trip and its
converse are the two directions of that one statement.
-/

namespace Guatiao

open Lib

/-- What every node a program builds has: distinct keys in a map, and lengths a
machine word holds. -/
def Value.NodeOk : Value → Prop
  | .number n => (asBytes n.text).length < 2 ^ 64
  | .string text => (asBytes text).length < 2 ^ 64
  | .bytes data => data.length < 2 ^ 64
  | .list items => items.length < 2 ^ 64
  | .map entries => entries.length < 2 ^ 64 ∧ (AssocList.keys entries).Nodup ∧
      ∀ k ∈ AssocList.keys entries, (asBytes k).length < 2 ^ 64
  | _ => True

/-- A well formed value: no map repeats a key, and every length fits. -/
def Value.WellFormed (v : Value) : Prop := v.Everywhere Value.NodeOk

theorem Value.WellFormed.distinct {v : Value} (h : v.WellFormed) : v.Distinct := by
  apply Value.Everywhere.mono h
  rintro w hw entries rfl
  exact hw.2.1

namespace Wire

/-- The head of a value: what its encoding starts with. -/
def headOf : Value → Token
  | .absent => .absent
  | .null => .null
  | .bool b => .bool b
  | .number n => .number n
  | .string text => .string text
  | .bytes data => .bytes data
  | .list items => .list items.length
  | .map entries => .map entries.length

/-- The part of a value's encoding behind its head. -/
def bodyOf : Value → List UInt8
  | .list items => wireItems items
  | .map entries => wireEntries entries
  | _ => []

theorem wire_eq (v : Value) : wire v = (headOf v).wire ++ bodyOf v := by
  cases v <;> simp [wire, headOf, bodyOf, Token.wire]

theorem length_le_wireItems (items : List Value) : items.length ≤ (wireItems items).length := by
  induction items with
  | nil => simp
  | cons v rest ih =>
    have := wire_length_pos v
    simp only [wireItems, List.length_cons, List.length_append]
    omega

theorem length_le_wireEntries (entries : List Entry) :
    entries.length ≤ (wireEntries entries).length := by
  induction entries with
  | nil => simp
  | cons p rest ih =>
    obtain ⟨key, v⟩ := p
    have := wire_length_pos v
    simp only [wireEntries, List.length_cons, List.length_append]
    omega

theorem items_snoc {P : Value → Prop} {s s' u : Reader} {items : List Value} {v : Value}
    (h : (∀ w ∈ items, P w) ∧ s.Takes (wireItems items) s') (hv : P v)
    (htakes : s'.Takes (wire v) u) :
    (∀ w ∈ items ++ [v], P w) ∧ s.Takes (wireItems (items ++ [v])) u := by
  refine ⟨?_, ?_⟩
  · intro w hw
    rcases List.mem_append.mp hw with hw | hw
    · exact h.1 w hw
    · rw [List.mem_singleton.mp hw]
      exact hv
  · rw [wireItems_append]
    simpa [wireItems] using h.2.trans htakes

theorem entries_snoc {P : Value → Prop} {s s' t u : Reader} {entries : List Entry} {key : String}
    {v : Value}
    (h : (AssocList.keys entries).Nodup ∧
      (∀ k w, (k, w) ∈ entries → (asBytes k).length < 2 ^ 64 ∧ P w) ∧
      s.Takes (wireEntries entries) s')
    (hkey : s'.text = .ok (key, t)) (hnew : key ∉ AssocList.keys entries) (hv : P v)
    (htakes : t.Takes (wire v) u) :
    (AssocList.keys (entries ++ [(key, v)])).Nodup ∧
      (∀ k w, (k, w) ∈ entries ++ [(key, v)] → (asBytes k).length < 2 ^ 64 ∧ P w) ∧
      s.Takes (wireEntries (entries ++ [(key, v)])) u := by
  obtain ⟨hnodup, hall, hbefore⟩ := h
  obtain ⟨hlength, hkeyTakes⟩ := Reader.text_eq_ok.mp hkey
  refine ⟨?_, ?_, ?_⟩
  · rw [AssocList.keys_append]
    exact hnodup.append (by simp) (by simpa using hnew)
  · intro k w hw
    rcases List.mem_append.mp hw with hw | hw
    · exact hall k w hw
    · cases List.mem_singleton.mp hw
      exact ⟨hlength, hv⟩
  · rw [wireEntries_append]
    simpa [wireEntries] using hbefore.trans (hkeyTakes.trans htakes)

/-- A way of reading that takes exactly the values satisfying `P`, on readers with
fewer than `fuel` bytes left. -/
def Read.Exact (read : Read) (fuel : ℕ) (P : Value → Prop) : Prop :=
  ∀ r v r', r.rest.length < fuel → (read r = .ok (v, r') ↔ P v ∧ r.Takes (wire v) r')

section Exact

variable {read : Read} {fuel : ℕ} {P : Value → Prop} (hread : read.Exact fuel P)
include hread

theorem readItems_eq_ok {n : ℕ} {r r' : Reader} {items : List Value}
    (hfuel : r.rest.length < fuel) :
    readItems read n r = .ok (items, r') ↔
      items.length = n ∧ (∀ v ∈ items, P v) ∧ r.Takes (wireItems items) r' := by
  induction n generalizing r items with
  | zero =>
    simp only [readItems, Except.ok.injEq, Prod.mk.injEq, List.length_eq_zero_iff]
    constructor
    · rintro ⟨rfl, rfl⟩
      exact ⟨rfl, by simp, .refl r⟩
    · rintro ⟨rfl, -, htakes⟩
      exact ⟨rfl, (Reader.Takes.refl r).unique htakes⟩
  | succ n ih =>
    constructor
    · intro h
      obtain ⟨⟨v, s⟩, hv, h⟩ := bind_eq_ok h
      obtain ⟨hP, htakes⟩ := (hread r v s hfuel).mp hv
      have hlength := htakes.length
      obtain ⟨⟨rest, s'⟩, hrest, h⟩ := bind_eq_ok h
      cases h
      obtain ⟨hn, hall, htakes'⟩ := (ih (by omega)).mp hrest
      exact ⟨by simp [hn], by simpa using ⟨hP, hall⟩, htakes.trans htakes'⟩
    · rintro ⟨hn, hall, htakes⟩
      cases items with
      | nil => simp at hn
      | cons v rest =>
        obtain ⟨s, hv, hrest⟩ := htakes.split
        have hlength := hv.length
        rw [readItems, (hread r v s hfuel).mpr ⟨hall v (List.mem_cons_self ..), hv⟩]
        simp only [Bind.bind, Except.bind, (ih (r := s) (by omega)).mpr
          ⟨by simpa using hn, fun w hw => hall w (List.mem_cons_of_mem _ hw), hrest⟩]

/-- Reading entries one by one takes the encodings of entries whose keys are new. -/
theorem readEntries_eq_ok {n : ℕ} {r r' : Reader} (before : List Entry) {entries : List Entry}
    (hfuel : r.rest.length < fuel) (hbefore : (AssocList.keys before).Nodup) :
    readEntries read before n r = .ok (entries, r') ↔
      ∃ added, entries = before ++ added ∧ added.length = n ∧ (AssocList.keys entries).Nodup ∧
        (∀ k v, (k, v) ∈ added → (asBytes k).length < 2 ^ 64 ∧ P v) ∧
        r.Takes (wireEntries added) r' := by
  induction n generalizing r before with
  | zero =>
    simp only [readEntries, Except.ok.injEq, Prod.mk.injEq, List.length_eq_zero_iff]
    constructor
    · rintro ⟨rfl, rfl⟩
      exact ⟨[], by simp, rfl, hbefore, by simp, .refl r⟩
    · rintro ⟨_, rfl, rfl, -, -, htakes⟩
      exact ⟨(List.append_nil _).symm, (Reader.Takes.refl r).unique htakes⟩
  | succ n ih =>
    constructor
    · intro h
      obtain ⟨⟨key, s⟩, htext, h⟩ := bind_eq_ok h
      obtain ⟨hkey, htakes⟩ := Reader.text_eq_ok.mp htext
      have hlength := htakes.length
      obtain ⟨⟨v, s'⟩, hv, h⟩ := bind_eq_ok h
      obtain ⟨hP, htakes'⟩ := (hread s v s' (by omega)).mp hv
      have hlength' := htakes'.length
      dsimp only at h
      split at h
      · cases h
      · next hnew =>
        rw [AssocList.contains_iff] at hnew
        have hnodup : (AssocList.keys (before ++ [(key, v)])).Nodup := by
          rw [AssocList.keys_append]
          exact hbefore.append (by simp) (by simpa using hnew)
        obtain ⟨added, rfl, hn, hall, hadded, hrest⟩ := (ih _ (by omega) hnodup).mp h
        refine ⟨(key, v) :: added, by simp, by simp [hn], hall, ?_, ?_⟩
        · intro k w hmem
          rcases List.mem_cons.mp hmem with heq | hmem
          · cases heq
            exact ⟨hkey, hP⟩
          · exact hadded k w hmem
        · exact (htakes.trans htakes').trans hrest
    · rintro ⟨added, rfl, hn, hall, hadded, htakes⟩
      cases added with
      | nil => simp at hn
      | cons p rest =>
        obtain ⟨key, v⟩ := p
        obtain ⟨hkey, hP⟩ := hadded key v (List.mem_cons_self ..)
        obtain ⟨s', hpair, hrest⟩ := htakes.split
        obtain ⟨s, hk, hv⟩ := hpair.split
        have hlength := hk.length
        have hlength' := hv.length
        have hnew : key ∉ AssocList.keys before := by
          rw [AssocList.keys_append, List.nodup_append] at hall
          intro hmem
          exact hall.2.2 key hmem key (by simp) rfl
        have happend : before ++ (key, v) :: rest = (before ++ [(key, v)]) ++ rest := by simp
        rw [readEntries, Reader.text_eq_ok.mpr ⟨hkey, hk⟩]
        simp only [Bind.bind, Except.bind, (hread s v s' (by omega)).mpr ⟨hP, hv⟩]
        rw [if_neg (by rwa [AssocList.contains_iff])]
        refine (ih _ (by omega) ?_).mpr ⟨rest, happend, by simpa using hn, hall, ?_, hrest⟩
        · rw [happend, AssocList.keys_append] at hall
          exact (List.nodup_append.mp hall).1
        · exact fun k w hmem => hadded k w (List.mem_cons_of_mem _ hmem)

end Exact

theorem wellFormed_list {items : List Value} :
    (Value.list items).WellFormed ↔ items.length < 2 ^ 64 ∧ ∀ v ∈ items, v.WellFormed :=
  Value.everywhere_list

theorem wellFormed_map {entries : List Entry} :
    (Value.map entries).WellFormed ↔ entries.length < 2 ^ 64 ∧ (AssocList.keys entries).Nodup ∧
      ∀ k v, (k, v) ∈ entries → (asBytes k).length < 2 ^ 64 ∧ v.WellFormed := by
  simp only [Value.WellFormed, Value.everywhere_map, Value.NodeOk]
  constructor
  · rintro ⟨⟨hlength, hnodup, hkeys⟩, hall⟩
    exact ⟨hlength, hnodup, fun k v h => ⟨hkeys k (AssocList.key_mem h), hall k v h⟩⟩
  · rintro ⟨hlength, hnodup, hall⟩
    refine ⟨⟨hlength, hnodup, fun k hk => ?_⟩, fun k v h => (hall k v h).2⟩
    obtain ⟨⟨k, v⟩, hmem, rfl⟩ := List.mem_map.mp hk
    exact (hall k v hmem).1

theorem headOf_fits {v : Value} {rest : List UInt8} {n : ℕ} (hwell : v.WellFormed)
    (hlength : rest.length = (bodyOf v).length + n) : (headOf v).Fits rest := by
  cases v
  case list items =>
    have := length_le_wireItems items
    exact ⟨(wellFormed_list.mp hwell).1, by simp only [bodyOf] at hlength; omega⟩
  case map entries =>
    have := length_le_wireEntries entries
    exact ⟨(wellFormed_map.mp hwell).1, by simp only [bodyOf] at hlength; omega⟩
  all_goals exact hwell

/-- One node read by what reads the nodes below it, where a container is read only if it `opens`. -/
def turn (below : Read) (opens : Prop) [Decidable opens] : Read := fun r => do
  let (token, s) ← r.token
  match token.node with
  | .leaf v => .ok (v, s)
  | .list n =>
    if opens then
      let (items, s) ← readItems below n s
      .ok (.list items, s)
    else .error (.tooDeep r.offset)
  | .map n =>
    if opens then
      let (entries, s) ← readEntries below [] n s
      .ok (.map entries, s)
    else .error (.tooDeep r.offset)

/-- A node is read exactly when the nodes below it are. -/
theorem turn_exact {below : Read} {fuel : ℕ} {P Q : Value → Prop} {opens : Prop} [Decidable opens]
    (hbelow : opens → below.Exact fuel Q) (hwell : ∀ v, P v → v.WellFormed)
    (hleaf : ∀ v, v.depth = 0 → v.WellFormed → P v)
    (hlist : ∀ items, P (.list items) ↔ items.length < 2 ^ 64 ∧ opens ∧ ∀ v ∈ items, Q v)
    (hmap : ∀ entries, P (.map entries) ↔ entries.length < 2 ^ 64 ∧ opens ∧
      (AssocList.keys entries).Nodup ∧
        ∀ k v, (k, v) ∈ entries → (asBytes k).length < 2 ^ 64 ∧ Q v) :
    (turn below opens).Exact (fuel + 1) P := by
  intro r v r' hfuel
  have hhead : ∀ t s, r.token = .ok (t, s) → s.rest.length < fuel := by
    intro t s h
    have := Reader.token_shorter h
    omega
  rw [wire_eq]
  constructor
  · intro h
    obtain ⟨⟨t, s⟩, htoken, h⟩ := bind_eq_ok h
    have hs := hhead t s htoken
    obtain ⟨hfits, htakes⟩ := Reader.token_eq_ok.mp htoken
    cases t
    case list n =>
      dsimp only [Token.node] at h
      split at h
      · next hopens =>
        obtain ⟨⟨items, s'⟩, hitems, h⟩ := bind_eq_ok h
        cases h
        obtain ⟨rfl, hall, hbody⟩ := (readItems_eq_ok (hbelow hopens) hs).mp hitems
        exact ⟨(hlist _).mpr ⟨hfits.1, hopens, hall⟩, htakes.trans hbody⟩
      · cases h
    case map n =>
      dsimp only [Token.node] at h
      split at h
      · next hopens =>
        obtain ⟨⟨entries, s'⟩, hentries, h⟩ := bind_eq_ok h
        cases h
        obtain ⟨added, rfl, rfl, hnodup, hall, hbody⟩ :=
          (readEntries_eq_ok (hbelow hopens) [] hs (by simp)).mp hentries
        exact ⟨(hmap _).mpr ⟨hfits.1, hopens, hnodup, hall⟩, htakes.trans hbody⟩
      · cases h
    all_goals
      cases h
      exact ⟨hleaf _ rfl hfits, htakes.trans (Reader.Takes.refl _)⟩
  · rintro ⟨hP, htakes⟩
    obtain ⟨s, htoken, hbody⟩ := htakes.split
    have hok := Reader.token_eq_ok.mpr ⟨headOf_fits (hwell v hP) hbody.length, htoken⟩
    have hs := hhead _ s hok
    simp only [turn, hok, Bind.bind, Except.bind]
    cases v
    case list items =>
      obtain ⟨-, hopens, hall⟩ := (hlist items).mp hP
      have hread := (readItems_eq_ok (hbelow hopens) hs).mpr ⟨rfl, hall, hbody⟩
      simp only [headOf, Token.node, if_pos hopens, hread]
    case map entries =>
      obtain ⟨-, hopens, hnodup, hall⟩ := (hmap entries).mp hP
      have hread := (readEntries_eq_ok (hbelow hopens) [] hs (by simp)).mpr
        ⟨entries, rfl, rfl, hnodup, hall, hbody⟩
      simp only [headOf, Token.node, if_pos hopens, hread, List.nil_append]
    all_goals
      have heq := (Reader.Takes.refl s).unique hbody
      subst heq
      rfl

theorem readValue_exact (fuel : ℕ) : Read.Exact (readValue fuel) fuel Value.WellFormed := by
  induction fuel with
  | zero =>
    intro r v r' h
    omega
  | succ fuel ih =>
    have hturn : readValue (fuel + 1) = turn (readValue fuel) True := by
      funext r
      simp only [readValue, turn, Reader.node_eq_token, if_true]
      cases r.token <;> rfl
    rw [hturn]
    apply turn_exact (fun _ => ih) (fun _ h => h) (fun _ _ h => h)
    · simp [wellFormed_list]
    · simp [wellFormed_map]

/-- Bytes decode to a value exactly when it is well formed and they are its encoding, wherever their
offsets begin. -/
theorem decodeSeeded_eq_ok {seeds : Seeded} {bytes : List UInt8} {base : ℕ} {v : Value} :
    decodeSeeded seeds bytes base = .ok v ↔ v.WellFormed ∧ toBytes v = bytes := by
  have hexact := readValue_exact (bytes.length + 1) (.start bytes base)
  rw [decodeSeeded_eq, descend, toBytes_eq]
  constructor
  · intro h
    obtain ⟨⟨w, r⟩, hread, h⟩ := bind_eq_ok h
    obtain ⟨hwell, hrest, -⟩ := (hexact w r (Nat.lt_succ_self _)).mp hread
    dsimp only at h
    split at h
    · cases h
    · next hdone =>
      cases h
      rw [not_not] at hdone
      exact ⟨hwell, by simpa [Reader.start, hdone] using hrest.symm⟩
  · rintro ⟨hwell, rfl⟩
    have hread := (hexact v ⟨[], (wire v).length, base⟩ (Nat.lt_succ_self _)).mpr
      ⟨hwell, by simp [Reader.start], by simp [Reader.start], rfl⟩
    simp [Bind.bind, Except.bind, hread]

theorem decode_eq_ok {seeds : Seeded} {bytes : List UInt8} {v : Value} :
    decode seeds bytes = .ok v ↔ v.WellFormed ∧ toBytes v = bytes :=
  decodeSeeded_eq_ok

/-- The wire format is a canonical bijection: decoding what was encoded gives the value
back, and encoding what was decoded gives the bytes back. -/
theorem wire_bijection (seeds : Seeded) :
    (∀ v : Value, v.WellFormed → decode seeds (toBytes v) = .ok v) ∧
      (∀ (bytes : List UInt8) (v : Value), decode seeds bytes = .ok v → toBytes v = bytes) := by
  refine ⟨fun v hwell => decode_eq_ok.mpr ⟨hwell, rfl⟩, fun bytes v h => ?_⟩
  exact (decode_eq_ok.mp h).2

/-- A map holding the text and the bytes `ab`, and a list under the empty key. -/
def sampleTree : Value :=
  .map [("b", .string "ab"), ("a", .bytes [97, 98]), ("", .list [.list [], .null])]

/-- Each length is one byte, and the bytes and the text differ in their tag alone. -/
theorem wire_bijection_sample :
    decode ⟨1, 2⟩ (toBytes sampleTree) = .ok sampleTree ∧
      toBytes sampleTree =
        [7, 3, 1, 98, 4, 2, 97, 98, 1, 97, 5, 2, 97, 98, 0, 6, 2, 6, 0, 1] := by
  refine ⟨(wire_bijection ⟨1, 2⟩).1 sampleTree ?_, (wire_bijection ⟨1, 2⟩).2 _ _ ?_⟩
  · simp only [sampleTree, wellFormed_map]
    refine ⟨by decide, by decide, ?_⟩
    intro k v h
    simp only [List.mem_cons, Prod.mk.injEq, List.not_mem_nil, or_false] at h
    rcases h with ⟨rfl, rfl⟩ | ⟨rfl, rfl⟩ | ⟨rfl, rfl⟩
    · exact ⟨by decide, show (asBytes "ab").length < 2 ^ 64 by decide⟩
    · exact ⟨by decide, show [97, 98].length < 2 ^ 64 by decide⟩
    · refine ⟨by decide, wellFormed_list.mpr ⟨by decide, ?_⟩⟩
      intro w hw
      simp only [List.mem_cons, List.not_mem_nil, or_false] at hw
      rcases hw with rfl | rfl
      · exact wellFormed_list.mpr ⟨by decide, by simp⟩
      · exact trivial
  · rw [decode, decodeSeeded_eq]
    decide +kernel

theorem foldl_encode (vs : List Value) (out : List UInt8) :
    vs.foldl (fun out v => encode v out) out = out ++ wireItems vs := by
  induction vs generalizing out with
  | nil => simp [wireItems]
  | cons v vs ih => rw [List.foldl_cons, ih, encode_eq, wireItems, List.append_assoc]

/-- Bytes start with the encoding of one value at most, and what is behind it is the same. -/
theorem wire_apart {v v' : Value} {rest rest' : List UInt8} (hv : v.WellFormed) (hv' : v'.WellFormed)
    (h : wire v ++ rest = wire v' ++ rest') : v = v' ∧ rest = rest' := by
  have hexact := readValue_exact ((wire v ++ rest).length + 1) ⟨wire v ++ rest, 0, 0⟩
  have hread := (hexact v ⟨rest, (wire v).length, 0⟩ (Nat.lt_succ_self _)).mpr ⟨hv, rfl, by simp, rfl⟩
  have hread' := (hexact v' ⟨rest', (wire v').length, 0⟩ (Nat.lt_succ_self _)).mpr ⟨hv', h, by simp, rfl⟩
  rw [hread] at hread'
  cases hread'
  exact ⟨rfl, rfl⟩

/-- The bytes of values encoded one after the other start those of others exactly when the values do:
nothing is needed between them, and nothing said of how many they are. -/
theorem encode_prefix_iff (vs vs' : List Value) (hvs : ∀ v ∈ vs, v.WellFormed)
    (hvs' : ∀ v ∈ vs', v.WellFormed) (out : List UInt8) :
    vs.foldl (fun out v => encode v out) out <+: vs'.foldl (fun out v => encode v out) out ↔
      vs <+: vs' := by
  rw [foldl_encode, foldl_encode, List.prefix_append_right_inj]
  constructor
  · intro h
    induction vs generalizing vs' with
    | nil => exact List.nil_prefix
    | cons v vs ih =>
      cases vs' with
      | nil =>
        have hlength := length_le_wireItems (v :: vs)
        rw [List.prefix_nil.mp h] at hlength
        cases hlength
      | cons v' vs' =>
        obtain ⟨rest, hrest⟩ := h
        rw [wireItems, wireItems, List.append_assoc] at hrest
        obtain ⟨rfl, hbehind⟩ := wire_apart (hvs v List.mem_cons_self) (hvs' v' List.mem_cons_self) hrest
        apply List.cons_prefix_cons.mpr ⟨rfl, ih _ ?_ ?_ ⟨rest, hbehind⟩⟩
        · exact fun w hw => hvs w (List.mem_cons_of_mem _ hw)
        · exact fun w hw => hvs' w (List.mem_cons_of_mem _ hw)
  · rintro ⟨more, rfl⟩
    rw [wireItems_append]
    exact List.prefix_append ..

/-- A null is the start of a null and an empty list. -/
theorem encode_prefix_iff_null :
    [Value.null].foldl (fun out v => encode v out) [] <+:
        [.null, .list []].foldl (fun out v => encode v out) [] ↔
      [Value.null] <+: [.null, .list []] := by
  apply encode_prefix_iff
  · intro v hv
    obtain rfl := List.mem_singleton.mp hv
    exact trivial
  · intro v hv
    simp only [List.mem_cons, List.not_mem_nil, or_false] at hv
    rcases hv with rfl | rfl
    · exact trivial
    · exact wellFormed_list.mpr ⟨by decide, by simp⟩

end Wire

end Guatiao
