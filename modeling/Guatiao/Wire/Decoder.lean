import Guatiao.Wire.Decode

/-!
# Reading bytes with no tree in between

The streaming decoder hands each node to a builder as it reads it. The builder here is
the one that builds a value, which reads every element of a container it is handed, so
the passing over of unread elements is never reached. A refusal of the bytes is kept in
the decoder and the builder is told to stop. `readBounded` is the same reading by
descent, and the decoder is the descent.
-/

namespace Guatiao.Wire

open Lib

/-- The keys of every open map, innermost last, and the hashes of the wide ones with
where their keys start, innermost first. -/
structure OpenKeys where
  list : List String
  sets : List (ℕ × KeySet)
  seeds : Seeded

namespace OpenKeys

/-- The hashes of the innermost map, when its keys start at `start` and it has any. -/
def hashed (keys : OpenKeys) (start : ℕ) : Option KeySet :=
  match keys.sets with
  | (s, set) :: _ => if s = start then some set else none
  | [] => none

/-- Adds `key` to the map whose keys start at `start` and which holds `left` more
entries after this one: false, adding nothing, when that map already has it. -/
def insert (keys : OpenKeys) (start : ℕ) (key : String) (left : ℕ) : Bool × OpenKeys :=
  let held := keys.list.drop start
  match keys.hashed start with
  | some set =>
    let (new, set) := set.insert (asBytes key)
    let sets := (start, set) :: keys.sets.tail
    -- A hash seen before is a repeat only if the key itself is.
    if !new && held.contains key then (false, { keys with sets := sets })
    else (true, { keys with list := keys.list ++ [key], sets := sets })
  | none =>
    if held.contains key then (false, keys)
    else
      let list := keys.list ++ [key]
      let held := list.drop start
      if LINEAR < held.length + left then
        let set := held.foldl (fun set k => (set.insert (asBytes k)).2) (KeySet.new keys.seeds)
        (true, { keys with list := list, sets := (start, set) :: keys.sets })
      else (true, { keys with list := list })

/-- Forgets the keys of the maps that started at `start` or later. -/
def truncate (keys : OpenKeys) (start : ℕ) : OpenKeys :=
  { keys with
    list := keys.list.take start
    sets := keys.sets.dropWhile fun p => start ≤ p.1 }

end OpenKeys

/-- The streaming decoder: what it reads, how many containers are open, their keys, and
what the bytes were refused with. -/
structure Decoder where
  reader : Reader
  depth : ℕ
  keys : OpenKeys
  failure : Option WireError

/-- What a builder is answered, and the decoder after. -/
abbrev Built (α : Type) := Except MapError α × Decoder

/-- Goes on from what was built, unless the builder was told to stop. -/
def Built.andThen {α β : Type} (built : Built α) (next : α → Decoder → Built β) : Built β :=
  match built with
  | (.error e, d) => (.error e, d)
  | (.ok a, d) => next a d

namespace Decoder

/-- Reads `bytes`, which hold one value. -/
def new (seeds : Seeded) (bytes : List UInt8) : Decoder :=
  ⟨.start bytes 0, 0, ⟨[], [], seeds⟩, none⟩

/-- Keeps the bytes' refusal, the first one, and tells the builder the read stopped. -/
def fail {α : Type} (d : Decoder) (error : WireError) : Built α :=
  (.error .stopped, { d with failure := d.failure.or (some error) })

/-- The list builder: every item in turn. -/
def buildItems (build : Decoder → Built Value) : ℕ → List Value → Decoder → Built (List Value)
  | 0, items, d => (.ok items, d)
  | left + 1, items, d =>
    (build d).andThen fun v d => buildItems build left (items ++ [v]) d

/-- The map builder: every entry in turn, a key checked as soon as it is read. -/
def buildEntries (build : Decoder → Built Value) (start : ℕ) :
    ℕ → List Entry → Decoder → Built (List Entry)
  | 0, entries, d => (.ok entries, d)
  | left + 1, entries, d =>
    match d.reader.text with
    | .error e => d.fail e
    | .ok (key, r) =>
      match d.keys.insert start key left with
      | (false, keys) =>
        { d with reader := r, keys := keys }.fail (.duplicateKey d.reader.offset)
      | (true, keys) =>
        (build { d with reader := r, keys := keys }).andThen fun v d =>
          buildEntries build start left (entries ++ [(key, v)]) d

/-- Opens a container, hands it to its builder and closes it. -/
def container {α : Type} (d : Decoder) (offset : ℕ) (inside : Decoder → Built α) : Built α :=
  if maxDepth ≤ d.depth then d.fail (.tooDeep offset)
  else
    let (built, d') := inside { d with depth := d.depth + 1 }
    (built, { d' with keys := d'.keys.truncate d.keys.list.length, depth := d'.depth - 1 })

/-- Hands the next value to the builder of a value; `fuel` is more than the bytes that
are left. -/
def build : ℕ → Decoder → Built Value
  | 0, d => d.fail (.truncated d.reader.offset)
  | fuel + 1, d =>
    if d.failure.isSome then (.error .stopped, d)
    else
      match d.reader.token with
      | .error e => d.fail e
      | .ok (token, r) =>
        let offset := d.reader.offset
        let d := { d with reader := r }
        match token with
        | .absent => (.ok .absent, d)
        | .null => (.ok .null, d)
        | .bool b => (.ok (.bool b), d)
        | .number n => (.ok (.number n), d)
        | .string text => (.ok (.string text), d)
        | .bytes data => (.ok (.bytes data), d)
        | .list count =>
          (d.container offset (buildItems (build fuel) count [])).andThen fun items d =>
            (.ok (.list items), d)
        | .map count =>
          let start := d.keys.list.length
          (d.container offset (buildEntries (build fuel) start count [])).andThen fun entries d =>
            (.ok (.map entries), d)

/-- Finishes a read: the bytes' own refusal if there was one, else a refusal of what is
left past the value. -/
def finish (d : Decoder) : Except WireError Unit :=
  match d.failure with
  | some e => .error e
  | none => if d.reader.rest ≠ [] then .error (.trailing d.reader.offset) else .ok ()

end Decoder

/-- Reads wire bytes as a value with no tree built on the way. -/
def decodeAs (seeds : Seeded) (bytes : List UInt8) : Except WireError Value :=
  let (read, d) := Decoder.build (bytes.length + 1) (.new seeds bytes)
  match d.failure with
  | some failure => .error failure
  | none =>
    match read with
    | .error error => .error (.refused error)
    | .ok v => d.finish.map fun _ => v

/-- Reads the rest of a map's entries after some: a key that came before is refused as
soon as it is read. -/
def readKeyed (read : Read) (before : List Entry) :
    ℕ → Reader → Except WireError (List Entry × Reader)
  | 0, r => .ok (before, r)
  | n + 1, r => do
    let (key, r₁) ← r.text
    if AssocList.contains key before then .error (.duplicateKey r.offset)
    else
      let (v, r₂) ← read r₁
      readKeyed read (before ++ [(key, v)]) n r₂

/-- Reads one value under `depth` open containers, refusing one that opens a container
too deep. -/
def readBounded : ℕ → ℕ → Read
  | 0, _, r => .error (.truncated r.offset)
  | fuel + 1, depth, r => do
    let (token, r') ← r.token
    match token with
    | .absent => .ok (.absent, r')
    | .null => .ok (.null, r')
    | .bool b => .ok (.bool b, r')
    | .number n => .ok (.number n, r')
    | .string text => .ok (.string text, r')
    | .bytes data => .ok (.bytes data, r')
    | .list n =>
      if maxDepth ≤ depth then .error (.tooDeep r.offset)
      else
        let (items, r'') ← readItems (readBounded fuel (depth + 1)) n r'
        .ok (.list items, r'')
    | .map n =>
      if maxDepth ≤ depth then .error (.tooDeep r.offset)
      else
        let (entries, r'') ← readKeyed (readBounded fuel (depth + 1)) [] n r'
        .ok (.map entries, r'')

/-- Each wide map open has at least one key. -/
def OpenKeys.Sound (keys : OpenKeys) : Prop := ∀ p ∈ keys.sets, p.1 < keys.list.length

/-- `keys` with some of the keys of one more map, and perhaps their hashes. -/
def OpenKeys.Within (keys : OpenKeys) (held : List String) (inner : OpenKeys) : Prop :=
  inner.list = keys.list ++ held ∧ inner.seeds = keys.seeds ∧
    (inner.sets = keys.sets ∨
      held ≠ [] ∧ ∃ set : KeySet, set.Covers held ∧
        inner.sets = (keys.list.length, set) :: keys.sets)

namespace OpenKeys

variable {keys inner : OpenKeys} {held : List String}

theorem within_nil (keys : OpenKeys) : keys.Within [] keys := ⟨by simp, rfl, .inl rfl⟩

theorem Within.sound (h : keys.Within held inner) (hkeys : keys.Sound) : inner.Sound := by
  obtain ⟨hlist, -, hsets⟩ := h
  intro p hp
  rw [hlist, List.length_append]
  rcases hsets with hsets | ⟨hne, set, -, hsets⟩
  · rw [hsets] at hp
    have := hkeys p hp
    omega
  · rw [hsets] at hp
    have := List.length_pos_iff.mpr hne
    rcases List.mem_cons.mp hp with rfl | hp
    · simpa using this
    · have := hkeys p hp
      omega

theorem Within.truncate (h : keys.Within held inner) (hkeys : keys.Sound) :
    inner.truncate keys.list.length = keys := by
  obtain ⟨hlist, hseeds, hsets⟩ := h
  have hstay : keys.sets.dropWhile (fun p => keys.list.length ≤ p.1) = keys.sets := by
    cases hk : keys.sets with
    | nil => rfl
    | cons p rest =>
      have := hkeys p (by simp [hk])
      rw [List.dropWhile_cons_of_neg (by simpa using this)]
  have hdrop : inner.sets.dropWhile (fun p => keys.list.length ≤ p.1) = keys.sets := by
    rcases hsets with hsets | ⟨-, set, -, hsets⟩
    · rw [hsets, hstay]
    · rw [hsets, List.dropWhile_cons_of_pos (by simp), hstay]
  obtain ⟨list, sets, seeds⟩ := keys
  simp only [truncate, hlist, hdrop, hseeds, List.take_left]

theorem covers_foldl {set : KeySet} {before held : List String}
    (h : set.Covers before) :
    (held.foldl (fun set k => (set.insert (asBytes k)).2) set).Covers (before ++ held) := by
  induction held generalizing set before with
  | nil => simpa using h
  | cons k rest ih => simpa using ih (h.insert k)

theorem Within.insert (h : keys.Within held inner) (hkeys : keys.Sound) (key : String)
    (left : ℕ) :
    ∃ inner', inner.insert keys.list.length key left = (!decide (key ∈ held), inner') ∧
      keys.Within (if key ∈ held then held else held ++ [key]) inner' := by
  have hheld : inner.list.drop keys.list.length = held := by rw [h.1, List.drop_left]
  obtain ⟨hlist, hseeds, hsets | ⟨hne, set, hcovers, hsets⟩⟩ := h
  · have hhashed : inner.hashed keys.list.length = none := by
      unfold hashed
      rw [hsets]
      cases hk : keys.sets with
      | nil => rfl
      | cons p rest =>
        have := hkeys p (by simp [hk])
        exact if_neg (by omega)
    have hdrop : (inner.list ++ [key]).drop keys.list.length = held ++ [key] := by
      rw [hlist, List.append_assoc, List.drop_left]
    unfold OpenKeys.insert
    simp only [hhashed, hheld, hdrop, List.contains_iff_mem]
    by_cases hmem : key ∈ held
    · simp only [hmem, if_true, decide_true, Bool.not_true]
      exact ⟨inner, rfl, hlist, hseeds, .inl hsets⟩
    · simp only [hmem, if_false, decide_false, Bool.not_false]
      split
      · refine ⟨_, rfl, by simp [hlist], hseeds, .inr ⟨by simp, _, ?_, by rw [hsets]⟩⟩
        exact covers_foldl (KeySet.new_covers inner.seeds)
      · exact ⟨_, rfl, by simp [hlist], hseeds, .inl hsets⟩
  · have hhashed : inner.hashed keys.list.length = some set := by
      simp [hashed, hsets]
    have hrepeated := hcovers.repeated_iff key (held.contains key) (by simp)
    have htail : inner.sets.tail = keys.sets := by rw [hsets, List.tail_cons]
    have hcovered := hcovers.insert key
    unfold OpenKeys.insert
    simp only [hhashed, hheld, hrepeated, List.contains_iff_mem, htail]
    by_cases hmem : key ∈ held
    · simp only [hmem, if_true, decide_true, Bool.not_true]
      refine ⟨_, rfl, hlist, hseeds, .inr ⟨hne, _, ?_, rfl⟩⟩
      exact fun k hk => hcovered k (List.mem_append_left _ hk)
    · simp only [hmem, if_false, decide_false, Bool.not_false]
      exact ⟨_, rfl, by simp [hlist], hseeds, .inr ⟨by simp, _, hcovered, rfl⟩⟩

end OpenKeys

namespace Decoder

/-- The decoder answers what a reading does: the value and the reader behind it, or the
refusal, kept while the builder is told to stop. -/
def Answers {α : Type} (d : Decoder) (built : Built α) :
    Except WireError (α × Reader) → Prop
  | .ok (a, r) => built = (.ok a, { d with reader := r })
  | .error e => built.1 = .error .stopped ∧ built.2.failure = some e

variable {d : Decoder} {build : Decoder → Built Value} {read : Read}

theorem fail_answers {α : Type} (hd : d.failure = none) (e : WireError) :
    d.Answers (d.fail e : Built α) (.error e) := by
  simp [Answers, fail, hd]

theorem Answers.andThen {α β : Type} {built : Built α}
    {out : Except WireError (α × Reader)} (h : d.Answers built out)
    (next : α → Decoder → Built β) (rest : α × Reader → Except WireError (β × Reader))
    (hnext : ∀ a r, out = .ok (a, r) →
      d.Answers (next a { d with reader := r }) (rest (a, r))) :
    d.Answers (built.andThen next) (out.bind rest) := by
  cases out with
  | error e =>
    obtain ⟨hstop, hfail⟩ := h
    obtain ⟨answer, d'⟩ := built
    cases hstop
    exact ⟨rfl, hfail⟩
  | ok p =>
    obtain ⟨a, r⟩ := p
    simp only [Answers] at h
    rw [h]
    exact hnext a r rfl

/-- A builder and a reading that agree below `depth` open containers. -/
private def Agree (build : Decoder → Built Value) (read : Read) (depth : ℕ) : Prop :=
  ∀ d : Decoder, d.failure = none → d.keys.Sound → d.depth = depth →
    d.Answers (build d) (read d.reader)

theorem buildItems_answers (hagree : Agree build read d.depth) (hd : d.failure = none)
    (hkeys : d.keys.Sound) (n : ℕ) (items : List Value) :
    d.Answers (buildItems build n items d)
      ((readItems read n d.reader).map fun p => (items ++ p.1, p.2)) := by
  induction n generalizing d items with
  | zero => simp [buildItems, readItems, Except.map, Answers]
  | succ n ih =>
    have hrest : ((readItems read (n + 1) d.reader).map fun p => (items ++ p.1, p.2)) =
        (read d.reader).bind fun p =>
          (readItems read n p.2).map fun q => ((items ++ [p.1]) ++ q.1, q.2) := by
      simp only [readItems, Bind.bind, Except.bind]
      cases read d.reader with
      | error e => rfl
      | ok p => cases hitems : readItems read n p.2 <;> simp [Except.map, hitems]
    rw [hrest, buildItems]
    refine (hagree d hd hkeys rfl).andThen _ _ fun v r _ => ?_
    exact ih (d := { d with reader := r }) hagree hd hkeys (items ++ [v])

theorem buildEntries_answers {keys : OpenKeys} (hagree : Agree build read d.depth)
    (hd : d.failure = none) (hsound : keys.Sound) (before : List Entry)
    (hkeys : keys.Within (AssocList.keys before) d.keys) (n : ℕ) :
    ∃ inner, inner.truncate keys.list.length = keys ∧
      { d with keys := inner }.Answers (buildEntries build keys.list.length n before d)
        (readKeyed read before n d.reader) := by
  induction n generalizing d before with
  | zero => exact ⟨d.keys, hkeys.truncate hsound, rfl⟩
  | succ n ih =>
    simp only [buildEntries, readKeyed, Bind.bind, Except.bind]
    cases htext : d.reader.text with
    | error e => exact ⟨d.keys, hkeys.truncate hsound, fail_answers hd e⟩
    | ok p =>
      obtain ⟨key, r⟩ := p
      obtain ⟨inner, hk, hwithin⟩ := hkeys.insert hsound key n
      simp only [AssocList.contains_iff]
      by_cases hold : key ∈ AssocList.keys before
      · rw [if_pos hold, hk, decide_eq_true hold]
        exact ⟨d.keys, hkeys.truncate hsound, rfl, by simp [fail, hd]⟩
      · rw [if_neg hold] at hwithin ⊢
        rw [hk, decide_eq_false hold, Bool.not_false]
        have hbuild := hagree { d with reader := r, keys := inner } hd (hwithin.sound hsound) rfl
        cases hread : read r with
        | error e =>
          rw [hread] at hbuild
          exact ⟨d.keys, hkeys.truncate hsound,
            hbuild.andThen _ (fun _ => .error e) (by simp)⟩
        | ok q =>
          obtain ⟨v, r'⟩ := q
          rw [hread] at hbuild
          obtain ⟨inner', htruncate, hrest⟩ :=
            ih (d := { d with reader := r', keys := inner }) hagree hd
              (before ++ [(key, v)]) (by simpa using hwithin)
          refine ⟨inner', htruncate, ?_⟩
          simp only [Answers] at hbuild
          dsimp only
          rw [hbuild]
          exact hrest

theorem container_answers {α : Type} (offset : ℕ) {inside : Decoder → Built α}
    {out : Except WireError (α × Reader)} (hd : d.failure = none)
    (hinside : ∃ inner : OpenKeys, inner.truncate d.keys.list.length = d.keys ∧
      { d with depth := d.depth + 1, keys := inner }.Answers
        (inside { d with depth := d.depth + 1 }) out) :
    d.Answers (d.container offset inside)
      (if maxDepth ≤ d.depth then .error (.tooDeep offset) else out) := by
  unfold container
  split
  · exact fail_answers hd _
  · obtain ⟨inner, htruncate, hanswers⟩ := hinside
    cases out with
    | error e => exact hanswers
    | ok p =>
      simp only [Answers] at hanswers ⊢
      rw [hanswers]
      simp [htruncate]

theorem container_then {α : Type} (f : α → Value) {offset : ℕ}
    {inside : Decoder → Built α} {out : Except WireError (α × Reader)} (hd : d.failure = none)
    (hinside : ∃ inner : OpenKeys, inner.truncate d.keys.list.length = d.keys ∧
      { d with depth := d.depth + 1, keys := inner }.Answers
        (inside { d with depth := d.depth + 1 }) out) :
    d.Answers ((d.container offset inside).andThen fun a d => (.ok (f a), d))
      (if maxDepth ≤ d.depth then .error (.tooDeep offset)
        else out.bind fun p => .ok (f p.1, p.2)) := by
  have h := (container_answers offset hd hinside).andThen
    (fun a d => (.ok (f a), d)) (fun p => .ok (f p.1, p.2)) fun a r _ => rfl
  split
  · next hdeep => rwa [if_pos hdeep] at h
  · next hdeep => rwa [if_neg hdeep] at h

theorem build_answers (fuel : ℕ) (hd : d.failure = none) (hkeys : d.keys.Sound) :
    d.Answers (d.build fuel) (readBounded fuel d.depth d.reader) := by
  induction fuel generalizing d with
  | zero => exact fail_answers hd _
  | succ fuel ih =>
    have hagree : Agree (fun d => d.build fuel) (readBounded fuel (d.depth + 1)) (d.depth + 1) := by
      intro d' hd' hkeys' hdepth
      rw [← hdepth]
      exact ih hd' hkeys'
    rw [build, readBounded, if_neg (by simp [hd])]
    cases htoken : d.reader.token with
    | error e => exact fail_answers hd e
    | ok p =>
      obtain ⟨token, r⟩ := p
      cases token
      case list n =>
        have hitems := buildItems_answers (d := { d with reader := r, depth := d.depth + 1 }) hagree
          hd hkeys n []
        have hid : ((readItems (readBounded fuel (d.depth + 1)) n r).map
            fun p => ([] ++ p.1, p.2)) = readItems (readBounded fuel (d.depth + 1)) n r := by
          cases readItems (readBounded fuel (d.depth + 1)) n r <;> rfl
        rw [hid] at hitems
        exact container_then (d := { d with reader := r }) .list hd
          ⟨d.keys, (OpenKeys.within_nil d.keys).truncate hkeys, hitems⟩
      case map n =>
        exact container_then (d := { d with reader := r }) .map hd
          (buildEntries_answers (d := { d with reader := r, depth := d.depth + 1 }) hagree hd hkeys
            [] (OpenKeys.within_nil d.keys) n)
      all_goals rfl

end Decoder

/-- The value bytes hold, read by descent with containers bounded. -/
def descendBounded (bytes : List UInt8) : Except WireError Value := do
  let (v, r) ← readBounded (bytes.length + 1) 0 (.start bytes 0)
  if r.rest ≠ [] then .error (.trailing r.offset) else .ok v

theorem decodeAs_eq (seeds : Seeded) (bytes : List UInt8) :
    decodeAs seeds bytes = descendBounded bytes := by
  have h := Decoder.build_answers (d := .new seeds bytes) (bytes.length + 1) rfl
    (by simp [OpenKeys.Sound, Decoder.new])
  simp only [decodeAs, descendBounded, Bind.bind, Except.bind]
  simp only [Decoder.new] at h ⊢
  cases hread : readBounded (bytes.length + 1) 0 (.start bytes 0) with
  | error e =>
    rw [hread] at h
    simp only [h.2]
  | ok p =>
    obtain ⟨v, r⟩ := p
    simp only [hread, Decoder.Answers] at h
    simp only [h, Decoder.finish]
    split <;> rfl

end Guatiao.Wire
