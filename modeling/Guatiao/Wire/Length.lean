import Guatiao.Value.Stored
import Guatiao.Wire.Encode

/-!
# The length of an encoding

What a stored tree's encoding takes is computed before it is written, by a walk of its own. It is
exact, so a vector allocated once for it never grows and leaves no block with the bytes behind.
-/

namespace Guatiao.Stored

open Lib Wire

/-- What is left to write: a node, or what is left of an open container. -/
inductive Task
  | node (v : Stored)
  | items (rest : List Stored)
  | entries (rest : List (Block × Stored))

namespace Task

/-- What a task leaves to write, the first first. -/
def next : Task → List Task
  | .node (.list all _) => [.items all]
  | .node (.map all _) => [.entries all]
  | .node _ => []
  | .items [] => []
  | .items (v :: rest) => [.node v, .items rest]
  | .entries [] => []
  | .entries ((_, v) :: rest) => [.node v, .entries rest]

def size : Task → ℕ
  | .node v => 3 * v.size - 1
  | .items rest => 3 * sizeItems rest + 1
  | .entries rest => 3 * sizeEntries rest + 1

theorem size_next (t : Task) : (t.next.map size).sum < t.size := by
  have hpos (v : Stored) : 0 < v.size := by
    cases v <;> simp only [Stored.size] <;> omega
  cases t with
  | node v =>
    have hv := hpos v
    cases v <;> simp [next, size, Stored.size] <;> omega
  | items rest =>
    cases rest with
    | nil => simp [next, size, sizeItems]
    | cons v rest =>
      have hv := hpos v
      simp [next, size, sizeItems]
      omega
  | entries rest =>
    cases rest with
    | nil => simp [next, size, sizeEntries]
    | cons e rest =>
      have hv := hpos e.2
      simp [next, size, sizeEntries]
      omega

/-- The walk of the encoding. -/
def descent : Descent Task := ⟨next, size, size_next⟩

end Task

/-- What a node appends, one piece after the other: its tag and its body. -/
def nodeWrites : Stored → Except NodeError (List (List UInt8))
  | .absent => .ok [[Tag.absent.toByte]]
  | .null => .ok [[Tag.null.toByte]]
  | .bool b => .ok [[Tag.bool.toByte], [if b then 1 else 0]]
  | .number digits =>
    if isDigits digits.data then
      .ok [[Tag.number.toByte], putLen digits.data.length, digits.data]
    else .error .notANumber
  | .string text =>
    if isText text.data then .ok [[Tag.string.toByte], putLen text.data.length, text.data]
    else .error .notUtf8
  | .bytes buffer => .ok [[Tag.bytes.toByte], putLen buffer.data.length, buffer.data]
  | .list items _ => .ok [[Tag.list.toByte], putLen items.length]
  | .map entries _ =>
    if entries.all fun e => isText e.1.data then .ok [[Tag.map.toByte], putLen entries.length]
    else .error .notUtf8
  | .unknown tag _ => .error (.unknownTag tag)

/-- What a task appends: a node, or the key of the entry that comes next. -/
def Task.writes : Task → Except NodeError (List (List UInt8))
  | .node v => nodeWrites v
  | .entries ((key, _) :: _) => .ok [putLen key.data.length, key.data]
  | _ => .ok []

/-- One task of the encoding. -/
def encodeTask {S : Type} (append : S → List UInt8 → S) (out : S) (t : Task) : Except NodeError S := do
  let pieces ← t.writes
  pure (pieces.foldl append out)

/-- Appends a value to whatever takes bytes. -/
def encodeInto {S : Type} (append : S → List UInt8 → S) (v : Stored) (out : S) : Except NodeError S :=
  Task.descent.walk (encodeTask append) [.node v] out

/-- The bytes of a value. -/
def bytesOf (v : Stored) : Except NodeError (List UInt8) := encodeInto (· ++ ·) v []

/-- How many bytes a length takes, counted from some. -/
def lenSizeFrom (n size : ℕ) : ℕ := if 0x80 ≤ n then lenSizeFrom (n >>> 7) (size + 1) else size
termination_by n
decreasing_by
  rw [Nat.shiftRight_eq_div_pow]
  omega

/-- How many bytes a length takes. -/
def lenSize (n : ℕ) : ℕ := lenSizeFrom n 1

/-- How many bytes some bytes behind their length take. -/
def sized (data : List UInt8) : ℕ := lenSize data.length + data.length

/-- The length so far with a node's own part. -/
def nodeLen (n : ℕ) : Stored → Except NodeError ℕ
  | .absent | .null => .ok (n + 1)
  | .bool _ => .ok (n + 1 + 1)
  | .number digits => if isDigits digits.data then .ok (n + 1 + sized digits.data) else .error .notANumber
  | .string text => if isText text.data then .ok (n + 1 + sized text.data) else .error .notUtf8
  | .bytes buffer => .ok (n + 1 + sized buffer.data)
  | .list items _ => .ok (n + 1 + lenSize items.length)
  | .map entries _ =>
    if entries.all fun e => isText e.1.data then
      .ok (entries.foldl (fun n e => n + sized e.1.data) (n + 1 + lenSize entries.length))
    else .error .notUtf8
  | .unknown tag _ => .error (.unknownTag tag)

/-- How many bytes the encoding of a value takes. -/
def encodedLen (v : Stored) : Except NodeError ℕ := lastFirst.walk nodeLen [v] 0

/-- A vector: its bytes, the room of its block, and how often that was another. -/
structure Vector where
  bytes : List UInt8
  capacity : ℕ
  moves : ℕ

/-- Bytes appended, in a new block of at least twice the room where the old one is full. -/
def Vector.extend (out : Vector) (data : List UInt8) : Vector :=
  if out.bytes.length + data.length ≤ out.capacity then { out with bytes := out.bytes ++ data }
  else
    { bytes := out.bytes ++ data, capacity := max (2 * out.capacity) (out.bytes.length + data.length),
      moves := out.moves + 1 }

/-- The bytes of a value in a vector allocated once, at the size they take. -/
def bytesExact (v : Stored) : Except NodeError Vector := do
  let n ← encodedLen v
  encodeInto Vector.extend v ⟨[], n, 0⟩

theorem lenSizeFrom_eq (n size : ℕ) : lenSizeFrom n size + 1 = size + (putLen n).length := by
  induction n using Nat.strong_induction_on generalizing size with
  | _ n ih =>
    have hhigh : n >>> 7 = n / 128 := Nat.shiftRight_eq_div_pow n 7
    rw [lenSizeFrom, putLen]
    by_cases hlong : 0x80 ≤ n
    · have hrest := ih (n >>> 7) (by omega) (size + 1)
      rw [if_pos hlong, hrest, if_neg (by omega), List.length_cons]
      omega
    · rw [if_neg hlong, if_pos (by omega)]
      rfl

theorem lenSize_eq (n : ℕ) : lenSize n = (putLen n).length := by
  have h := lenSizeFrom_eq n 1
  rw [lenSize]
  omega

/-- How many bytes a node takes itself, with the keys of its entries. -/
def ownLen : Stored → ℕ
  | .absent | .null | .unknown _ _ => 1
  | .bool _ => 2
  | .number block | .string block | .bytes block => 1 + sized block.data
  | .list items _ => 1 + lenSize items.length
  | .map entries _ => 1 + lenSize entries.length + (entries.map fun e => sized e.1.data).sum

/-- How many bytes a tree takes. -/
def totalLen (v : Stored) : ℕ := (v.nodes.map ownLen).sum

theorem nodeLen_eq (n : ℕ) (v : Stored) : (v.passes = true → nodeLen n v = .ok (n + v.ownLen)) ∧
    (v.passes = false → ∃ e, nodeLen n v = .error e) := by
  have hkeys (entries : List (Block × Stored)) (n : ℕ) :
      entries.foldl (fun n e => n + sized e.1.data) n = n + (entries.map fun e => sized e.1.data).sum := by
    induction entries generalizing n with
    | nil => rfl
    | cons e entries ih =>
      rw [List.foldl_cons, ih, List.map_cons, List.sum_cons, Nat.add_assoc]
  cases v with
  | number digits =>
    refine ⟨fun h => ?_, fun h => ⟨.notANumber, ?_⟩⟩
    · change isDigits digits.data = true at h
      rw [nodeLen, if_pos h, ownLen, Nat.add_assoc]
    · rw [nodeLen, if_neg (by simpa [passes] using h)]
  | string text =>
    refine ⟨fun h => ?_, fun h => ⟨.notUtf8, ?_⟩⟩
    · change isText text.data = true at h
      rw [nodeLen, if_pos h, ownLen, Nat.add_assoc]
    · rw [nodeLen, if_neg (by simpa [passes] using h)]
  | map entries held =>
    refine ⟨fun h => ?_, fun h => ⟨.notUtf8, ?_⟩⟩
    · change (entries.all fun e => isText e.1.data) = true at h
      rw [nodeLen, if_pos h, hkeys, ownLen]
      congr 1
      omega
    · rw [nodeLen, if_neg (by rw [show (entries.all fun e => isText e.1.data) = false from h]; decide)]
  | unknown tag strange => exact ⟨nofun, fun _ => ⟨_, rfl⟩⟩
  | _ => exact ⟨fun _ => by simp [nodeLen, ownLen, Nat.add_assoc], nofun⟩

/-- The length is computed when every node passes its door, and is the sum of the nodes' own. -/
theorem encodedLen_eq (v : Stored) : (v.WellFormed → encodedLen v = .ok v.totalLen) ∧
    (¬ v.WellFormed → ∃ e, encodedLen v = .error e) := by
  have hfold (nodes : List Stored) (n : ℕ) :
      ((∀ v ∈ nodes, v.passes = true) → nodes.foldlM nodeLen n = .ok (n + (nodes.map ownLen).sum)) ∧
        ((¬ ∀ v ∈ nodes, v.passes = true) → ∃ e, nodes.foldlM nodeLen n = .error e) := by
    induction nodes generalizing n with
    | nil => exact ⟨fun _ => rfl, fun h => absurd nofun h⟩
    | cons w nodes ih =>
      obtain ⟨hok, herror⟩ := nodeLen_eq n w
      rw [List.foldlM_cons, List.forall_mem_cons, List.map_cons, List.sum_cons, ← Nat.add_assoc]
      cases hw : w.passes with
      | true =>
        rw [hok hw]
        obtain ⟨ihok, iherror⟩ := ih (n + w.ownLen)
        exact ⟨fun h => ihok h.2, fun h => iherror fun hrest => h ⟨rfl, hrest⟩⟩
      | false =>
        obtain ⟨e, he⟩ := herror hw
        rw [he]
        exact ⟨fun h => absurd h.1 (by decide), fun _ => ⟨e, rfl⟩⟩
  have hperm := lastFirst_perm v
  obtain ⟨hok, herror⟩ := hfold (lastFirst.visits [v]) 0
  have hmem : (∀ n ∈ lastFirst.visits [v], n.passes = true) ↔ v.WellFormed :=
    forall_congr' fun n => by rw [hperm.mem_iff]
  rw [encodedLen, Descent.walk_eq]
  refine ⟨fun h => ?_, fun h => herror fun hall => h (hmem.mp hall)⟩
  rw [hok (hmem.mpr h), (hperm.map ownLen).sum_eq, Nat.zero_add]
  rfl

theorem wellFormed_iff (v : Stored) : v.WellFormed ↔ v.passes = true ∧ ∀ c ∈ v.children, c.WellFormed := by
  unfold WellFormed
  rw [nodes_eq, List.forall_mem_cons]
  simp only [List.mem_flatMap, forall_exists_index, and_imp]
  exact and_congr_right' ⟨fun h c hc n hn => h n c hc hn, fun h n c hc hn => h c hc n hn⟩

theorem totalLen_eq (v : Stored) : v.totalLen = v.ownLen + (v.children.map totalLen).sum := by
  unfold totalLen
  rw [nodes_eq, List.map_cons, List.sum_cons]
  congr 1
  induction v.children with
  | nil => rfl
  | cons c l ih => rw [List.flatMap_cons, List.map_append, List.sum_append, ih, List.map_cons, List.sum_cons]

/-- What the encoding does with a stack: it appends pieces of so many bytes in all, or refuses. -/
structure Appends (stack : List Task) (ok : Prop) (n : ℕ) : Prop where
  done : ok → ∃ pieces : List (List UInt8), pieces.flatten.length = n ∧
    ∀ (S : Type) (append : S → List UInt8 → S) (out : S),
      Task.descent.walk (encodeTask append) stack out = .ok (pieces.foldl append out)
  refused : ¬ ok → ∀ (S : Type) (append : S → List UInt8 → S) (out : S), ∃ e,
    Task.descent.walk (encodeTask append) stack out = .error e

theorem Appends.nil : Appends [] True 0 where
  done _ := ⟨[], rfl, fun S append out => by rw [Descent.walk]; rfl⟩
  refused h := absurd trivial h

theorem Appends.append {some_ more : List Task} {ok ok' : Prop} {n n' : ℕ} (h : Appends some_ ok n)
    (h' : Appends more ok' n') : Appends (some_ ++ more) (ok ∧ ok') (n + n') where
  done hok := by
    obtain ⟨pieces, hlen, hwalk⟩ := h.done hok.1
    obtain ⟨pieces', hlen', hwalk'⟩ := h'.done hok.2
    refine ⟨pieces ++ pieces', by rw [List.flatten_append, List.length_append, hlen, hlen'], ?_⟩
    intro S append out
    rw [Descent.walk_append, hwalk, List.foldl_append]
    exact hwalk' S append _
  refused hno S append out := by
    rw [Descent.walk_append]
    by_cases hok : ok
    · obtain ⟨pieces, -, hwalk⟩ := h.done hok
      rw [hwalk]
      exact h'.refused (fun hok' => hno ⟨hok, hok'⟩) S append _
    · obtain ⟨e, he⟩ := h.refused hok S append out
      exact ⟨e, by rw [he]; rfl⟩

theorem Appends.step {t : Task} {own : List (List UInt8)} {ok : Prop} {n : ℕ} (hown : t.writes = .ok own)
    (h : Appends t.next ok n) : Appends [t] ok (own.flatten.length + n) where
  done hok := by
    obtain ⟨pieces, hlen, hwalk⟩ := h.done hok
    refine ⟨own ++ pieces, by rw [List.flatten_append, List.length_append, hlen], fun S append out => ?_⟩
    rw [Descent.walk, encodeTask, hown, List.append_nil, List.foldl_append]
    exact hwalk S append _
  refused hno S append out := by
    rw [Descent.walk, encodeTask, hown, List.append_nil]
    exact h.refused hno S append _

theorem Appends.refuse {t : Task} {e : NodeError} (h : t.writes = .error e) (n : ℕ) : Appends [t] False n where
  done := nofun
  refused _ S append out := ⟨e, by rw [Descent.walk, encodeTask, h]; rfl⟩

theorem Appends.congr {stack : List Task} {ok ok' : Prop} {n n' : ℕ} (h : Appends stack ok n)
    (hok : ok' ↔ ok) (hn : n' = n) : Appends stack ok' n' := by
  rw [propext hok, hn]
  exact h

theorem appends_items {l : List Stored} (h : ∀ v ∈ l, Appends [.node v] v.WellFormed v.totalLen) :
    Appends [.items l] (∀ v ∈ l, v.WellFormed) (l.map totalLen).sum := by
  induction l with
  | nil => exact (Appends.step (t := .items []) rfl .nil).congr (by simp) rfl
  | cons v l ih =>
    obtain ⟨hv, hl⟩ := List.forall_mem_cons.mp h
    exact (Appends.step (t := .items (v :: l)) rfl (hv.append (ih hl))).congr List.forall_mem_cons
      (by simp)

theorem appends_entries {l : List (Block × Stored)}
    (h : ∀ e ∈ l, Appends [.node e.2] e.2.WellFormed e.2.totalLen) :
    Appends [.entries l] (∀ e ∈ l, e.2.WellFormed) ((l.map fun e => sized e.1.data).sum +
      (l.map fun e => e.2.totalLen).sum) := by
  induction l with
  | nil => exact (Appends.step (t := .entries []) rfl .nil).congr (by simp) rfl
  | cons e l ih =>
    obtain ⟨he, hl⟩ := List.forall_mem_cons.mp h
    refine (Appends.step (t := .entries (e :: l)) rfl (he.append (ih hl))).congr List.forall_mem_cons ?_
    simp [sized, lenSize_eq]
    omega

/-- The encoding of a tree appends as many bytes as its nodes take. -/
theorem appends_node (v : Stored) : Appends [.node v] v.WellFormed v.totalLen := by
  have hleaf (v : Stored) (own : List (List UInt8)) (hchildren : v.children = []) (hnext : (Task.node v).next = [])
      (hpass : v.passes = true) (hown : nodeWrites v = .ok own) (hlen : own.flatten.length = v.ownLen) :
      Appends [.node v] v.WellFormed v.totalLen := by
    have hstep := Appends.step (t := .node v) hown (by rw [hnext]; exact .nil)
    refine hstep.congr ?_ ?_
    · simp [wellFormed_iff v, hpass, hchildren]
    · rw [totalLen_eq, hchildren, hlen]
      rfl
  have hrefused (v : Stored) (e : NodeError) (hpass : v.passes = false) (hown : nodeWrites v = .error e) :
      Appends [.node v] v.WellFormed v.totalLen :=
    (Appends.refuse (t := .node v) hown _).congr (by simp [wellFormed_iff v, hpass]) rfl
  induction v with
  | absent => exact hleaf _ _ rfl rfl rfl rfl rfl
  | null => exact hleaf _ _ rfl rfl rfl rfl rfl
  | bool b => exact hleaf _ _ rfl rfl rfl rfl rfl
  | number digits =>
    by_cases hdigits : isDigits digits.data = true
    · refine hleaf _ _ rfl rfl hdigits (if_pos hdigits) ?_
      simp [ownLen, sized, lenSize_eq]
      omega
    · exact hrefused _ _ (by simpa [passes] using hdigits) (if_neg hdigits)
  | string text =>
    by_cases htext : isText text.data = true
    · refine hleaf _ _ rfl rfl htext (if_pos htext) ?_
      simp [ownLen, sized, lenSize_eq]
      omega
    · exact hrefused _ _ (by simpa [passes] using htext) (if_neg htext)
  | bytes buffer =>
    refine hleaf _ _ rfl rfl rfl rfl ?_
    simp [ownLen, sized, lenSize_eq]
    omega
  | list items held ih =>
    have hstep := Appends.step (t := .node (.list items held)) rfl (appends_items ih)
    refine hstep.congr ?_ ?_
    · rw [wellFormed_iff]
      exact and_iff_right rfl
    · rw [totalLen_eq]
      simp [ownLen, lenSize_eq, children]
      omega
  | map entries held ih =>
    by_cases hkeys : (entries.all fun e => isText e.1.data) = true
    · have hstep := Appends.step (t := .node (.map entries held)) (if_pos hkeys)
        (appends_entries fun e he => ih e.1 e.2 he)
      refine hstep.congr ?_ ?_
      · rw [wellFormed_iff, and_iff_right (show (Stored.map entries held).passes = true from hkeys)]
        exact List.forall_mem_map
      · rw [totalLen_eq]
        simp [ownLen, lenSize_eq, children, Function.comp_def]
        omega
    · exact hrefused _ _ (Bool.eq_false_iff.mpr hkeys) (if_neg hkeys)
  | unknown tag strange => exact hrefused _ _ rfl rfl

theorem foldl_bytes (pieces : List (List UInt8)) (out : List UInt8) :
    pieces.foldl (· ++ ·) out = out ++ pieces.flatten := by
  induction pieces generalizing out with
  | nil => simp
  | cons piece pieces ih => rw [List.foldl_cons, ih, List.flatten_cons, List.append_assoc]

theorem foldl_extend (pieces : List (List UInt8)) (out : Vector)
    (h : out.bytes.length + pieces.flatten.length ≤ out.capacity) :
    pieces.foldl Vector.extend out = { out with bytes := out.bytes ++ pieces.flatten } := by
  induction pieces generalizing out with
  | nil => simp
  | cons piece pieces ih =>
    rw [List.flatten_cons, List.length_append] at h
    have hfits : out.extend piece = { out with bytes := out.bytes ++ piece } := if_pos (by omega)
    rw [List.foldl_cons, hfits, ih _ (by simp only [List.length_append]; omega)]
    simp

/-- The length of a value's encoding is computed exactly when the encoding is written, whatever it is
appended to, and then is the number of bytes that are; so a vector allocated at that size is filled and
never moved. -/
theorem encodedLen_exact (v : Stored) :
    (∀ out : List UInt8, (∃ n, encodedLen v = .ok n) ↔ ∃ bytes, encodeInto (· ++ ·) v out = .ok bytes) ∧
    (∀ n bytes, encodedLen v = .ok n → bytesOf v = .ok bytes → bytes.length = n) ∧
    (∀ n, encodedLen v = .ok n → ∃ out, bytesExact v = .ok out ∧ bytesOf v = .ok out.bytes ∧
      out.moves = 0 ∧ out.bytes.length = out.capacity) := by
  obtain ⟨hlen, hrefused⟩ := encodedLen_eq v
  obtain ⟨hdone, herror⟩ := appends_node v
  by_cases hok : v.WellFormed
  · obtain ⟨pieces, htotal, hwalk⟩ := hdone hok
    have hbytes (out : List UInt8) : encodeInto (· ++ ·) v out = .ok (out ++ pieces.flatten) := by
      rw [← foldl_bytes]
      exact hwalk _ _ out
    have hexact : bytesExact v = .ok ⟨pieces.flatten, v.totalLen, 0⟩ := by
      have hfill := foldl_extend pieces ⟨[], v.totalLen, 0⟩ (by simp [htotal])
      have hrun := hwalk _ Vector.extend ⟨[], v.totalLen, 0⟩
      rw [hfill] at hrun
      rw [bytesExact, hlen hok]
      exact hrun
    refine ⟨fun out => ⟨fun _ => ⟨_, hbytes out⟩, fun _ => ⟨_, hlen hok⟩⟩, fun n bytes hn hb => ?_,
      fun n _ => ⟨_, hexact, hbytes [], rfl, htotal⟩⟩
    rw [hlen hok] at hn
    rw [bytesOf, hbytes] at hb
    rw [← Except.ok.inj hn, ← Except.ok.inj hb, ← htotal, List.nil_append]
  · obtain ⟨e, he⟩ := hrefused hok
    refine ⟨fun out => ⟨?_, ?_⟩, fun n bytes hn => ?_, fun n hn => ?_⟩
    · rintro ⟨n, hn⟩
      rw [he] at hn
      cases hn
    · rintro ⟨bytes, hb⟩
      obtain ⟨e', he'⟩ := herror hok _ (· ++ ·) out
      rw [encodeInto] at hb
      exact absurd (he'.symm.trans hb) (by simp)
    · rw [he] at hn
      cases hn
    · rw [he] at hn
      cases hn

end Guatiao.Stored
