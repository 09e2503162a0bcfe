import Mathlib
import Guatiao.Lib.BirthOrder
import Guatiao.Wire.Filling

/-!
# Maps that are stored into

A map is stored into one entry at a time, or given many at once: those come through a key index of
their own, or from the far end of a reversed map. Either way it holds what storing them one by one
from the left would, in the order the keys were born in.
-/

namespace Guatiao

open Lib Wire AssocList

/-- `Map::pop_last` -/
def popLast (entries : List Entry) : Option (Entry × List Entry) :=
  entries.getLast?.map fun e => (e, entries.dropLast)

theorem popLast_length {entries left : List Entry} {e : Entry}
    (h : popLast entries = some (e, left)) : left.length < entries.length := by
  obtain ⟨x, hlast, heq⟩ := Option.map_eq_some_iff.mp h
  obtain ⟨-, rfl⟩ := Prod.mk.inj heq
  have hne : entries ≠ [] := by
    rintro rfl
    cases hlast
  have hpos := List.length_pos_iff.mpr hne
  rw [List.length_dropLast]
  omega

/-- The loop of `absorb`: each entry is taken from the end. -/
def absorbLoop (seeds : Seeded) (room : ℕ → Bool) (into : Wire.Filling) (n : ℕ) (rest : List Entry) :
    Option ℕ × List Entry :=
  match h : popLast rest with
  | none => (some n, into.map)
  | some (e, left) =>
    let stored := into.setIn e.1 e.2 seeds (room n)
    if stored.1 then absorbLoop seeds room stored.2 (n + 1) left else (none, stored.2.map)
termination_by rest.length
decreasing_by exact popLast_length h

/-- `Map::absorb`: how many were stored, none where one was refused. -/
def absorb (map gone : List Entry) (seeds : Seeded) (room : ℕ → Bool) : Option ℕ × List Entry :=
  absorbLoop seeds room (.withRoom map gone.length) 0 gone.reverse

/-- `Map::copy_from_in` -/
def copyFrom (map src : List Entry) (copied : Bool) (seeds : Seeded) (room : ℕ → Bool) :
    Option ℕ × List Entry :=
  if copied then absorb map src seeds room else (none, map)

/-- The loop of `extend`. -/
def extendLoop (seeds : Seeded) (room : ℕ → Bool) : ℕ → Wire.Filling → List Entry → Option ℕ × List Entry
  | n, into, [] => (some n, into.map)
  | n, into, e :: rest =>
    let stored := into.setIn e.1 e.2 seeds (room n)
    if stored.1 then extendLoop seeds room (n + 1) stored.2 rest else (none, stored.2.map)

/-- `Map::set_in` -/
def setIn (map : List Entry) (key : String) (v : Value) (room : Bool) : Bool × List Entry :=
  (Wire.Filling.setNode map key v room).elim (false, map) fun map => (true, map)

/-- `Map::remove` -/
def removeKey (map : List Entry) (key : String) : Option Value × List Entry :=
  match position key map with
  | some i => (map[i]?.map Prod.snd, map.eraseIdx i)
  | none => (none, map)

/-- A map, or the iterator it was made into. -/
inductive HeldMap
  | map (entries : List Entry)
  /-- The rest in reverse, so each `next` is a `popLast`. -/
  | iter (rest : List Entry)
  | aborted

/-- What is done to a map. A store asks for room where it makes an entry, the answer the allocator's;
an index is made under seeds drawn for it. -/
inductive MapOp
  | set (key : String) (v : Value) (room : Bool)
  | remove (key : String)
  | absorb (gone : List Entry) (seeds : Seeded) (room : ℕ → Bool)
  | copyFrom (src : List Entry) (copied : Bool) (seeds : Seeded) (room : ℕ → Bool)
  /-- The pairs of an iterator that said at least how many it has. -/
  | extend (pairs : List Entry) (hint : ℕ) (seeds : Seeded) (room : ℕ → Bool)
  | intoIter
  | next

/-- What an operation answers. -/
inductive MapAnswer
  | stored (ok : Bool)
  | removed (v : Option Value)
  | count (n : Option ℕ)
  | entry (e : Option Entry)
  | done
  /-- The types have no such call. -/
  | none

def HeldMap.step : HeldMap → MapOp → MapAnswer × HeldMap
  | .map m, .set key v room => (.stored (setIn m key v room).1, .map (setIn m key v room).2)
  | .map m, .remove key => (.removed (removeKey m key).1, .map (removeKey m key).2)
  | .map m, .absorb gone seeds room =>
    (.count (Guatiao.absorb m gone seeds room).1, .map (Guatiao.absorb m gone seeds room).2)
  | .map m, .copyFrom src copied seeds room =>
    (.count (Guatiao.copyFrom m src copied seeds room).1,
      .map (Guatiao.copyFrom m src copied seeds room).2)
  | .map m, .extend pairs hint seeds room =>
    match extendLoop seeds room 0 (.withRoom m hint) pairs with
    | (some _, m) => (.done, .map m)
    | (.none, _) => (.none, .aborted)
  | .map m, .intoIter => (.done, .iter m.reverse)
  | .iter rest, .next =>
    match popLast rest with
    | some (e, rest) => (.entry (some e), .iter rest)
    | .none => (.entry .none, .iter rest)
  | s, _ => (.none, s)

/-- An association list in the order of its keys, or what is left of it. -/
inductive Listed
  | map (m : List Entry)
  | iter (left : List Entry)
  | aborted

/-- One entry set: refused where there is no room for a new key. -/
def setOne (key : String) (v : Value) (room : Bool) (m : List Entry) : Bool × List Entry :=
  if AssocList.contains key m || room then (true, AssocList.set key v m) else (false, m)

/-- Entries set one by one from the left, up to the first refused. -/
def setEach (room : ℕ → Bool) : ℕ → List Entry → List Entry → Option ℕ × List Entry
  | n, [], m => (some n, m)
  | n, e :: rest, m =>
    let stored := setOne e.1 e.2 (room n) m
    if stored.1 then setEach room (n + 1) rest stored.2 else (none, stored.2)

def Listed.step : Listed → MapOp → MapAnswer × Listed
  | .map m, .set key v room => (.stored (setOne key v room m).1, .map (setOne key v room m).2)
  | .map m, .remove key => (.removed (AssocList.get key m), .map (AssocList.remove key m))
  | .map m, .absorb gone _ room => (.count (setEach room 0 gone m).1, .map (setEach room 0 gone m).2)
  | .map m, .copyFrom src copied _ room =>
    if copied then (.count (setEach room 0 src m).1, .map (setEach room 0 src m).2)
    else (.count .none, .map m)
  | .map m, .extend pairs _ _ room =>
    match setEach room 0 pairs m with
    | (some _, m) => (.done, .map m)
    | (.none, _) => (.none, .aborted)
  | .map m, .intoIter => (.done, .iter m)
  | .iter (e :: left), .next => (.entry (some e), .iter left)
  | .iter [], .next => (.entry .none, .iter [])
  | s, _ => (.none, s)

/-- The keys that setting entries one by one stores. -/
def setEvents (room : ℕ → Bool) : ℕ → List Entry → List Entry → List (KeyEvent String)
  | _, [], _ => []
  | n, e :: rest, m =>
    let stored := setOne e.1 e.2 (room n) m
    if stored.1 then .stored e.1 :: setEvents room (n + 1) rest stored.2 else []

/-- What an operation does to the keys. -/
def Listed.events : Listed → MapOp → List (KeyEvent String)
  | .map m, .set key v room => if (setOne key v room m).1 then [.stored key] else []
  | .map _, .remove key => [.removed key]
  | .map m, .absorb gone _ room => setEvents room 0 gone m
  | .map m, .copyFrom src copied _ room => if copied then setEvents room 0 src m else []
  | .map m, .extend pairs _ _ room => setEvents room 0 pairs m
  | _, _ => []

def Listed.history : Listed → List MapOp → List (KeyEvent String)
  | _, [] => []
  | s, op :: ops => s.events op ++ history (s.step op).2 ops

/-- The list a map is. -/
def HeldMap.listed : HeldMap → Listed
  | .map m => .map m
  | .iter rest => .iter rest.reverse
  | .aborted => .aborted

theorem setIn_eq (m : List Entry) (key : String) (v : Value) (room : Bool) :
    setIn m key v room = setOne key v room m := by
  have hroom := Wire.Filling.setNode_eq m key v
  have hcontains : AssocList.contains key m = (position key m).isSome := by
    have hbind := position_bind key m
    rw [AssocList.contains, ← hbind]
    cases hposition : position key m with
    | none => rfl
    | some i =>
      obtain ⟨hlt, -⟩ := List.findIdx?_eq_some_iff_getElem.mp hposition
      simp [hlt]
  rw [setIn, setOne, hcontains]
  unfold Wire.Filling.setNode at hroom ⊢
  cases hposition : position key m with
  | some i =>
    rw [hposition] at hroom
    simp only [Option.some.injEq] at hroom
    simp [hroom]
  | none =>
    rw [hposition] at hroom
    simp only at hroom
    cases room with
    | true => simp [hroom]
    | false => simp [Wire.Filling.insertNode]

theorem right_setIn {into : Wire.Filling} {m : List Entry} (h : into.Right m) (key : String)
    (v : Value) (seeds : Seeded) (room : Bool) :
    (into.setIn key v seeds room).1 = (setOne key v room m).1 ∧
      (into.setIn key v seeds room).2.Right (setOne key v room m).2 := by
  have hstep := Wire.Filling.step_eq into m (.set key v seeds room) h
  have hscan : Wire.Filling.scan m (.set key v seeds room) = setOne key v room m := by
    rw [← setIn_eq, Guatiao.setIn, Wire.Filling.scan]
    cases Wire.Filling.setNode m key v room <;> rfl
  rw [hscan] at hstep
  exact hstep

theorem removeKey_eq (m : List Entry) (key : String) :
    removeKey m key = (AssocList.get key m, AssocList.remove key m) := by
  have hbind := position_bind key m
  have herase : AssocList.remove key m = (position key m).elim m m.eraseIdx := by
    have hposition : m.findIdx? (fun e => decide (e.1 = key)) = position key m := rfl
    rw [AssocList.remove, List.eraseP_eq_eraseIdx, hposition]
    cases position key m <;> rfl
  rw [removeKey, ← hbind, herase]
  cases position key m <;> rfl

theorem extendLoop_eq (seeds : Seeded) (room : ℕ → Bool) (pairs : List Entry) :
    ∀ (n : ℕ) (into : Wire.Filling) (m : List Entry), into.Right m →
      extendLoop seeds room n into pairs = setEach room n pairs m := by
  induction pairs with
  | nil => exact fun n into m h => by rw [extendLoop, setEach, h.1]
  | cons e rest ih =>
    intro n into m h
    obtain ⟨hstored, hright⟩ := right_setIn h e.1 e.2 seeds (room n)
    rw [extendLoop, setEach, hstored]
    split
    · exact ih _ _ _ hright
    · rw [hright.1]

theorem popLast_append (left : List Entry) (e : Entry) : popLast (left ++ [e]) = some (e, left) := by
  simp [popLast]

theorem absorbLoop_eq (seeds : Seeded) (room : ℕ → Bool) (gone : List Entry) :
    ∀ (n : ℕ) (into : Wire.Filling) (m : List Entry), into.Right m →
      absorbLoop seeds room into n gone.reverse = setEach room n gone m := by
  induction gone with
  | nil =>
    intro n into m h
    rw [absorbLoop]
    simp [popLast, setEach, h.1]
  | cons e rest ih =>
    intro n into m h
    obtain ⟨hstored, hright⟩ := right_setIn h e.1 e.2 seeds (room n)
    rw [absorbLoop, setEach, List.reverse_cons]
    split
    next hnone =>
      rw [popLast_append] at hnone
      cases hnone
    next e' left hsome =>
      rw [popLast_append, Option.some.injEq, Prod.mk.injEq] at hsome
      obtain ⟨rfl, rfl⟩ := hsome
      dsimp only
      rw [hstored]
      split
      · exact ih _ _ _ hright
      · rw [hright.1]

theorem right_withRoom (m : List Entry) (more : ℕ) : (Wire.Filling.withRoom m more).Right m :=
  ⟨rfl, fun index hsome => by cases hsome⟩

theorem absorb_eq (m gone : List Entry) (seeds : Seeded) (room : ℕ → Bool) :
    absorb m gone seeds room = setEach room 0 gone m :=
  absorbLoop_eq seeds room gone 0 _ m (right_withRoom m _)

section Order

variable {s : ℕ × (String → Option ℕ)} {m : List Entry}

theorem aged_setOne (h : Aged s m) (key : String) (v : Value) (room : Bool) :
    Aged ((if (setOne key v room m).1 then [.stored key] else []).foldl live s)
      (setOne key v room m).2 := by
  unfold setOne
  split
  · exact h.set key v
  · exact h

theorem aged_setEach (room : ℕ → Bool) (entries : List Entry) (n : ℕ) (h : Aged s m) :
    Aged ((setEvents room n entries m).foldl live s) (setEach room n entries m).2 := by
  induction entries generalizing n s m with
  | nil => exact h
  | cons e rest ih =>
    have hone := aged_setOne h e.1 e.2 (room n)
    rw [setEvents, setEach]
    split
    next hstored =>
      rw [if_pos hstored] at hone
      rw [List.foldl_cons]
      exact ih (n + 1) hone
    next hstored =>
      rw [if_neg hstored] at hone
      exact hone

end Order

theorem step_listed (held : HeldMap) (listed : Listed) (op : MapOp) (h : held.listed = listed) :
    (held.step op).1 = (listed.step op).1 ∧ (held.step op).2.listed = (listed.step op).2 := by
  subst h
  cases held with
  | map m =>
    cases op with
    | set key v room => simp [HeldMap.step, HeldMap.listed, Listed.step, setIn_eq]
    | remove key => simp [HeldMap.step, HeldMap.listed, Listed.step, removeKey_eq]
    | absorb gone seeds room => simp [HeldMap.step, HeldMap.listed, Listed.step, absorb_eq]
    | copyFrom src copied seeds room =>
      cases copied <;> simp [HeldMap.step, HeldMap.listed, Listed.step, copyFrom, absorb_eq]
    | extend pairs hint seeds room =>
      simp only [HeldMap.step, HeldMap.listed, Listed.step,
        extendLoop_eq seeds room pairs 0 _ m (right_withRoom m hint)]
      rcases setEach room 0 pairs m with ⟨_ | n, m'⟩ <;> exact ⟨rfl, rfl⟩
    | intoIter => simp [HeldMap.step, HeldMap.listed, Listed.step]
    | next => simp [HeldMap.step, HeldMap.listed, Listed.step]
  | iter rest =>
    cases op with
    | next =>
      rcases List.eq_nil_or_concat rest with rfl | ⟨left, e, rfl⟩
      · simp [HeldMap.step, HeldMap.listed, Listed.step, popLast]
      · rw [List.concat_eq_append]
        simp [HeldMap.step, HeldMap.listed, Listed.step, popLast_append]
    | _ => simp [HeldMap.step, HeldMap.listed, Listed.step]
  | aborted => cases op <;> simp [HeldMap.step, HeldMap.listed, Listed.step]

/-- What is left of a list is in the order its keys were born in, as long as it is a map. -/
def Listed.InOrder (s : ℕ × (String → Option ℕ)) : Listed → Prop
  | .map m => Aged s m
  | _ => True

theorem inOrder_step {s : ℕ × (String → Option ℕ)} {listed : Listed} (h : listed.InOrder s)
    (op : MapOp) : (listed.step op).2.InOrder ((listed.events op).foldl live s) := by
  cases listed with
  | map m =>
    cases op with
    | set key v room => exact aged_setOne h key v room
    | remove key => exact Aged.remove h key
    | absorb gone seeds room => exact aged_setEach room gone 0 h
    | copyFrom src copied seeds room =>
      cases copied
      · exact h
      · exact aged_setEach room src 0 h
    | extend pairs hint seeds room =>
      have hall := aged_setEach room pairs 0 h
      unfold Listed.step
      dsimp only
      split
      next heq =>
        rw [heq] at hall
        exact hall
      next => trivial
    | intoIter => trivial
    | next => exact h
  | iter left => cases op <;> cases left <;> trivial
  | aborted => cases op <;> trivial

theorem inOrder_after {s : ℕ × (String → Option ℕ)} {listed : Listed} (h : listed.InOrder s)
    (ops : List MapOp) :
    (after Listed.step listed ops).InOrder ((listed.history ops).foldl live s) := by
  induction ops generalizing s listed with
  | nil => exact h
  | cons op ops ih =>
    rw [Listed.history, List.foldl_append]
    exact ih (inOrder_step h op)

/-- Every operation answers what it would on a list in insertion order, and leaves the map that is;
what is given at once is set one by one from the left. The keys are the ones stored and not removed
since, each once, in the order they were first stored. -/
theorem map_refines_list (ops : List MapOp) :
    answers HeldMap.step (.map []) ops = answers Listed.step (.map []) ops ∧
      (after HeldMap.step (.map []) ops).listed = after Listed.step (.map []) ops ∧
      ∀ m, after HeldMap.step (.map []) ops = .map m →
        InBirthOrder (births (Listed.history (.map []) ops)) m := by
  obtain ⟨hanswers, hafter⟩ : answers HeldMap.step (.map []) ops = answers Listed.step (.map []) ops ∧
      (after HeldMap.step (.map []) ops).listed = after Listed.step (.map []) ops :=
    answers_eq step_listed rfl ops
  refine ⟨hanswers, hafter, fun m hm => ?_⟩
  have horder := inOrder_after (show Listed.InOrder (0, fun _ => none) (.map []) from aged_nil) ops
  rw [← hafter, hm] at horder
  exact Aged.order horder

end Guatiao
