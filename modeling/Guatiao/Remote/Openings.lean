import Guatiao.Remote.Stamps

/-!
# Openings counted by one side, kept as a set by the other

A client opens what its peer listed, over one link that stays. It counts what has been opened of
each library, under the stamp it listed, and sends a CLOSE for each opening the registry closes; the
peer keeps a library open or does not. An opening can fail on the client's side after the peer has
answered the OPEN.
-/

namespace Guatiao.Remote

open Lib

/-- `listed_stamp`: the peer's, and the link's generation. -/
def listedStamp (stamp : String) (generation : Fin (2 ^ 64)) : String :=
  stamp ++ "@" ++ toString generation.val

/-- The text around the last of a letter. -/
def rsplitOnce (c : Char) (text : List Char) : Option (List Char × List Char) :=
  match text.reverse.dropWhile (· ≠ c) with
  | [] => none
  | _ :: before => some (before.reverse, (text.reverse.takeWhile (· ≠ c)).reverse)

/-- A text read as an unsigned integer of 64 bits, with a plus sign or without. -/
def parseGeneration (text : List Char) : Option (Fin (2 ^ 64)) :=
  let digits := if text.head? = some '+' then text.tail else text
  if digits.isEmpty || !digits.all Char.isDigit then none
  else if h : Nat.ofDigitChars 10 digits 0 < 2 ^ 64 then some ⟨Nat.ofDigitChars 10 digits 0, h⟩
  else none

/-- `unlisted_stamp`: the peer's stamp and the generation again. -/
def unlistedStamp (stamp : String) : Option (String × Fin (2 ^ 64)) :=
  (rsplitOnce '@' stamp.toList).bind fun parts =>
    (parseGeneration parts.2).map fun generation => (String.ofList parts.1, generation)

theorem rsplitOnce_append {c : Char} {after : List Char} (h : c ∉ after) (before : List Char) :
    rsplitOnce c (before ++ c :: after) = some (before, after) := by
  have hreverse : (before ++ c :: after).reverse = after.reverse ++ c :: before.reverse := by simp
  have hall : ∀ x ∈ after.reverse, decide (x ≠ c) = true := by
    intro x hx
    rw [decide_eq_true_eq]
    rintro rfl
    exact h (List.mem_reverse.mp hx)
  simp only [rsplitOnce, hreverse]
  rw [List.dropWhile_append_of_pos hall, List.takeWhile_append_of_pos hall]
  simp

theorem parseGeneration_toString (generation : Fin (2 ^ 64)) :
    parseGeneration (toString generation.val).toList = some generation := by
  have hlist : (toString generation.val).toList = Nat.toDigits 10 generation.val :=
    Nat.toList_repr
  have hall : ∀ d ∈ Nat.toDigits 10 generation.val, d.isDigit = true :=
    fun d hd => Nat.isDigit_of_mem_toDigits (by omega) (by omega) hd
  have hhead : (Nat.toDigits 10 generation.val).head? ≠ some '+' := by
    intro hhead
    exact absurd (hall '+' (List.mem_of_head? hhead)) (by decide)
  have hne : (Nat.toDigits 10 generation.val).isEmpty = false := by
    rw [List.isEmpty_eq_false_iff]
    exact Nat.toDigits_ne_nil
  have hdigits : (Nat.toDigits 10 generation.val).all Char.isDigit = true := List.all_eq_true.mpr hall
  simp only [parseGeneration, hlist, if_neg hhead, hne, hdigits, Nat.ofDigitChars_ten_toDigits]
  simp

theorem unlistedStamp_listedStamp (stamp : String) (generation : Fin (2 ^ 64)) :
    unlistedStamp (listedStamp stamp generation) = some (stamp, generation) := by
  have hlist : (listedStamp stamp generation).toList =
      stamp.toList ++ '@' :: (toString generation.val).toList := by simp [listedStamp]
  have hnot : '@' ∉ (toString generation.val).toList := by
    rw [show (toString generation.val).toList = Nat.toDigits 10 generation.val from Nat.toList_repr]
    intro hmem
    exact absurd (Nat.isDigit_of_mem_toDigits (by omega) (by omega) hmem) (by decide)
  rw [unlistedStamp, hlist, rsplitOnce_append hnot, Option.bind_some, parseGeneration_toString]
  simp

theorem listedStamp_inj {stamp stamp' : String} {generation : Fin (2 ^ 64)}
    (h : listedStamp stamp generation = listedStamp stamp' generation) : stamp = stamp' := by
  have hback := congrArg unlistedStamp h
  rw [unlistedStamp_listedStamp, unlistedStamp_listedStamp] at hback
  simpa using hback

/-- A client's count of its openings, and what the peer at the other end of the link has open. -/
structure Session where
  /-- The link's, which its listed stamps carry. -/
  generation : Fin (2 ^ 64)
  /-- What the peer listed last: each library's stamp. -/
  libraries : List (String × String)
  /-- How many of each library the registry has open, by id and listed stamp. -/
  opened : List ((String × String) × ℕ)
  /-- CLOSE frames the peer has not read yet. -/
  wire : List (String × String)
  /-- What the peer holds open for the link. -/
  peer : OpenedTables

inductive SessionAct
  /-- The peer is listed, and answers these libraries with their stamps. -/
  | list (libraries : List (String × String))
  /-- A library is opened. The peer holds these tables for it, or refuses; the client then builds
  what it answers, or fails to. -/
  | «open» (id : String) (tables : Option (List (ℕ × Table))) (built : Bool)
  /-- The registry closes a library it opened, under the stamp it was listed under then. -/
  | close (id stamp : String)
  /-- The peer reads a frame. -/
  | deliver

namespace Session

def new (generation : Fin (2 ^ 64)) : Session := ⟨generation, [], [], [], ⟨[], []⟩⟩

/-- How many openings of a library are not closed yet. -/
def openings (s : Session) (id stamp : String) : ℕ := (AssocList.get (id, stamp) s.opened).getD 0

/-- What the peer has open once it has read what is on its way to it. -/
def delivered (s : Session) : OpenedTables := s.wire.foldl (fun o e => o.forget e.1 e.2) s.peer

/-- `Peer::open`: the OPEN is answered after what was sent before it has been read. -/
def «open» (s : Session) (id stamp : String) (tables : Option (List (ℕ × Table))) (built : Bool) :
    Session :=
  match tables with
  | none => { s with peer := s.delivered, wire := [] }
  | some tables =>
    let s := { s with peer := s.delivered.keep id stamp tables, wire := [] }
    if built then
      let key := (id, listedStamp stamp s.generation)
      { s with opened := AssocList.set key (s.openings key.1 key.2 + 1) s.opened }
    else s

/-- The first half of `Peer::close`: one opening less. -/
def uncount (s : Session) (id stamp : String) : Session :=
  match AssocList.get (id, stamp) s.opened with
  | none => s
  | some n =>
    if n - 1 = 0 then { s with opened := s.opened.filter fun e => e.1 ≠ (id, stamp) }
    else { s with opened := AssocList.set (id, stamp) (n - 1) s.opened }

/-- `Peer::close`. -/
def close (s : Session) (id stamp : String) : Session :=
  let s := s.uncount id stamp
  match unlistedStamp stamp with
  | none => s
  | some (theirs, generation) =>
    if generation = s.generation then { s with wire := s.wire ++ [(id, theirs)] } else s

/-- One step. The registry closes what has been opened, as often as it was. -/
def step (s : Session) : SessionAct → Option Session
  | .list libraries => some { s with libraries }
  | .open id tables built => (AssocList.get id s.libraries).map fun stamp => s.open id stamp tables built
  | .close id stamp => if 0 < s.openings id stamp then some (s.close id stamp) else none
  | .deliver =>
    match s.wire with
    | [] => none
    | e :: wire => some { s with wire, peer := s.peer.forget e.1 e.2 }

/-- The peer comes to hold a library open exactly while an opening of it is not closed. -/
def Counted (s : Session) : Prop :=
  ∀ id stamp, AssocList.contains (id, stamp) s.delivered.libraries = true ↔
    0 < s.openings id (listedStamp stamp s.generation)

/-- A closing is of the last opening left, and an opening that fails after the peer took it is of a
library that is open. -/
def alone (s : Session) : SessionAct → Bool
  | .list _ => true
  | .open id tables built => tables.isNone || built ||
      (AssocList.get id s.libraries).all fun stamp => 0 < s.openings id (listedStamp stamp s.generation)
  | .close id stamp => s.openings id stamp == 1
  | .deliver => true

variable {s s' : Session} {acts : List SessionAct}

theorem contains_forget (o : OpenedTables) (library stamp : String) (key : String × String) :
    AssocList.contains key (o.forget library stamp).libraries = true ↔
      key ≠ (library, stamp) ∧ AssocList.contains key o.libraries = true := by
  simp only [OpenedTables.forget, AssocList.contains]
  rw [AssocList.get_filter (· ≠ (library, stamp))]
  split <;> simp_all

theorem contains_keep (o : OpenedTables) (library stamp : String) (held : List (ℕ × Table))
    (key : String × String) : AssocList.contains key (o.keep library stamp held).libraries = true ↔
      key = (library, stamp) ∨ AssocList.contains key o.libraries = true := by
  unfold OpenedTables.keep
  split
  · next hopen =>
    constructor
    · exact .inr
    · rintro (rfl | hkey)
      · exact hopen
      · exact hkey
  · rw [AssocList.contains_iff, AssocList.contains_iff, AssocList.mem_keys_set, or_comm]

/-- Every opening counted was listed over this link. -/
def Listed (s : Session) : Prop :=
  ∀ id stamp, 0 < s.openings id stamp → ∃ theirs, stamp = listedStamp theirs s.generation

theorem openings_uncount (s : Session) (id stamp id' stamp' : String) :
    (s.uncount id stamp).openings id' stamp' =
      s.openings id' stamp' - if (id', stamp') = (id, stamp) then 1 else 0 := by
  simp only [uncount, openings]
  cases hget : AssocList.get (id, stamp) s.opened with
  | none =>
    by_cases hkey : (id', stamp') = (id, stamp)
    · simp [hkey, hget]
    · simp [hkey]
  | some n =>
    by_cases hlast : n - 1 = 0
    · simp only [hlast, if_true]
      rw [AssocList.get_filter (· ≠ (id, stamp))]
      by_cases hkey : (id', stamp') = (id, stamp)
      · simp [hkey, hget, hlast]
      · simp [hkey]
    · simp only [hlast, if_false]
      by_cases hkey : (id', stamp') = (id, stamp)
      · simp [hkey, hget]
      · simp [AssocList.get_set_of_ne hkey, hkey]

theorem openings_open (s : Session) (id stamp : String) (tables : Option (List (ℕ × Table)))
    (built : Bool) (id' stamp' : String) :
    (s.open id stamp tables built).openings id' stamp' = s.openings id' stamp' +
      if tables.isSome ∧ built = true ∧ (id', stamp') = (id, listedStamp stamp s.generation) then 1
      else 0 := by
  cases tables with
  | none => simp [Session.open, openings]
  | some tables =>
    cases built with
    | false => simp [Session.open, openings]
    | true =>
      simp only [Session.open, openings, if_true]
      by_cases hkey : (id', stamp') = (id, listedStamp stamp s.generation)
      · simp [hkey]
      · simp [AssocList.get_set_of_ne hkey, hkey]

theorem generation_open (s : Session) (id stamp : String) (tables : Option (List (ℕ × Table)))
    (built : Bool) : (s.open id stamp tables built).generation = s.generation := by
  cases tables with
  | none => rfl
  | some tables => cases built <;> rfl

theorem delivered_open (s : Session) (id stamp : String) (tables : Option (List (ℕ × Table)))
    (built : Bool) : (s.open id stamp tables built).delivered =
      match tables with
      | none => s.delivered
      | some tables => s.delivered.keep id stamp tables := by
  cases tables with
  | none => rfl
  | some tables => cases built <;> rfl

theorem generation_uncount (s : Session) (id stamp : String) :
    (s.uncount id stamp).generation = s.generation ∧ (s.uncount id stamp).delivered = s.delivered := by
  unfold uncount
  split
  · exact ⟨rfl, rfl⟩
  · split <;> exact ⟨rfl, rfl⟩

theorem close_listed (s : Session) (id theirs : String) :
    s.close id (listedStamp theirs s.generation) =
      { s.uncount id (listedStamp theirs s.generation) with
        wire := (s.uncount id (listedStamp theirs s.generation)).wire ++ [(id, theirs)] } := by
  simp [close, unlistedStamp_listedStamp, (generation_uncount s id _).1]

theorem listed_step : Kept step Listed := by
  intro s a s' h hstep
  cases a with
  | list libraries =>
    obtain rfl := Option.some.inj hstep
    exact h
  | «open» id tables built =>
    obtain ⟨stamp, -, rfl⟩ := Option.map_eq_some_iff.mp hstep
    intro id' stamp' hpos
    rw [generation_open]
    rw [openings_open] at hpos
    split at hpos
    · next hkey => exact ⟨stamp, (Prod.mk.inj hkey.2.2).2⟩
    · exact h id' stamp' hpos
  | close id stamp =>
    simp only [step] at hstep
    split at hstep
    · next hopen =>
      obtain rfl := Option.some.inj hstep
      obtain ⟨theirs, rfl⟩ := h id stamp hopen
      rw [close_listed]
      intro id' stamp' hpos
      have hleft : 0 < (s.uncount id (listedStamp theirs s.generation)).openings id' stamp' := hpos
      rw [openings_uncount] at hleft
      obtain ⟨theirs', rfl⟩ := h id' stamp' (by omega)
      exact ⟨theirs', by rw [(generation_uncount s id _).1]⟩
    · cases hstep
  | deliver =>
    simp only [step] at hstep
    split at hstep
    · cases hstep
    · obtain rfl := Option.some.inj hstep
      exact h

theorem counted_open (h : s.Counted) (id stamp : String) (tables : List (ℕ × Table)) (built : Bool) :
    (s.open id stamp (some tables) built).Counted ↔
      built = true ∨ 0 < s.openings id (listedStamp stamp s.generation) := by
  simp only [Counted, delivered_open, contains_keep, openings_open, generation_open]
  constructor
  · intro hcounted
    have hhere := (hcounted id stamp).mp (.inl rfl)
    cases built with
    | true => exact .inl rfl
    | false => exact .inr (by simpa using hhere)
  · intro hbuilt id' stamp'
    by_cases hkey : (id', stamp') = (id, stamp)
    · obtain ⟨rfl, rfl⟩ := Prod.mk.inj hkey
      rcases hbuilt with rfl | hopen
      · simp
      · simp only [true_or, true_iff]
        omega
    · have hne : (id', listedStamp stamp' s.generation) ≠ (id, listedStamp stamp s.generation) := by
        intro heq
        obtain ⟨rfl, hstamp⟩ := Prod.mk.inj heq
        exact hkey (by rw [listedStamp_inj hstamp])
      simp only [hkey, hne, false_or, and_false, if_false, Nat.add_zero]
      exact h id' stamp'

theorem counted_close (h : s.Counted) {id theirs : String}
    (hopen : 0 < s.openings id (listedStamp theirs s.generation)) :
    (s.close id (listedStamp theirs s.generation)).Counted ↔
      s.openings id (listedStamp theirs s.generation) = 1 := by
  have hdelivered : (s.close id (listedStamp theirs s.generation)).delivered =
      s.delivered.forget id theirs := by
    rw [close_listed, ← (generation_uncount s id (listedStamp theirs s.generation)).2]
    simp [delivered, List.foldl_append]
  have hopenings : ∀ id' stamp', (s.close id (listedStamp theirs s.generation)).openings id' stamp' =
      (s.uncount id (listedStamp theirs s.generation)).openings id' stamp' := by
    intro id' stamp'
    rw [close_listed]
    rfl
  have hgeneration : (s.close id (listedStamp theirs s.generation)).generation = s.generation := by
    rw [close_listed]
    exact (generation_uncount s id _).1
  simp only [Counted, hdelivered, contains_forget, hopenings, openings_uncount, hgeneration]
  constructor
  · intro hcounted
    have hhere := hcounted id theirs
    simp only [ne_eq, not_true_eq_false, false_and, false_iff, if_true] at hhere
    omega
  · intro hlast id' stamp'
    by_cases hkey : (id', stamp') = (id, theirs)
    · obtain ⟨rfl, rfl⟩ := Prod.mk.inj hkey
      simp [hlast]
    · have hne : (id', listedStamp stamp' s.generation) ≠ (id, listedStamp theirs s.generation) := by
        intro heq
        obtain ⟨rfl, hstamp⟩ := Prod.mk.inj heq
        exact hkey (by rw [listedStamp_inj hstamp])
      simp only [ne_eq, hkey, not_false_eq_true, true_and, hne, if_false, Nat.sub_zero]
      exact h id' stamp'

/-- A step keeps the count right exactly when it closes the last opening, or one fails of a library
that is open. -/
theorem counted_step_iff (h : s.Counted ∧ s.Listed) {a : SessionAct} (hstep : step s a = some s') :
    s'.Counted ∧ s'.Listed ↔ s.alone a = true := by
  have hlisted := listed_step s a s' h.2 hstep
  rw [and_iff_left hlisted]
  cases a with
  | list libraries =>
    obtain rfl := Option.some.inj hstep
    exact ⟨fun _ => rfl, fun _ => h.1⟩
  | «open» id tables built =>
    obtain ⟨stamp, hstamp, rfl⟩ := Option.map_eq_some_iff.mp hstep
    cases tables with
    | none => simpa [alone, Counted, delivered_open, openings_open, generation_open] using h.1
    | some tables =>
      rw [counted_open h.1]
      simp [alone, hstamp]
  | close id stamp =>
    simp only [step] at hstep
    split at hstep
    · next hopen =>
      obtain rfl := Option.some.inj hstep
      obtain ⟨theirs, rfl⟩ := h.2 id stamp hopen
      rw [counted_close h.1 hopen]
      simp [alone]
    · cases hstep
  | deliver =>
    simp only [step] at hstep
    cases hwire : s.wire with
    | nil =>
      rw [hwire] at hstep
      cases hstep
    | cons e wire =>
      rw [hwire] at hstep
      obtain rfl := Option.some.inj hstep
      have hsame := h.1
      simp only [Counted, delivered, hwire, List.foldl_cons] at hsame
      simpa [alone, Counted, delivered, openings] using hsame

/-- Along a run the peer comes to hold a library open exactly while an opening of it is not closed,
exactly when every closing is of the last opening left and no opening fails of a library that is
not open. -/
theorem counted_iff (generation : Fin (2 ^ 64)) (h : run step (new generation) acts = some s) :
    (∀ before after t, acts = before ++ after → run step (new generation) before = some t →
      t.Counted) ↔ run (only (fun s a => alone s a = true) step) (new generation) acts = some s := by
  have hnew : (new generation).Counted ∧ (new generation).Listed := by
    simp [Counted, Listed, new, delivered, openings]
  rw [← all_prefixes_iff (fun s a s' hs hstep => counted_step_iff hs hstep) hnew h]
  constructor
  · intro hall before after t hacts hbefore
    exact ⟨hall before after t hacts hbefore, listed_step.run hnew.2 hbefore⟩
  · exact fun hall before after t hacts hbefore => (hall before after t hacts hbefore).1

/-- One library listed and opened twice. -/
private def twice : List SessionAct :=
  [.list [("a", "a#1#0")], .open "a" (some []) true, .open "a" (some []) true]

/-- A library opened twice and closed once is closed on the peer, as far as the count goes wrong. -/
theorem counted_iff_twice : ∃ s, run step (new 1) twice = some s ∧
    ((∀ before after t, twice = before ++ after → run step (new 1) before = some t → t.Counted) ↔
      run (only (fun s a => alone s a = true) step) (new 1) twice = some s) :=
  ⟨_, rfl, counted_iff 1 rfl⟩

/-- Of two openings one is closed, and the peer closes the library; and what failed to be built
stays open there. -/
theorem closed_once_of_two : ∃ s t, run step (new 1)
      (twice ++ [.close "a" (listedStamp "a#1#0" 1), .deliver]) = some s ∧
    run step (new 1) [.list [("a", "a#1#0")], .open "a" (some []) false] = some t ∧
    s.wire = [] ∧ t.wire = [] ∧ s.openings "a" (listedStamp "a#1#0" 1) = 1 ∧
    AssocList.contains ("a", "a#1#0") s.peer.libraries = false ∧
    t.openings "a" (listedStamp "a#1#0" 1) = 0 ∧
    AssocList.contains ("a", "a#1#0") t.peer.libraries = true :=
  ⟨_, _, rfl, rfl, rfl, rfl, rfl, rfl, rfl, rfl⟩

end Session

end Guatiao.Remote
