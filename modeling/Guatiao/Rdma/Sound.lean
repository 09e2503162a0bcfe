import Guatiao.Rdma.Flow

/-!
# What holds of a link at every moment

What a side has sent is laid out in its staging area and lands in the peer's inbox in order; what
the peer has not read is where it landed, and no write goes there. It holds at the start, and every
step of two sides that keep to the ring keeps it.
-/

namespace Guatiao.Rdma

open Lib
open Circular (Holds)

variable {Byte : Type}

/-- The bytes a write has taken and not posted. -/
def Writer.pending (w : Writer Byte) : ℕ :=
  match w.at_ with
  | .copying | .locking | .posting => w.n
  | _ => 0

/-- What a write takes: some bytes, as many as go in one piece. -/
structure Taken (w : Writer Byte) (written : ℕ) : Prop where
  pos : 0 < w.n
  le : w.n ≤ w.rest.length
  fits : written % ring + w.n ≤ ring

/-- What the staging area holds from where the completions have come to. -/
def Staged (h : Half Byte) (c : ℕ) : Prop :=
  let w := h.writer
  match w.at_ with
  | .looking =>
    Holds ring h.staging c (h.wrote.drop c) ∧
      ∃ b ≤ c, w.completed = b % word ∧ h.wrote.length ≤ b + ring
  | .copying =>
    Taken w h.wrote.length ∧ ∃ i ≤ w.n,
      w.stores = (List.range' (h.wrote.length % ring + i) (w.n - i)).zip ((w.rest.take w.n).drop i) ∧
      Holds ring h.staging c (h.wrote.drop c ++ (w.rest.take w.n).take i)
  | .locking | .posting =>
    Taken w h.wrote.length ∧ Holds ring h.staging c (h.wrote.drop c ++ w.rest.take w.n)
  | _ => Holds ring h.staging c (h.wrote.drop c)

/-- What a side has sent, its completions come to a count. -/
structure Sent (h : Half Byte) (c : ℕ) : Prop where
  head : h.writer.head = h.wrote.length % word
  completed : h.sends.completed = c % word
  laid : Laid c (h.completions ++ (h.delivered ++ h.posted)) h.wrote.length
  outstanding : h.sends.outstanding = (h.completions ++ (h.delivered ++ h.posted)).length
  few : h.sends.outstanding ≤ sends
  room : h.wrote.length + h.writer.pending ≤ c + ring
  some_ : h.writer.at_ ≠ .idle → h.writer.at_ ≠ .closing → h.writer.rest ≠ []
  staged : Staged h c

/-- A reader's positions, and the completions it is going through. -/
structure Counted (h : Half Byte) : Prop where
  head : h.reader.head = h.claimed % word
  tail : h.reader.tail = h.got.length % word
  done : (∀ last, h.reader.at_ ≠ .draining last) → h.reader.done = []

/-- What a read is copying out. -/
def Copies (w r : Half Byte) : Prop :=
  let reader := r.reader
  ∃ i ≤ reader.n, r.got.length + reader.n ≤ r.claimed ∧ r.got.length % ring + reader.n ≤ ring ∧
    reader.cells = List.range' (r.got.length % ring + i) (reader.n - i) ∧
    reader.copied = (w.wrote.drop r.got.length).take i

/-- What has crossed from a side to its peer. -/
structure Crossed (w r : Half Byte) : Prop where
  count : r.claimed + (r.reader.done.sum + r.landed.sum) + dataOf w.posted = w.wrote.length
  behind : r.got.length ≤ r.claimed
  got : r.got = w.wrote.take r.got.length
  unread : Holds ring r.inbox r.got.length
    ((w.wrote.take (w.wrote.length - dataOf w.posted)).drop r.got.length)
  copying : r.reader.at_ = .copying → Copies w r
  told : ∃ k, w.counter = k % word ∧ w.wrote.length + w.writer.pending ≤ k + ring ∧
    Told k (positionsOf r.posted) r.got.length

/-- One side of a link and the other. -/
structure Ends (h p : Half Byte) : Prop where
  sent : ∃ c, Sent h c
  counted : Counted h
  out : Crossed h p
  back : Crossed p h

/-- What holds of a link at every moment. -/
def Sound (l : Link Byte) : Prop := ∀ s, Ends (l s) (l s.peer)

variable {h h' p w w' r r' : Half Byte} {c : ℕ}

theorem Sent.congr (hs : Sent h c) (hwriter : h'.writer = h.writer) (hwrote : h'.wrote = h.wrote)
    (hstaging : h'.staging = h.staging) (hsends : h'.sends = h.sends)
    (hall : h'.completions ++ (h'.delivered ++ h'.posted) =
      h.completions ++ (h.delivered ++ h.posted)) : Sent h' c := by
  obtain ⟨head, completed, laid, outstanding, few, room, some_, staged⟩ := hs
  refine ⟨?_, ?_, ?_, ?_, ?_, ?_, ?_, ?_⟩
  · rwa [hwriter, hwrote]
  · rwa [hsends]
  · rwa [hall, hwrote]
  · rwa [hall, hsends]
  · rwa [hsends]
  · rwa [hwriter, hwrote]
  · rwa [hwriter]
  · unfold Staged at staged ⊢
    rwa [hwriter, hwrote, hstaging]

theorem Crossed.congr_out (hc : Crossed w r) (hwrote : w'.wrote = w.wrote)
    (hposted : dataOf w'.posted = dataOf w.posted) (hcounter : w'.counter = w.counter)
    (hpending : w'.writer.pending ≤ w.writer.pending) : Crossed w' r := by
  obtain ⟨count, behind, got, unread, copying, k, hk, hroom, htold⟩ := hc
  refine ⟨?_, behind, ?_, ?_, ?_, k, hcounter.trans hk, ?_, htold⟩
  · rwa [hwrote, hposted]
  · rwa [hwrote]
  · rwa [hwrote, hposted]
  · unfold Copies at copying ⊢
    rwa [hwrote]
  · rw [hwrote]
    omega

theorem Crossed.congr_in (hc : Crossed w r)
    (hcount : r'.claimed + (r'.reader.done.sum + r'.landed.sum) =
      r.claimed + (r.reader.done.sum + r.landed.sum))
    (hbehind : r.claimed ≤ r'.claimed) (hgot : r'.got = r.got) (hinbox : r'.inbox = r.inbox)
    (hposted : positionsOf r'.posted = positionsOf r.posted)
    (hcopying : r'.reader.at_ = .copying → Copies w r') : Crossed w r' := by
  obtain ⟨count, behind, got, unread, -, told⟩ := hc
  refine ⟨?_, ?_, ?_, ?_, hcopying, ?_⟩
  · rw [hcount, count]
  · rw [hgot]
    exact behind.trans hbehind
  · rw [hgot]
    exact got
  · rw [hgot, hinbox]
    exact unread
  · rw [hgot, hposted]
    exact told

theorem Crossed.bounds (hc : Crossed w r) :
    r.claimed ≤ w.wrote.length ∧ w.wrote.length ≤ r.got.length + ring := by
  obtain ⟨k, -, hroom, htold⟩ := hc.told
  have hcount := hc.count
  have hle := htold.le
  constructor <;> omega

theorem Ends.held (he : Ends h p) :
    held h.reader.head h.reader.tail = some (h.claimed - h.got.length) := by
  have hbounds := he.back.bounds
  rw [he.counted.head, he.counted.tail]
  exact held_mod he.back.behind (by omega)

variable {l : Link Byte} {s : Side} {n : ℕ} {rest : List Request}

theorem Sound.move (hl : Sound l) (he : Ends h' (l s.peer)) :
    Sound (Function.update l s h') := by
  intro t
  by_cases ht : t = s
  · subst ht
    rw [Function.update_self, Function.update_of_ne t.peer_ne]
    exact he
  · obtain rfl : t = s.peer := by cases t <;> cases s <;> first | rfl | exact absurd rfl ht
    rw [Side.peer_peer, Function.update_self, Function.update_of_ne s.peer_ne]
    have hpeer := hl s.peer
    exact ⟨hpeer.sent, hpeer.counted, he.back, he.out⟩

theorem Staged.further {d : ℕ} (hs : Staged h c) (hle : c ≤ d) (hd : d ≤ h.wrote.length) :
    Staged h d := by
  have hdrop {x : List Byte} (hx : Holds ring h.staging c (h.wrote.drop c ++ x)) :
      Holds ring h.staging d (h.wrote.drop d ++ x) := by
    have := hx.drop (d - c)
    rw [List.drop_append_of_le_length (by rw [List.length_drop]; omega), List.drop_drop,
      Nat.add_sub_cancel' hle] at this
    exact this
  have hdrop' (hx : Holds ring h.staging c (h.wrote.drop c)) :
      Holds ring h.staging d (h.wrote.drop d) := by
    have := @hdrop [] (by rwa [List.append_nil])
    rwa [List.append_nil] at this
  unfold Staged at hs ⊢
  dsimp only at hs ⊢
  split at hs
  · obtain ⟨hholds, b, hb, hrest⟩ := hs
    exact ⟨hdrop' hholds, b, hb.trans hle, hrest⟩
  · obtain ⟨htaken, i, hi, hstores, hholds⟩ := hs
    exact ⟨htaken, i, hi, hstores, hdrop hholds⟩
  · exact ⟨hs.1, hdrop hs.2⟩
  · exact ⟨hs.1, hdrop hs.2⟩
  · exact hdrop' hs

theorem Sent.reap (hs : Sent h c) : ∃ d, Sent h.reap d := by
  obtain ⟨d, hdone, hlaid⟩ := hs.laid.split
  obtain ⟨hcompleted, hout⟩ := hdone.reap hs.completed
  have hle := hdone.dataOf_eq
  have hd := hlaid.dataOf_eq
  have hlen := hs.outstanding
  rw [List.length_append] at hlen
  have hsends : h.reap.sends = h.completions.foldl (fun s r => s.reap r.wrId) h.sends := rfl
  have hall : h.reap.completions ++ (h.reap.delivered ++ h.reap.posted) =
      h.delivered ++ h.posted := rfl
  refine ⟨d, hs.head, hcompleted, hlaid, ?_, ?_, ?_, hs.some_, ?_⟩
  · rw [hsends, hall, hout]
    omega
  · rw [hsends, hout]
    have := hs.few
    omega
  · have := hs.room
    exact this.trans (by omega)
  · exact hs.staged.further (by omega) (by omega)

theorem Ends.reap (he : Ends h p) : Ends h.reap p := by
  obtain ⟨c, hs⟩ := he.sent
  refine ⟨hs.reap, ?_, he.out.congr_out rfl rfl rfl le_rfl, ?_⟩
  · exact ⟨he.counted.head, he.counted.tail, he.counted.done⟩
  · exact he.back.congr_in rfl le_rfl rfl rfl rfl he.back.copying

theorem Reader.next_cases (r : Reader Byte) :
    ∃ at_, (at_ = .idle ∨ at_ = .polling false false ∨ at_ = .taking) ∧
      r.next = { r with at_ } := by
  unfold Reader.next
  split
  · exact ⟨.idle, .inl rfl, rfl⟩
  · cases held r.head r.tail with
    | none => exact ⟨.idle, .inl rfl, rfl⟩
    | some n =>
      by_cases hn : n = 0
      · exact ⟨_, .inr (.inl rfl), by rw [Option.elim_some, if_pos hn]⟩
      · exact ⟨.taking, .inr (.inr rfl), by rw [Option.elim_some, if_neg hn]⟩

theorem Reader.took_cases (r : Reader Byte) :
    ∃ at_ told, (at_ = .telling ∨ at_ = .idle ∨ at_ = .polling false false ∨ at_ = .taking) ∧
      r.took = { r with
        at_, told, tail := wrappingAdd r.tail r.n, want := r.want - r.n, copied := [] } := by
  unfold Reader.took
  dsimp only
  split
  · exact ⟨.telling, _, .inl rfl, rfl⟩
  · obtain ⟨at_, hat, hnext⟩ := Reader.next_cases
      { r with tail := wrappingAdd r.tail r.n, want := r.want - r.n, copied := [] }
    exact ⟨at_, r.told, .inr hat, hnext⟩

/-- Another place of a reader, with all it has counted. -/
structure Half.Turns (h : Half Byte) (r' : Reader Byte) : Prop where
  head : r'.head = h.reader.head
  tail : r'.tail = h.reader.tail
  done : r'.done = h.reader.done
  copying : r'.at_ ≠ .copying
  drained : (∀ last, h.reader.at_ ≠ .draining last) ∨ h.reader.done = []

theorem Ends.turn (he : Ends h p) {r' : Reader Byte} (armed : Bool) (events : ℕ) (gone : Bool)
    (ht : h.Turns r') : Ends { h with reader := r', armed, events, gone } p := by
  obtain ⟨c, hs⟩ := he.sent
  refine ⟨⟨c, hs.congr rfl rfl rfl rfl rfl⟩, ⟨?_, ?_, ?_⟩, he.out.congr_out rfl rfl rfl le_rfl, ?_⟩
  · exact ht.head.trans he.counted.head
  · exact ht.tail.trans he.counted.tail
  · exact fun _ => ht.done.trans (ht.drained.elim he.counted.done id)
  · refine he.back.congr_in ?_ le_rfl rfl rfl rfl fun hat => absurd hat ht.copying
    dsimp only
    rw [ht.done]

theorem Ends.poll (he : Ends h p) {last : Bool} (hdone : h.reader.done = []) :
    Ends { h with
      reader := { h.reader with at_ := .draining last, done := h.landed.take polled }
      landed := h.landed.drop polled } p := by
  obtain ⟨c, hs⟩ := he.sent
  refine ⟨⟨c, hs.congr rfl rfl rfl rfl rfl⟩, ⟨he.counted.head, he.counted.tail, ?_⟩,
    he.out.congr_out rfl rfl rfl le_rfl, ?_⟩
  · exact fun hat => absurd rfl (hat last)
  · refine he.back.congr_in ?_ le_rfl rfl rfl rfl nofun
    have hsum : (h.landed.take polled).sum + (h.landed.drop polled).sum = h.landed.sum := by
      rw [← List.sum_append, List.take_append_drop]
    simp only [hsum, hdone, List.sum_nil, Nat.zero_add]

theorem Ends.drained (he : Ends h p) {last : Bool} (hat : h.reader.at_ = .draining last)
    {done : List ℕ} (hdone : h.reader.done = n :: done) :
    Ends { h with
      reader := { h.reader with head := wrappingAdd h.reader.head n, done }
      receives := h.receives + 1
      claimed := h.claimed + n } p := by
  obtain ⟨c, hs⟩ := he.sent
  refine ⟨⟨c, hs.congr rfl rfl rfl rfl rfl⟩, ⟨?_, he.counted.tail, ?_⟩,
    he.out.congr_out rfl rfl rfl le_rfl, ?_⟩
  · dsimp only
    rw [he.counted.head, wrappingAdd_mod]
  · exact fun hnot => absurd hat (hnot last)
  · refine he.back.congr_in ?_ (Nat.le_add_right ..) rfl rfl rfl fun h => ?_
    · simp only [hdone, List.sum_cons]
      omega
    · cases hat.symm.trans h

theorem Ends.take (he : Ends h p) (hdone : h.reader.done = []) :
    Ends { h with reader := h.reader.take } p := by
  obtain ⟨c, hs⟩ := he.sent
  have hmod : h.reader.tail % ring = h.got.length % ring := by rw [he.counted.tail, mod_ring]
  have htake : h.reader.take = h.reader.taking
      (min (min (h.claimed - h.got.length) h.reader.want) (ring - h.reader.tail % ring)) := by
    rw [Reader.take, he.held, Option.elim_some]
  rw [htake]
  refine ⟨⟨c, hs.congr rfl rfl rfl rfl rfl⟩, ⟨he.counted.head, he.counted.tail, fun _ => hdone⟩,
    he.out.congr_out rfl rfl rfl le_rfl, ?_⟩
  refine he.back.congr_in rfl le_rfl rfl rfl rfl fun _ => ?_
  have hbehind := he.back.behind
  have hlt : h.got.length % ring < ring := Nat.mod_lt _ ring_pos
  dsimp only [Copies, Reader.taking]
  rw [hmod]
  exact ⟨0, Nat.zero_le _, by omega, by omega, rfl, rfl⟩

theorem Crossed.inbox (hc : Crossed w r) {i : ℕ} (hi : r.got.length + i < r.claimed) :
    ∃ hlt : i < (w.wrote.drop r.got.length).length,
      r.inbox ((r.got.length + i) % ring) = (w.wrote.drop r.got.length)[i] := by
  have hcount := hc.count
  have hlt : i < (w.wrote.drop r.got.length).length := by
    rw [List.length_drop]
    omega
  have hin : i <
      ((w.wrote.take (w.wrote.length - dataOf w.posted)).drop r.got.length).length := by
    rw [List.length_drop, List.length_take]
    omega
  refine ⟨hlt, (hc.unread i hin).trans ?_⟩
  rw [List.getElem_drop, List.getElem_take, List.getElem_drop]

theorem Ends.copy (he : Ends h p) (hat : h.reader.at_ = .copying) {cell : ℕ} {cells : List ℕ}
    (hcells : h.reader.cells = cell :: cells) :
    Ends { h with
      reader := { h.reader with cells, copied := h.reader.copied ++ [h.inbox cell] } } p := by
  obtain ⟨c, hs⟩ := he.sent
  refine ⟨⟨c, hs.congr rfl rfl rfl rfl rfl⟩,
    ⟨he.counted.head, he.counted.tail, he.counted.done⟩, he.out.congr_out rfl rfl rfl le_rfl, ?_⟩
  refine he.back.congr_in rfl le_rfl rfl rfl rfl fun _ => ?_
  obtain ⟨i, hi, hbehind, hfits, heq, hcopied⟩ := he.back.copying hat
  rw [hcells] at heq
  have hlt : i < h.reader.n := by
    by_contra hnot
    rw [show h.reader.n - i = 0 by omega] at heq
    cases heq
  obtain ⟨m, hm⟩ : ∃ m, h.reader.n - i = m + 1 := ⟨h.reader.n - i - 1, by omega⟩
  rw [hm, List.range'_succ] at heq
  obtain ⟨rfl, rfl⟩ := List.cons.inj heq
  obtain ⟨hin, hbyte⟩ := he.back.inbox (show h.got.length + i < h.claimed by omega)
  rw [Circular.cell_add hfits hlt] at hbyte
  refine ⟨i + 1, hlt, hbehind, hfits, ?_, ?_⟩
  · dsimp only
    rw [show h.reader.n - (i + 1) = m by omega, Nat.add_assoc]
  · dsimp only
    rw [hcopied, hbyte, List.take_append_getElem]

theorem Ends.took (he : Ends h p) (hat : h.reader.at_ = .copying) (hcells : h.reader.cells = []) :
    Ends { h with reader := h.reader.took, got := h.got ++ h.reader.copied } p := by
  obtain ⟨c, hs⟩ := he.sent
  obtain ⟨i, hi, hbehind, hfits, heq, hcopied⟩ := he.back.copying hat
  obtain rfl : i = h.reader.n := by
    rw [hcells] at heq
    have := congrArg List.length heq
    rw [List.length_range', List.length_nil] at this
    omega
  have hbounds := he.back.bounds
  have hgot : h.got ++ h.reader.copied = p.wrote.take (h.got.length + h.reader.n) := by
    rw [hcopied, List.take_add, ← he.back.got]
  have hlen : (h.got ++ h.reader.copied).length = h.got.length + h.reader.n := by
    rw [hgot, List.length_take]
    omega
  have hdone := he.counted.done (by rw [hat]; nofun)
  obtain ⟨at_, told, hnext, htook⟩ := h.reader.took_cases
  have hne : at_ ≠ .copying := by rintro rfl; simp at hnext
  rw [htook]
  refine ⟨⟨c, hs.congr rfl rfl rfl rfl rfl⟩, ⟨he.counted.head, ?_, fun _ => hdone⟩,
    he.out.congr_out rfl rfl rfl le_rfl, ⟨he.back.count, ?_, ?_, ?_, fun h => absurd h hne, ?_⟩⟩
  · dsimp only
    rw [he.counted.tail, wrappingAdd_mod, hlen]
  · dsimp only
    rw [hlen]
    exact hbehind
  · dsimp only
    rw [hlen]
    exact hgot
  · dsimp only
    rw [hlen, ← List.drop_drop]
    exact he.back.unread.drop _
  · obtain ⟨k, hcounter, hroom, htold⟩ := he.back.told
    dsimp only
    rw [hlen]
    exact ⟨k, hcounter, hroom, htold.mono (Nat.le_add_right ..)⟩

theorem Ends.tell (he : Ends h p) (hroom : h.sends.outstanding < sends) {at_ : ReadAt}
    (hcopying : at_ ≠ .copying) (hdone : h.reader.done = []) :
    Ends { h.post (.position h.reader.tail) with reader := { h.reader with at_ } } p := by
  obtain ⟨c, hs⟩ := he.sent
  have hall : h.completions ++ (h.delivered ++ (h.posted ++ [.position h.reader.tail])) =
      h.completions ++ (h.delivered ++ h.posted) ++ [.position h.reader.tail] := by
    simp only [List.append_assoc]
  refine ⟨⟨c, hs.head, hs.completed, ?_, ?_, hroom, hs.room, hs.some_, hs.staged⟩,
    ⟨he.counted.head, he.counted.tail, fun _ => hdone⟩, ?_, ?_⟩
  · have := hs.laid.snoc_position h.reader.tail
    rwa [← hall] at this
  · have := congrArg (· + 1) hs.outstanding
    dsimp only [Half.post] at this ⊢
    rw [this, hall, @List.length_append _ _ [_], List.length_singleton]
  · exact he.out.congr_out rfl (by simp [Half.post, dataOf]) rfl le_rfl
  · obtain ⟨count, behind, got, unread, -, k, hcounter, hk, htold⟩ := he.back
    refine ⟨count, behind, got, unread, fun h => absurd h hcopying, k, hcounter, hk, ?_⟩
    dsimp only [Half.post]
    rw [positionsOf_append, he.counted.tail]
    exact htold.snoc

theorem Ends.reader (he : Ends h p) (hstep : h.stepReader = some h') : Ends h' p := by
  unfold Half.stepReader at hstep
  dsimp only at hstep
  split at hstep
  next => cases hstep
  next last landed hat =>
    have hdone := he.counted.done (by rw [hat]; nofun)
    split at hstep
    next =>
      split at hstep
      · cases hstep
        unfold Reader.filled
        refine he.turn _ _ _ ⟨rfl, rfl, rfl, ?_, .inr hdone⟩
        dsimp only
        split <;> nofun
      · split at hstep <;> cases hstep
        · exact he.turn _ _ _ ⟨rfl, rfl, rfl, nofun, .inr hdone⟩
        · exact he.turn _ _ _ ⟨rfl, rfl, rfl, nofun, .inr hdone⟩
    next =>
      cases hstep
      exact he.poll hdone
  next last hat =>
    split at hstep
    next n done hdone =>
      cases hstep
      exact he.drained hat hdone
    next hdone =>
      cases hstep
      refine he.turn _ _ _ ⟨rfl, rfl, rfl, ?_, .inr hdone⟩
      rw [he.held]
      nofun
  next hat =>
    cases hstep
    refine he.turn _ _ _ ⟨rfl, rfl, rfl, ?_, .inl (by rw [hat]; nofun)⟩
    dsimp only
    split <;> nofun
  next hat =>
    split at hstep
    · cases hstep
    · cases hstep
      exact he.turn _ _ _ ⟨rfl, rfl, rfl, nofun, .inl (by rw [hat]; nofun)⟩
  next hat =>
    cases hstep
    exact he.take (he.counted.done (by rw [hat]; nofun))
  next hat =>
    split at hstep
    next cell cells hcells =>
      cases hstep
      exact he.copy hat hcells
    next hcells =>
      cases hstep
      exact he.took hat hcells
  next hat =>
    split at hstep
    · cases hstep
      exact he.turn _ _ _ ⟨rfl, rfl, rfl, nofun, .inl (by rw [hat]; nofun)⟩
    · cases hstep
  next hat =>
    have hdone := he.counted.done (by rw [hat]; nofun)
    split at hstep
    next hroom =>
      cases hstep
      obtain ⟨at_, hcase, hnext⟩ := h.reader.next_cases
      rw [hnext]
      refine he.reap.tell hroom ?_ hdone
      rintro rfl
      simp at hcase
    next =>
      split at hstep <;> cases hstep
      · exact he.reap.turn _ _ _ ⟨rfl, rfl, rfl, nofun, .inr hdone⟩
      · exact he.reap

/-- A place where a write has taken nothing. -/
def WriteAt.Plain (a : WriteAt) : Prop :=
  a = .idle ∨ a = .starting ∨ a = .reaping ∨ a = .full ∨ a = .closing

theorem Staged.base (hs : Staged h c) : Holds ring h.staging c (h.wrote.drop c) := by
  unfold Staged at hs
  dsimp only at hs
  split at hs
  · exact hs.1
  · obtain ⟨-, i, -, -, hholds⟩ := hs
    exact hholds.left
  · exact hs.2.left
  · exact hs.2.left
  · exact hs

theorem Writer.pending_plain {w : Writer Byte} (hw : w.at_.Plain) : w.pending = 0 := by
  unfold Writer.pending
  rcases hw with h | h | h | h | h <;> rw [h]

theorem Ends.pass (he : Ends h p) {w' : Writer Byte} (gone side : Bool)
    (hhead : w'.head = h.writer.head) (hplain : w'.at_.Plain)
    (hrest : w'.at_ ≠ .idle → w'.at_ ≠ .closing → w'.rest ≠ []) :
    Ends { h with writer := w', gone, side } p := by
  obtain ⟨c, hs⟩ := he.sent
  have hpending := Writer.pending_plain hplain
  have hroom := hs.room
  refine ⟨⟨c, hhead.trans hs.head, hs.completed, hs.laid, hs.outstanding, hs.few, ?_, hrest, ?_⟩,
    ⟨he.counted.head, he.counted.tail, he.counted.done⟩, he.out.congr_out rfl rfl rfl ?_,
    he.back.congr_in rfl le_rfl rfl rfl rfl he.back.copying⟩
  · dsimp only
    omega
  · have hbase := hs.staged.base
    unfold Staged
    dsimp only
    rcases hplain with h | h | h | h | h <;> rw [h] <;> exact hbase
  · dsimp only
    omega

theorem Ends.noted (he : Ends h p) (hrest : h.writer.rest ≠ []) :
    Ends { h with
      writer := { h.writer with at_ := .looking, completed := h.sends.completed } } p := by
  obtain ⟨c, hs⟩ := he.sent
  have hroom := hs.room
  refine ⟨⟨c, hs.head, hs.completed, hs.laid, hs.outstanding, hs.few, ?_, fun _ _ => hrest, ?_⟩,
    ⟨he.counted.head, he.counted.tail, he.counted.done⟩, he.out.congr_out rfl rfl rfl ?_,
    he.back.congr_in rfl le_rfl rfl rfl rfl he.back.copying⟩
  · exact (Nat.add_le_add_left (Nat.zero_le _) _).trans hroom
  · exact ⟨hs.staged.base, c, le_rfl, hs.completed, (Nat.le_add_right ..).trans hroom⟩
  · exact Nat.zero_le _

/-- A write takes what there is room for, in the peer's inbox and in the staging area. -/
theorem Ends.look (he : Ends h p) (hat : h.writer.at_ = .looking) :
    Ends { h with writer := h.writer.look h.counter } p := by
  obtain ⟨c, hs⟩ := he.sent
  have hrest := hs.some_ (by rw [hat]; nofun) (by rw [hat]; nofun)
  have hstaged := hs.staged
  unfold Staged at hstaged
  simp only [hat] at hstaged
  obtain ⟨hholds, b, hb, hcompleted, hbroom⟩ := hstaged
  obtain ⟨k, hk, hkroom, htold⟩ := he.out.told
  have hlaid := hs.laid.dataOf_eq
  have hkle : k ≤ h.wrote.length :=
    htold.le.trans (he.out.behind.trans he.out.bounds.1)
  have hread : wrappingSub h.writer.head h.counter = h.wrote.length - k := by
    rw [hs.head, hk]
    exact wrappingSub_mod hkle (by omega)
  have hdone : wrappingSub h.writer.head h.writer.completed = h.wrote.length - b := by
    rw [hs.head, hcompleted]
    exact wrappingSub_mod (by omega) hbroom
  have hat' : h.writer.head % ring = h.wrote.length % ring := by rw [hs.head, mod_ring]
  have hlook : h.writer.look h.counter =
      if max (h.wrote.length - k) (h.wrote.length - b) < ring then
        h.writer.accept (min (min (min (ring - max (h.wrote.length - k) (h.wrote.length - b))
          h.writer.rest.length) (ring - h.wrote.length % ring)) chunk)
      else { h.writer with at_ := .full } := by
    rw [Writer.look, hread, hdone, hat']
    exact if_neg (by omega)
  rw [hlook]
  split
  next hused =>
    generalize hn : min (min (min (ring - max (h.wrote.length - k) (h.wrote.length - b))
      h.writer.rest.length) (ring - h.wrote.length % ring)) chunk = n
    have hchunk : 0 < chunk := by decide
    have hcell : h.wrote.length % ring < ring := Nat.mod_lt _ ring_pos
    have hlen : 0 < h.writer.rest.length := List.length_pos_of_ne_nil hrest
    refine ⟨⟨c, hs.head, hs.completed, hs.laid, hs.outstanding, hs.few, ?_, fun _ _ => hrest, ?_⟩,
      ⟨he.counted.head, he.counted.tail, he.counted.done⟩, ?_,
      he.back.congr_in rfl le_rfl rfl rfl rfl he.back.copying⟩
    · change h.wrote.length + n ≤ c + ring
      omega
    · refine ⟨⟨?_, ?_, ?_⟩, 0, Nat.zero_le _, ?_, ?_⟩
      · change 0 < n
        omega
      · change n ≤ h.writer.rest.length
        omega
      · change h.wrote.length % ring + n ≤ ring
        omega
      · dsimp only [Writer.accept]
        rw [hat']
        rfl
      · dsimp only [Writer.accept]
        rwa [List.take_zero, List.append_nil]
    · obtain ⟨count, behind, got, unread, copying, -⟩ := he.out
      refine ⟨count, behind, got, unread, copying, k, hk, ?_, htold⟩
      change h.wrote.length + n ≤ k + ring
      omega
  next => exact he.pass _ _ rfl (.inr (.inr (.inr (.inl rfl)))) fun _ _ => hrest

theorem Sent.copying (hs : Sent h c) (hat : h.writer.at_ = .copying) :
    Taken h.writer h.wrote.length ∧ h.wrote.length + h.writer.n ≤ c + ring ∧ ∃ i ≤ h.writer.n,
      h.writer.stores = (List.range' (h.wrote.length % ring + i) (h.writer.n - i)).zip
        ((h.writer.rest.take h.writer.n).drop i) ∧
      Holds ring h.staging c (h.wrote.drop c ++ (h.writer.rest.take h.writer.n).take i) := by
  have hstaged := hs.staged
  have hroom := hs.room
  unfold Staged at hstaged
  unfold Writer.pending at hroom
  simp only [hat] at hstaged hroom
  exact ⟨hstaged.1, hroom, hstaged.2⟩

theorem Ends.stage (he : Ends h p) (hat : h.writer.at_ = .copying) {cell : ℕ} {b : Byte}
    {stores : List (ℕ × Byte)} (hstores : h.writer.stores = (cell, b) :: stores) :
    Ends { h with
      staging := Function.update h.staging cell b
      writer := { h.writer with stores } } p := by
  obtain ⟨c, hs⟩ := he.sent
  obtain ⟨htaken, hroom, i, hi, heq, hholds⟩ := hs.copying hat
  have hlen : (h.writer.rest.take h.writer.n).length = h.writer.n := by
    rw [List.length_take, min_eq_left htaken.le]
  have hlt : i < h.writer.n := by
    by_contra hnot
    rw [hstores, show h.writer.n - i = 0 by omega] at heq
    cases heq
  obtain ⟨m, hm⟩ : ∃ m, h.writer.n - i = m + 1 := ⟨h.writer.n - i - 1, by omega⟩
  rw [hstores, hm, List.range'_succ, List.drop_eq_getElem_cons (by omega), List.zip_cons_cons] at heq
  obtain ⟨hfirst, rfl⟩ := List.cons.inj heq
  obtain ⟨rfl, rfl⟩ := Prod.mk.inj hfirst
  refine ⟨⟨c, hs.head, hs.completed, hs.laid, hs.outstanding, hs.few, hs.room, hs.some_, ?_⟩,
    ⟨he.counted.head, he.counted.tail, he.counted.done⟩, he.out.congr_out rfl rfl rfl le_rfl,
    he.back.congr_in rfl le_rfl rfl rfl rfl he.back.copying⟩
  unfold Staged
  simp only [hat]
  refine ⟨⟨htaken.pos, htaken.le, htaken.fits⟩, i + 1, hlt, ?_, ?_⟩
  · rw [show h.writer.n - (i + 1) = m by omega, Nat.add_assoc]
  · have hitems : (h.wrote.drop c ++ (h.writer.rest.take h.writer.n).take i).length =
        h.wrote.length - c + i := by
      rw [List.length_append, List.length_drop, List.length_take, hlen, min_eq_left hi]
    have hle := hs.laid.dataOf_eq
    have hcell : (c + (h.wrote.drop c ++ (h.writer.rest.take h.writer.n).take i).length) % ring =
        h.wrote.length % ring + i := by
      rw [hitems, ← Circular.cell_add htaken.fits hlt]
      congr 1
      omega
    have hnext := hholds.snoc (by omega) ((h.writer.rest.take h.writer.n)[i])
    rwa [hcell, List.append_assoc, List.take_append_getElem] at hnext

theorem Ends.staged (he : Ends h p) (hat : h.writer.at_ = .copying) (hstores : h.writer.stores = []) :
    Ends { h with writer := { h.writer with at_ := .locking } } p := by
  obtain ⟨c, hs⟩ := he.sent
  obtain ⟨htaken, hroom, i, hi, heq, hholds⟩ := hs.copying hat
  have hrest := hs.some_ (by rw [hat]; nofun) (by rw [hat]; nofun)
  have hlen : (h.writer.rest.take h.writer.n).length = h.writer.n := by
    rw [List.length_take, min_eq_left htaken.le]
  obtain rfl : i = h.writer.n := by
    have := congrArg List.length heq
    rw [hstores, List.length_zip, List.length_range', List.length_drop, hlen, min_self,
      List.length_nil] at this
    omega
  rw [List.take_take, min_self] at hholds
  refine ⟨⟨c, hs.head, hs.completed, hs.laid, hs.outstanding, hs.few, hroom, fun _ _ => hrest, ?_⟩,
    ⟨he.counted.head, he.counted.tail, he.counted.done⟩, he.out.congr_out rfl rfl rfl ?_,
    he.back.congr_in rfl le_rfl rfl rfl rfl he.back.copying⟩
  · exact ⟨⟨htaken.pos, htaken.le, htaken.fits⟩, hholds⟩
  · simp only [Writer.pending, hat, le_refl]

theorem Ends.lock (he : Ends h p) (hat : h.writer.at_ = .locking) :
    Ends { h with writer := { h.writer with at_ := .posting } } p := by
  obtain ⟨c, hs⟩ := he.sent
  have hstaged := hs.staged
  have hroom := hs.room
  have hrest := hs.some_ (by rw [hat]; nofun) (by rw [hat]; nofun)
  unfold Staged at hstaged
  unfold Writer.pending at hroom
  simp only [hat] at hstaged hroom
  refine ⟨⟨c, hs.head, hs.completed, hs.laid, hs.outstanding, hs.few, hroom, fun _ _ => hrest, ?_⟩,
    ⟨he.counted.head, he.counted.tail, he.counted.done⟩, he.out.congr_out rfl rfl rfl ?_,
    he.back.congr_in rfl le_rfl rfl rfl rfl he.back.copying⟩
  · exact ⟨⟨hstaged.1.pos, hstaged.1.le, hstaged.1.fits⟩, hstaged.2⟩
  · simp only [Writer.pending, hat, le_refl]

theorem Crossed.extend (hc : Crossed w r) (hpending : w.writer.pending = w.writer.n)
    (hle : w.writer.n ≤ w.writer.rest.length) (request : w.writer.request = .data (w.wrote.length % ring)
      w.writer.n ((w.wrote.length + w.writer.n) % word)) (hplain : w.writer.wrote.at_.Plain) :
    Crossed { w.post w.writer.request with
      writer := w.writer.wrote, wrote := w.wrote ++ w.writer.rest.take w.writer.n } r := by
  obtain ⟨hclaimed, -⟩ := hc.bounds
  obtain ⟨count, behind, got, unread, copying, k, hk, hroom, htold⟩ := hc
  have hlen : (w.wrote ++ w.writer.rest.take w.writer.n).length = w.wrote.length + w.writer.n := by
    rw [List.length_append, List.length_take, min_eq_left hle]
  have hdata : dataOf (w.posted ++ [w.writer.request]) = dataOf w.posted + w.writer.n := by
    rw [dataOf_append, request]
    rfl
  refine ⟨?_, behind, ?_, ?_, ?_, k, hk, ?_, htold⟩
  · dsimp only [Half.post]
    omega
  · dsimp only
    rwa [List.take_append_of_le_length (by omega)]
  · dsimp only [Half.post]
    rwa [hlen, hdata, Nat.add_sub_add_right, List.take_append_of_le_length (by omega)]
  · intro hat
    obtain ⟨i, hi, hn, hfits, hcells, hcopied⟩ := copying hat
    refine ⟨i, hi, hn, hfits, hcells, hcopied.trans ?_⟩
    dsimp only
    rw [List.drop_append_of_le_length (by omega),
      List.take_append_of_le_length (by rw [List.length_drop]; omega)]
  · dsimp only
    rw [hlen, Writer.pending_plain hplain]
    omega

theorem Ends.posted (he : Ends h p) (hat : h.writer.at_ = .posting)
    (hfew : h.sends.outstanding < sends) :
    Ends { h.post h.writer.request with
      writer := h.writer.wrote, wrote := h.wrote ++ h.writer.rest.take h.writer.n } p := by
  obtain ⟨c, hs⟩ := he.sent
  have hstaged := hs.staged
  have hroom := hs.room
  unfold Staged at hstaged
  simp only [hat] at hstaged
  obtain ⟨htaken, hholds⟩ := hstaged
  have hpending : h.writer.pending = h.writer.n := by simp only [Writer.pending, hat]
  have hlen : (h.wrote ++ h.writer.rest.take h.writer.n).length = h.wrote.length + h.writer.n := by
    rw [List.length_append, List.length_take, min_eq_left htaken.le]
  have hrequest : h.writer.request =
      .data (h.wrote.length % ring) h.writer.n ((h.wrote.length + h.writer.n) % word) := by
    rw [Writer.request, hs.head, mod_ring, wrappingAdd_mod]
  have hplain : h.writer.wrote.at_.Plain := by
    unfold Writer.wrote
    dsimp only
    split
    · exact .inl rfl
    · exact .inr (.inl rfl)
  have hle := hs.laid.dataOf_eq
  have hall : h.completions ++ (h.delivered ++ (h.posted ++ [h.writer.request])) =
      h.completions ++ (h.delivered ++ h.posted) ++ [h.writer.request] := by
    simp only [List.append_assoc]
  refine ⟨⟨c, ?_, hs.completed, ?_, ?_, hfew, ?_, ?_, ?_⟩,
    ⟨he.counted.head, he.counted.tail, he.counted.done⟩,
    he.out.extend hpending htaken.le hrequest hplain,
    he.back.congr_in rfl le_rfl rfl rfl ?_ he.back.copying⟩
  · dsimp only [Writer.wrote]
    rw [hlen, hs.head, wrappingAdd_mod]
  · dsimp only [Half.post]
    rw [hall, hlen, hrequest]
    exact hs.laid.snoc htaken.pos htaken.fits
  · dsimp only [Half.post]
    rw [hall, hs.outstanding, @List.length_append _ _ [_], List.length_singleton]
  · dsimp only
    rw [hlen, Writer.pending_plain hplain]
    omega
  · dsimp only [Writer.wrote]
    intro hidle _
    by_contra hnone
    exact hidle (if_pos hnone)
  · have hdrop : (h.wrote ++ h.writer.rest.take h.writer.n).drop c =
        h.wrote.drop c ++ h.writer.rest.take h.writer.n :=
      List.drop_append_of_le_length (by omega)
    unfold Staged
    dsimp only
    rcases hplain with h | h | h | h | h <;> rw [h, hdrop] <;> exact hholds
  · dsimp only [Half.post]
    rw [positionsOf_append, hrequest]
    exact List.append_nil _

theorem Ends.writer (he : Ends h p) (hstep : h.stepWriter = some h') : Ends h' p := by
  have hrest (hidle : h.writer.at_ ≠ .idle) (hclosing : h.writer.at_ ≠ .closing) :
      h.writer.rest ≠ [] := he.sent.elim fun c hs => hs.some_ hidle hclosing
  have hplain (gone : Bool) : (if gone then WriteAt.idle else .reaping).Plain := by
    cases gone
    · exact .inr (.inr (.inl rfl))
    · exact .inl rfl
  unfold Half.stepWriter at hstep
  dsimp only at hstep
  split at hstep
  next => cases hstep
  next hat =>
    cases hstep
    exact he.pass _ _ rfl (hplain _) fun _ _ => hrest (by rw [hat]; nofun) (by rw [hat]; nofun)
  next hat =>
    split at hstep <;> cases hstep
    exact he.reap.noted (hrest (by rw [hat]; nofun) (by rw [hat]; nofun))
  next hat =>
    cases hstep
    exact he.look hat
  next hat =>
    cases hstep
    exact he.pass _ _ rfl (hplain _) fun _ _ => hrest (by rw [hat]; nofun) (by rw [hat]; nofun)
  next hat =>
    split at hstep
    next cell b stores hstores =>
      cases hstep
      exact he.stage hat hstores
    next hstores =>
      cases hstep
      exact he.staged hat hstores
  next hat =>
    split at hstep <;> cases hstep
    exact he.lock hat
  next hat =>
    split at hstep
    next hfew =>
      cases hstep
      exact he.reap.posted hat hfew
    next =>
      split at hstep <;> cases hstep
      · exact he.reap.pass _ _ rfl (.inl rfl) fun h => absurd rfl h
      · exact he.reap
  next hat =>
    split at hstep <;> cases hstep
    exact he.reap

theorem Ends.complete (he : Ends h p) {r : Request} (hr : h.delivered = r :: rest) :
    Ends { h with delivered := rest, completions := h.completions ++ [r] } p := by
  obtain ⟨c, hs⟩ := he.sent
  refine ⟨⟨c, hs.congr rfl rfl rfl rfl ?_⟩,
    ⟨he.counted.head, he.counted.tail, he.counted.done⟩, he.out.congr_out rfl rfl rfl le_rfl,
    he.back.congr_in rfl le_rfl rfl rfl rfl he.back.copying⟩
  rw [hr, List.append_assoc]
  rfl

theorem Ends.ended (he : Ends h p) (gone side : Bool) : Ends { h with gone, side } p := by
  obtain ⟨c, hs⟩ := he.sent
  exact ⟨⟨c, hs.congr rfl rfl rfl rfl rfl⟩, ⟨he.counted.head, he.counted.tail, he.counted.done⟩,
    he.out.congr_out rfl rfl rfl le_rfl, he.back.congr_in rfl le_rfl rfl rfl rfl he.back.copying⟩

theorem Sent.posted (hs : Sent h c) :
    c ≤ h.wrote.length - dataOf h.posted ∧
      Laid (h.wrote.length - dataOf h.posted) h.posted h.wrote.length := by
  obtain ⟨m, hdone, hlaid⟩ := hs.laid.split
  obtain ⟨m', hdelivered, hposted⟩ := hlaid.split
  have h1 := hdone.dataOf_eq
  have h2 := hdelivered.dataOf_eq
  have h3 := hposted.dataOf_eq
  obtain rfl : m' = h.wrote.length - dataOf h.posted := by omega
  exact ⟨by omega, hposted⟩

theorem Ends.place (he : Ends h p) (hp : Ends p h) {j k at_ end_ : ℕ}
    (hr : h.posted[j]? = some (.data at_ n end_)) (hk : k < n) (b : Byte) :
    Ends { p with inbox := Function.update p.inbox (at_ + k) b } h := by
  obtain ⟨c, hs⟩ := he.sent
  obtain ⟨hc, hlaid⟩ := hs.posted
  obtain ⟨m, hm, hle, rfl, hfits⟩ := hlaid.data_mem (List.mem_of_getElem? hr)
  obtain ⟨hclaimed, hring⟩ := he.out.bounds
  obtain ⟨count, behind, got, unread, copying, told⟩ := he.out
  have hlen : ((h.wrote.take (h.wrote.length - dataOf h.posted)).drop p.got.length).length =
      h.wrote.length - dataOf h.posted - p.got.length := by
    rw [List.length_drop, List.length_take]
    omega
  have hcell : m % ring + k = (p.got.length + (m + k - p.got.length)) % ring := by
    rw [← Circular.cell_add hfits hk]
    congr 1
    omega
  refine ⟨?_, ?_, he.back.congr_out rfl rfl rfl le_rfl, count, behind, got, ?_, copying, told⟩
  · exact hp.sent.imp fun c hs => hs.congr rfl rfl rfl rfl rfl
  · exact ⟨hp.counted.head, hp.counted.tail, hp.counted.done⟩
  · dsimp only
    rw [hcell]
    exact unread.update (by omega) (by omega) b

theorem Sent.deliver (hs : Sent h c) {r : Request} (hr : h.posted = r :: rest) :
    Sent { h with posted := rest, delivered := h.delivered ++ [r] } c := by
  refine hs.congr rfl rfl rfl rfl ?_
  rw [hr]
  simp only [List.append_assoc, List.singleton_append]

theorem Crossed.land (hc : Crossed h p) (hs : Sent h c) {at_ end_ : ℕ}
    (hr : h.posted = .data at_ n end_ :: rest) :
    Crossed { h with posted := rest, delivered := h.delivered ++ [.data at_ n end_] }
      { Link.land p n with inbox := Circular.overlay p.inbox h.staging at_ n } := by
  obtain ⟨hle, hlaid⟩ := hs.posted
  obtain ⟨hclaimed, hring⟩ := hc.bounds
  obtain ⟨count, behind, got, unread, copying, told⟩ := hc
  rw [hr, dataOf] at hle hlaid
  rw [hr, dataOf] at count
  have hfrom : h.wrote.length - dataOf rest = h.wrote.length - (n + dataOf rest) + n := by omega
  generalize hm : h.wrote.length - (n + dataOf rest) = m at hle hlaid hfrom
  cases hlaid with
  | data hn hfits _ =>
    have hlen : ((h.wrote.take m).drop p.got.length).length = m - p.got.length := by
      rw [List.length_drop, List.length_take]
      omega
    have hmore : ((h.wrote.drop m).take n).length = n := by
      rw [List.length_take, List.length_drop]
      omega
    have hreach : p.got.length + ((h.wrote.take m).drop p.got.length).length = m := by omega
    have hsource : Holds ring h.staging m ((h.wrote.drop m).take n) := by
      have hbase := hs.staged.base.drop (m - c)
      rw [Nat.add_sub_cancel' hle, List.drop_drop, Nat.add_sub_cancel' hle,
        ← List.take_append_drop n (h.wrote.drop m)] at hbase
      exact hbase.left
    have hunread : Holds ring p.inbox p.got.length ((h.wrote.take m).drop p.got.length) := by
      rwa [hr, dataOf, hm] at unread
    refine ⟨?_, behind, got, ?_, copying, told⟩
    · dsimp only [Link.land]
      rw [List.sum_append, List.sum_singleton]
      omega
    · have hsource' : Holds ring h.staging
          (p.got.length + ((h.wrote.take m).drop p.got.length).length)
          ((h.wrote.drop m).take n) := by rwa [hreach]
      have hnext := hunread.overlay (by omega) (by rw [hreach, hmore]; exact hfits) hsource'
      rw [hreach, hmore] at hnext
      dsimp only [Link.land]
      rwa [hfrom, List.take_add, List.drop_append_of_le_length (by rw [List.length_take]; omega)]

theorem Crossed.tell (hc : Crossed w r) {q : ℕ} (hr : r.posted = .position q :: rest) :
    Crossed { w with counter := q }
      { r with posted := rest, delivered := r.delivered ++ [.position q] } := by
  obtain ⟨count, behind, got, unread, copying, k, -, hroom, htold⟩ := hc
  rw [hr] at htold
  cases htold with
  | @cons _ j _ _ hle hrest =>
    exact ⟨count, behind, got, unread, copying, j, rfl, by dsimp only; omega, hrest⟩

theorem Ends.deliver (he : Ends h p) (hp : Ends p h) {r : Request}
    (hr : h.posted = r :: rest) (hstep : Link.receive h p r = some p') :
    let h' := { h with posted := rest, delivered := h.delivered ++ [r] }
    Ends h' p' ∧ Ends p' h' := by
  obtain ⟨c, hs⟩ := he.sent
  have hcounted : Counted { h with posted := rest, delivered := h.delivered ++ [r] } :=
    ⟨he.counted.head, he.counted.tail, he.counted.done⟩
  cases r with
  | position q =>
    cases hstep
    have hfewer : Crossed { h with posted := rest, delivered := h.delivered ++ [.position q] } p := by
      refine he.out.congr_out rfl ?_ rfl le_rfl
      rw [hr]
      rfl
    have hout : Crossed { h with posted := rest, delivered := h.delivered ++ [.position q] }
        { p with counter := q } := hfewer.congr_in rfl le_rfl rfl rfl rfl hfewer.copying
    have hback := he.back.tell hr
    refine ⟨⟨⟨c, hs.deliver hr⟩, hcounted, hout, hback⟩,
      ⟨hp.sent.imp fun c hs => hs.congr rfl rfl rfl rfl rfl,
        ⟨hp.counted.head, hp.counted.tail, hp.counted.done⟩, hback, hout⟩⟩
  | data at_ n end_ =>
    unfold Link.receive at hstep
    dsimp only at hstep
    split at hstep
    · cases hstep
    · cases hstep
      have hout := he.out.land hs hr
      have hlanded : Crossed { Link.land p n with
          inbox := Circular.overlay p.inbox h.staging at_ n } h :=
        he.back.congr_out rfl rfl rfl le_rfl
      have hback : Crossed { Link.land p n with
          inbox := Circular.overlay p.inbox h.staging at_ n }
          { h with posted := rest, delivered := h.delivered ++ [.data at_ n end_] } := by
        refine hlanded.congr_in rfl le_rfl rfl rfl ?_ hlanded.copying
        rw [hr]
        rfl
      refine ⟨⟨⟨c, hs.deliver hr⟩, hcounted, hout, hback⟩,
        ⟨hp.sent.imp fun c hs => hs.congr rfl rfl rfl rfl rfl,
          ⟨hp.counted.head, hp.counted.tail, hp.counted.done⟩, hback, hout⟩⟩

theorem Sound.both (he : Ends h' p' ∧ Ends p' h') :
    Sound (Function.update (Function.update l s h') s.peer p') := by
  intro t
  by_cases ht : t = s
  · subst ht
    rw [Function.update_of_ne t.peer_ne.symm, Function.update_self, Function.update_self]
    exact he.1
  · obtain rfl : t = s.peer := by cases t <;> cases s <;> first | rfl | exact absurd rfl ht
    rw [Side.peer_peer, Function.update_self, Function.update_of_ne s.peer_ne.symm,
      Function.update_self]
    exact he.2

theorem Sound.start (b : Byte) : Sound (Link.start b) := by
  have hcrossed : Crossed (Link.startHalf b) (Link.startHalf b) := by
    refine ⟨rfl, le_rfl, rfl, Circular.holds_nil, nofun, 0, ?_, Nat.zero_le _, .nil le_rfl⟩
    exact (Nat.zero_mod _).symm
  intro s
  refine ⟨⟨0, (Nat.zero_mod _).symm, (Nat.zero_mod _).symm, .nil 0, rfl, Nat.zero_le _,
    Nat.zero_le _, fun h => absurd rfl h, Circular.holds_nil⟩, ⟨?_, ?_, fun _ => rfl⟩, hcrossed,
    hcrossed⟩
  · exact (Nat.zero_mod _).symm
  · exact (Nat.zero_mod _).symm

/-- What a step comes to. -/
inductive Link.Comes (l : Link Byte) : Act Byte → Link Byte → Prop
  | reader {s : Side} {h' : Half Byte} (h : (l s).stepReader = some h') :
    Comes l (.reader s) (Function.update l s h')
  | writer {s : Side} {h' : Half Byte} (h : (l s).stepWriter = some h') :
    Comes l (.writer s) (Function.update l s h')
  | stays {a : Act Byte} (ha : ∀ t, a ≠ .reader t) : Comes l a l
  | turn {a : Act Byte} {s : Side} {r' : Reader Byte} (armed : Bool) (ha : ∀ t, a ≠ .reader t)
    (h : (l s).Turns r') : Comes l a (Function.update l s { l s with reader := r', armed })
  | pass {a : Act Byte} {s : Side} {w' : Writer Byte} (ha : ∀ t, a ≠ .reader t)
    (hhead : w'.head = (l s).writer.head) (hplain : w'.at_.Plain)
    (hrest : w'.at_ ≠ .idle → w'.at_ ≠ .closing → w'.rest ≠ []) :
    Comes l a (Function.update l s { l s with writer := w' })
  | close {s : Side} {at_ : WriteAt} (hat : at_ = (l s).writer.at_ ∨ at_ = .idle) :
    Comes l (.close s) (Function.update
      (Function.update l s
        { l s with gone := true, side := true, writer := { (l s).writer with at_ } })
      s.peer { l s.peer with side := true })
  | place {s : Side} {j k at_ n end_ : ℕ} (hr : (l s).posted[j]? = some (.data at_ n end_))
    (hk : k < n) : Comes l (.place s j k) (Function.update l s.peer { l s.peer with
      inbox := Function.update (l s.peer).inbox (at_ + k) ((l s).staging (at_ + k)) })
  | deliver {s : Side} {r : Request} {rest : List Request} {p' : Half Byte}
    (hr : (l s).posted = r :: rest) (hreceive : Link.receive (l s) (l s.peer) r = some p') :
    Comes l (.deliver s) (Function.update
      (Function.update l s { l s with posted := rest, delivered := (l s).delivered ++ [r] })
      s.peer p')
  | complete {s : Side} {r : Request} {rest : List Request} (hr : (l s).delivered = r :: rest) :
    Comes l (.complete s) (Function.update l s
      { l s with delivered := rest, completions := (l s).completions ++ [r] })
  /-- A peer that keeps to nothing has sent something. -/
  | sent {a : Act Byte} {s : Side} {h' : Half Byte} (ha : a.keeps = false)
    (hreader : h'.reader = (l s).reader) (hwriter : h'.writer = (l s).writer)
    (hcounts : h'.wrote = (l s).wrote ∧ h'.got = (l s).got ∧ h'.claimed = (l s).claimed)
    (hcounter : h'.counter = (l s).counter ∨ h'.counter < word)
    (hposted : h'.posted = (l s).posted) : Comes l a (Function.update l s h')

theorem Link.step_comes {l' : Link Byte} {a : Act Byte} (hstep : Link.step l a = some l') :
    l.Comes a l' := by
  cases a with
  | read s want =>
    obtain ⟨h', hh, rfl⟩ := Option.map_eq_some_iff.mp hstep
    split at hh <;> cases hh
    next hat =>
      obtain ⟨at_, hcase, hnext⟩ := Reader.next_cases { (l s).reader with want }
      rw [hnext]
      refine .turn _ nofun ⟨rfl, rfl, rfl, ?_, .inl (by rw [hat]; nofun)⟩
      rintro rfl
      simp at hcase
  | more s =>
    obtain ⟨h', hh, rfl⟩ := Option.map_eq_some_iff.mp hstep
    split at hh <;> cases hh
    next hat =>
      have hsame : l.Comes (.more s) (Function.update l s (l s)) := by
        rw [Function.update_eq_self]
        exact .stays nofun
      rw [Reader.more]
      cases held (l s).reader.head (l s).reader.tail with
      | none => exact hsame
      | some n =>
        rw [Option.elim_some]
        split
        · exact .turn _ nofun ⟨rfl, rfl, rfl, nofun, .inl (by rw [hat]; nofun)⟩
        · exact hsame
  | reader s =>
    obtain ⟨h', hh, rfl⟩ := Option.map_eq_some_iff.mp hstep
    exact .reader hh
  | writer s =>
    obtain ⟨h', hh, rfl⟩ := Option.map_eq_some_iff.mp hstep
    exact .writer hh
  | arm s =>
    obtain ⟨h', hh, rfl⟩ := Option.map_eq_some_iff.mp hstep
    split at hh <;> cases hh
    next hat => exact .turn _ nofun ⟨rfl, rfl, rfl, nofun, .inl (by rw [hat.1]; nofun)⟩
  | stir s =>
    obtain ⟨h', hh, rfl⟩ := Option.map_eq_some_iff.mp hstep
    split at hh <;> cases hh
    next hat => exact .turn _ nofun ⟨rfl, rfl, rfl, nofun, .inl (by rw [hat]; nofun)⟩
  | timeOut s =>
    obtain ⟨h', hh, rfl⟩ := Option.map_eq_some_iff.mp hstep
    split at hh <;> cases hh
    next hat => exact .turn _ nofun ⟨rfl, rfl, rfl, nofun, .inl (by rw [hat]; nofun)⟩
  | write s bytes =>
    obtain ⟨h', hh, rfl⟩ := Option.map_eq_some_iff.mp hstep
    split at hh
    · split at hh <;> cases hh
      · rw [Function.update_eq_self]
        exact .stays nofun
      · next hbytes => exact .pass nofun rfl (.inr (.inl rfl)) fun _ _ => hbytes
    · cases hh
  | giveUp s =>
    obtain ⟨h', hh, rfl⟩ := Option.map_eq_some_iff.mp hstep
    split at hh <;> cases hh
    exact .pass nofun rfl (.inl rfl) fun h => absurd rfl h
  | shut s =>
    obtain ⟨h', hh, rfl⟩ := Option.map_eq_some_iff.mp hstep
    split at hh <;> cases hh
    exact .pass nofun rfl (.inr (.inr (.inr (.inr rfl)))) fun _ h => absurd rfl h
  | close s =>
    cases hstep
    refine .close ?_
    split
    · exact .inr rfl
    · exact .inl rfl
  | place s j k =>
    rw [Link.step] at hstep
    split at hstep
    · split at hstep <;> cases hstep
      exact .place ‹_› ‹_›
    · cases hstep
  | deliver s =>
    rw [Link.step] at hstep
    split at hstep
    · cases hstep
    · obtain ⟨p', hreceive, rfl⟩ := Option.map_eq_some_iff.mp hstep
      exact .deliver ‹_› hreceive
  | complete s =>
    rw [Link.step] at hstep
    split at hstep <;> cases hstep
    exact .complete ‹_›
  | claim s n =>
    obtain ⟨h', hh, rfl⟩ := Option.map_eq_some_iff.mp hstep
    split at hh <;> cases hh
    exact .sent rfl rfl rfl ⟨rfl, rfl, rfl⟩ (.inl rfl) rfl
  | say s position =>
    cases hstep
    exact .sent rfl rfl rfl ⟨rfl, rfl, rfl⟩ (.inr (Nat.mod_lt _ word_pos)) rfl
  | scribble s inbox =>
    cases hstep
    exact .sent rfl rfl rfl ⟨rfl, rfl, rfl⟩ (.inl rfl) rfl

theorem Sound.step {l' : Link Byte} {a : Act Byte} (hl : Sound l) (hkeeps : a.keeps = true)
    (hstep : Link.step l a = some l') : Sound l' := by
  have hpeer (s : Side) : Ends (l s.peer) (l s) := by
    have := hl s.peer
    rwa [Side.peer_peer] at this
  cases Link.step_comes hstep with
  | reader h => exact hl.move ((hl _).reader h)
  | writer h => exact hl.move ((hl _).writer h)
  | stays => exact hl
  | turn armed _ h => exact hl.move ((hl _).turn armed _ _ h)
  | pass _ hhead hplain hrest => exact hl.move ((hl _).pass _ _ hhead hplain hrest)
  | @close s at_ hat =>
    have hnear : Ends { l s with gone := true, side := true, writer := { (l s).writer with at_ } }
        (l s.peer) := by
      rcases hat with rfl | rfl
      · exact (hl s).ended _ _
      · exact (hl s).pass _ _ rfl (.inl rfl) fun h => absurd rfl h
    have hfar := (Ends.mk (hpeer s).sent (hpeer s).counted hnear.back hnear.out).ended
      (l s.peer).gone true
    obtain ⟨hsent, hcounted, -, -⟩ := hnear
    exact Sound.both ⟨⟨hsent, hcounted, hfar.back, hfar.out⟩, hfar⟩
  | @place s j k at_ n end_ hr hk =>
    refine hl.move ?_
    rw [Side.peer_peer]
    exact (hl s).place (hpeer s) hr hk _
  | deliver hr hreceive => exact Sound.both ((hl _).deliver (hpeer _) hr hreceive)
  | complete hr => exact hl.move ((hl _).complete hr)
  | sent ha => rw [hkeeps] at ha; cases ha

theorem Sound.run {b : Byte} {acts : List (Act Byte)}
    (h : run (only (fun _ a => a.keeps = true) Link.step) (Link.start b) acts = some l) :
    Sound l := by
  have hkept : Kept (only (fun _ (a : Act Byte) => a.keeps = true) Link.step) Sound := by
    intro l a l' hl hstep
    obtain ⟨hkeeps, hstep⟩ := only_eq_some.mp hstep
    exact hl.step hkeeps hstep
  exact hkept.run (Sound.start b) h

end Guatiao.Rdma
