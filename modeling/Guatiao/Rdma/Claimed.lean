import Guatiao.Rdma.Sound

/-!
# What a peer may claim

A side goes by the lengths and the positions its peer sends. Whatever they are, a writer refuses a
position that is not within a ring of its own, and a reader refuses more bytes than a ring holds
beyond what it has read: but it checks after each poll, on positions that wrap, and lengths of one
poll that come to a whole turn of them go by unseen.
-/

namespace Guatiao.Rdma

open Lib

variable {Byte : Type}

/-- What holds of a side whatever its peer sends. -/
structure Tallied (h : Half Byte) : Prop where
  head : h.reader.head = h.claimed % word
  tail : h.reader.tail = h.got.length % word
  behind : h.got.length ≤ h.claimed
  done : (∀ last, h.reader.at_ ≠ .draining last) → h.reader.done = []
  copying : h.reader.at_ = .copying →
    h.reader.copied.length + h.reader.cells.length = h.reader.n ∧
      h.got.length + h.reader.n ≤ h.claimed ∧ (h.claimed - h.got.length) % word ≤ ring
  written : h.writer.head = h.wrote.length % word
  counter : h.counter < word
  positions : ∀ p ∈ positionsOf h.posted, p < word
  taken : h.writer.at_ = .copying ∨ h.writer.at_ = .locking ∨ h.writer.at_ = .posting →
    h.writer.n ≤ h.writer.rest.length

/-- The bytes a reader has been told of and has not read, those of its look included. -/
def Half.owed (h : Half Byte) : ℕ := h.claimed + h.reader.done.sum - h.got.length

/-- A reader whose look passes its check is told of no more than the ring holds. -/
def Trusts (h : Half Byte) : Prop :=
  held (h.reader.done.foldl wrappingAdd h.reader.head) h.reader.tail ≠ none → h.owed ≤ ring

/-- Lengths that do not come to a whole turn of the positions, or leave more than a ring. -/
def Unwrapped (owed : ℕ) : Prop := owed < word ∨ ring < owed % word

instance (owed : ℕ) : Decidable (Unwrapped owed) := inferInstanceAs (Decidable (_ ∨ _))

theorem wrappingSub_of_le {a b : ℕ} (hle : b ≤ a) :
    wrappingSub (a % word) (b % word) = (a - b) % word := by
  rw [wrappingSub, word_eq]
  omega

theorem held_of_le {a b : ℕ} (hle : b ≤ a) :
    held (a % word) (b % word) ≠ none ↔ (a - b) % word ≤ ring := by
  simp only [held, wrappingSub_of_le hle]
  split
  next h => simpa using h
  next h => simpa using h

theorem foldl_wrappingAdd (a : ℕ) (l : List ℕ) :
    l.foldl wrappingAdd (a % word) = (a + l.sum) % word := by
  induction l generalizing a with
  | nil => rfl
  | cons n l ih => rw [List.foldl_cons, wrappingAdd_mod, ih, List.sum_cons, Nat.add_assoc]

theorem trusts_iff {h : Half Byte} (ht : Tallied h) : Trusts h ↔ Unwrapped h.owed := by
  have hle : h.got.length ≤ h.claimed + h.reader.done.sum := ht.behind.trans (Nat.le_add_right ..)
  have hword : ring < word := by rw [ring_eq, word_eq]; decide
  rw [Trusts, ht.head, ht.tail, foldl_wrappingAdd, held_of_le hle, Unwrapped, ← Half.owed]
  constructor
  · intro h'
    by_cases hsmall : h.owed % word ≤ ring
    · exact .inl ((h' hsmall).trans_lt hword)
    · exact .inr (Nat.not_le.mp hsmall)
  · rintro (hlt | hover) hsmall
    · rwa [Nat.mod_eq_of_lt hlt] at hsmall
    · omega

section Reader

variable {h h' : Half Byte}

theorem Tallied.turn (ht : Tallied h) {r' : Reader Byte} (armed : Bool) (events : ℕ) (gone : Bool)
    (hturn : h.Turns r') : Tallied { h with reader := r', armed, events, gone } where
  head := hturn.head.trans ht.head
  tail := hturn.tail.trans ht.tail
  behind := ht.behind
  done _ := hturn.done.trans (hturn.drained.elim ht.done id)
  copying hat := absurd hat hturn.copying
  written := ht.written
  counter := ht.counter
  positions := ht.positions
  taken := ht.taken

theorem Tallied.reap (ht : Tallied h) : Tallied h.reap := by
  obtain ⟨head, tail, behind, done, copying, written, counter, positions, taken⟩ := ht
  exact ⟨head, tail, behind, done, copying, written, counter, positions, taken⟩

theorem Tallied.take (ht : Tallied h) (hdone : h.reader.done = []) :
    Tallied { h with reader := h.reader.take } := by
  have hheld : held h.reader.head h.reader.tail ≠ none ↔
      (h.claimed - h.got.length) % word ≤ ring := by
    rw [ht.head, ht.tail]
    exact held_of_le ht.behind
  cases heq : held h.reader.head h.reader.tail with
  | none =>
    have htake : h.reader.take = { h.reader with at_ := .idle } := by
      rw [Reader.take, heq, Option.elim_none]
    rw [htake]
    have hidle : ReadAt.idle ≠ .copying := by decide
    exact ht.turn _ _ _ ⟨rfl, rfl, rfl, hidle, .inr hdone⟩
  | some n =>
    have htake : h.reader.take =
        h.reader.taking (min (min n h.reader.want) (ring - h.reader.tail % ring)) := by
      rw [Reader.take, heq, Option.elim_some]
    have hn : n = (h.claimed - h.got.length) % word := by
      have hsub := heq
      simp only [held, ht.head, ht.tail, wrappingSub_of_le ht.behind] at hsub
      split at hsub
      · cases hsub
      · exact (Option.some.inj hsub).symm
    have hle := Nat.mod_le (h.claimed - h.got.length) word
    have hbehind := ht.behind
    have hfits := hheld.mp (by rw [heq]; simp)
    rw [htake]
    refine ⟨ht.head, ht.tail, ht.behind, fun _ => hdone, fun _ => ⟨?_, ?_, hfits⟩, ht.written,
      ht.counter, ht.positions, ht.taken⟩
    · simp only [Reader.taking, List.length_nil, List.length_range', Nat.zero_add]
    · dsimp only [Reader.taking]
      omega

theorem Tallied.took (ht : Tallied h) (hat : h.reader.at_ = .copying)
    (hcells : h.reader.cells = []) :
    Tallied { h with reader := h.reader.took, got := h.got ++ h.reader.copied } := by
  obtain ⟨hlen, hbehind, -⟩ := ht.copying hat
  rw [hcells, List.length_nil, Nat.add_zero] at hlen
  obtain ⟨at_, told, hnext, htook⟩ := h.reader.took_cases
  have hne : at_ ≠ .copying := by rintro rfl; simp at hnext
  rw [htook]
  refine ⟨ht.head, ?_, ?_, fun _ => ht.done (by rw [hat]; nofun), fun h => absurd h hne,
    ht.written, ht.counter, ht.positions, ht.taken⟩
  · dsimp only
    rw [ht.tail, wrappingAdd_mod, List.length_append, hlen]
  · dsimp only
    rw [List.length_append, hlen]
    exact hbehind

theorem Tallied.tell (ht : Tallied h) {at_ : ReadAt} (hcopying : at_ ≠ .copying)
    (hdone : h.reader.done = []) :
    Tallied { h.post (.position h.reader.tail) with reader := { h.reader with at_ } } := by
  refine ⟨ht.head, ht.tail, ht.behind, fun _ => hdone, fun h => absurd h hcopying, ht.written,
    ht.counter, ?_, ht.taken⟩
  intro p hp
  rw [show ({ h.post (.position h.reader.tail) with
    reader := { h.reader with at_ } } : Half Byte).posted =
      h.posted ++ [.position h.reader.tail] from rfl, positionsOf_append, List.mem_append] at hp
  rcases hp with hp | hp
  · exact ht.positions p hp
  · obtain rfl := List.mem_singleton.mp hp
    rw [ht.tail]
    exact Nat.mod_lt _ word_pos

theorem Tallied.reader (ht : Tallied h) (hstep : h.stepReader = some h') : Tallied h' := by
  unfold Half.stepReader at hstep
  dsimp only at hstep
  split at hstep
  next => cases hstep
  next last landed hat =>
    have hdone := ht.done (by rw [hat]; nofun)
    split at hstep
    next =>
      split at hstep
      · cases hstep
        unfold Reader.filled
        refine ht.turn _ _ _ ⟨rfl, rfl, rfl, ?_, .inr hdone⟩
        dsimp only
        split <;> nofun
      · split at hstep <;> cases hstep
        · exact ht.turn _ _ _ ⟨rfl, rfl, rfl, nofun, .inr hdone⟩
        · exact ht.turn _ _ _ ⟨rfl, rfl, rfl, nofun, .inr hdone⟩
    next =>
      cases hstep
      exact ⟨ht.head, ht.tail, ht.behind, fun h => absurd rfl (h last), nofun, ht.written,
        ht.counter, ht.positions, ht.taken⟩
  next last hat =>
    split at hstep
    next n done hdone =>
      cases hstep
      refine ⟨?_, ht.tail, ht.behind.trans (Nat.le_add_right ..), fun h => absurd hat (h last),
        fun h => ?_, ht.written, ht.counter, ht.positions, ht.taken⟩
      · dsimp only
        rw [ht.head, wrappingAdd_mod]
      · cases hat.symm.trans h
    next hdone =>
      cases hstep
      refine ht.turn _ _ _ ⟨rfl, rfl, rfl, ?_, .inr hdone⟩
      cases held h.reader.head h.reader.tail <;> nofun
  next hat =>
    cases hstep
    refine ht.turn _ _ _ ⟨rfl, rfl, rfl, ?_, .inl (by rw [hat]; nofun)⟩
    dsimp only
    split <;> nofun
  next hat =>
    split at hstep <;> cases hstep
    exact ht.turn _ _ _ ⟨rfl, rfl, rfl, nofun, .inl (by rw [hat]; nofun)⟩
  next hat =>
    cases hstep
    exact ht.take (ht.done (by rw [hat]; nofun))
  next hat =>
    split at hstep
    next cell cells hcells =>
      cases hstep
      obtain ⟨hlen, hrest⟩ := ht.copying hat
      refine ⟨ht.head, ht.tail, ht.behind, ht.done, fun _ => ⟨?_, hrest⟩, ht.written, ht.counter,
        ht.positions, ht.taken⟩
      rw [hcells, List.length_cons] at hlen
      dsimp only
      rw [List.length_append, List.length_singleton]
      omega
    next hcells =>
      cases hstep
      exact ht.took hat hcells
  next hat =>
    split at hstep <;> cases hstep
    exact ht.turn _ _ _ ⟨rfl, rfl, rfl, nofun, .inl (by rw [hat]; nofun)⟩
  next hat =>
    have hdone := ht.done (by rw [hat]; nofun)
    split at hstep
    next =>
      cases hstep
      obtain ⟨at_, hcase, hnext⟩ := h.reader.next_cases
      rw [hnext]
      refine ht.reap.tell ?_ hdone
      rintro rfl
      simp at hcase
    next =>
      split at hstep <;> cases hstep
      · exact ht.reap.turn _ _ _ ⟨rfl, rfl, rfl, nofun, .inr hdone⟩
      · exact ht.reap

theorem Reader.take_done (r : Reader Byte) : r.take.done = r.done := by
  rw [Reader.take]
  cases held r.head r.tail <;> rfl

theorem Tallied.owed_took (ht : Tallied h) (hat : h.reader.at_ = .copying)
    (howed : Unwrapped h.owed) :
    Unwrapped { h with reader := h.reader.took, got := h.got ++ h.reader.copied }.owed := by
  obtain ⟨-, -, hfits⟩ := ht.copying hat
  have hword : ring < word := by rw [ring_eq, word_eq]; decide
  have hdone := ht.done (by rw [hat]; nofun)
  obtain ⟨at_, told, -, htook⟩ := h.reader.took_cases
  rw [Half.owed, hdone, List.sum_nil, Nat.add_zero] at howed
  rw [htook, Half.owed]
  dsimp only
  rw [hdone, List.sum_nil, Nat.add_zero, List.length_append]
  rcases howed with hlt | hover
  · exact .inl (by omega)
  · omega

/-- Whether a reader is at a poll. -/
def Half.looks (h : Half Byte) : Bool :=
  match h.reader.at_ with
  | .polling .. => true
  | _ => false

/-- The bytes a reader is told of once it has polled. -/
def Half.toOwe (h : Half Byte) : ℕ :=
  h.claimed + (h.landed.take polled).sum - h.got.length

/-- What a reader is told of stays in sight but for what a poll takes in. -/
theorem unwrapped_reader (ht : Tallied h) (howed : Unwrapped h.owed)
    (hstep : h.stepReader = some h') :
    Unwrapped h'.owed ↔ (h.looks = true → Unwrapped h.toOwe) := by
  unfold Half.stepReader at hstep
  dsimp only at hstep
  split at hstep
  next => cases hstep
  next last landed hat =>
    have hdone := ht.done (by rw [hat]; nofun)
    have hlooks : h.looks = true := by rw [Half.looks, hat]
    split at hstep
    next hnone =>
      have hsame : h.toOwe = h.owed := by
        rw [Half.toOwe, Half.owed, hnone, hdone]
        rfl
      rw [hsame]
      have hturned : Unwrapped h'.owed := by
        split at hstep
        · cases hstep
          exact howed
        · split at hstep <;> cases hstep <;> exact howed
      exact iff_of_true hturned fun _ => howed
    next =>
      cases hstep
      rw [hlooks]
      exact ⟨fun h _ => h, fun h => h rfl⟩
  next last hat =>
    refine iff_of_true ?_ fun h => by simp [Half.looks, hat] at h
    split at hstep
    next n done hdone =>
      have hsame : h'.owed = h.owed := by
        cases hstep
        simp only [Half.owed, hdone, List.sum_cons, Nat.add_assoc]
      rwa [hsame]
    next =>
      cases hstep
      simpa only [Half.owed] using howed
  next hat =>
    cases hstep
    exact iff_of_true howed fun h => by simp [Half.looks, hat] at h
  next hat =>
    split at hstep <;> cases hstep
    exact iff_of_true howed fun h => by simp [Half.looks, hat] at h
  next hat =>
    cases hstep
    refine iff_of_true ?_ fun h => by simp [Half.looks, hat] at h
    simpa only [Half.owed, h.reader.take_done] using howed
  next hat =>
    refine iff_of_true ?_ fun h => by simp [Half.looks, hat] at h
    split at hstep
    next =>
      cases hstep
      exact howed
    next hcells =>
      cases hstep
      exact ht.owed_took hat howed
  next hat =>
    split at hstep <;> cases hstep
    exact iff_of_true howed fun h => by simp [Half.looks, hat] at h
  next hat =>
    refine iff_of_true ?_ fun h => by simp [Half.looks, hat] at h
    split at hstep
    next =>
      cases hstep
      obtain ⟨at_, -, hnext⟩ := h.reader.next_cases
      rw [hnext]
      exact howed
    next =>
      split at hstep <;> cases hstep <;> exact howed

end Reader

section Writer

variable {h h' : Half Byte}

theorem Tallied.pass (ht : Tallied h) {w' : Writer Byte} (gone side : Bool)
    (hhead : w'.head = h.writer.head)
    (hat : ¬ (w'.at_ = .copying ∨ w'.at_ = .locking ∨ w'.at_ = .posting)) :
    Tallied { h with writer := w', gone, side } where
  head := ht.head
  tail := ht.tail
  behind := ht.behind
  done := ht.done
  copying := ht.copying
  written := hhead.trans ht.written
  counter := ht.counter
  positions := ht.positions
  taken h := absurd h hat

theorem Tallied.keep (ht : Tallied h) (staging : ℕ → Byte) {w' : Writer Byte}
    (hhead : w'.head = h.writer.head) (htaken : w'.n ≤ w'.rest.length) :
    Tallied { h with staging, writer := w' } where
  head := ht.head
  tail := ht.tail
  behind := ht.behind
  done := ht.done
  copying := ht.copying
  written := hhead.trans ht.written
  counter := ht.counter
  positions := ht.positions
  taken _ := htaken

theorem Tallied.look (ht : Tallied h) : Tallied { h with writer := h.writer.look h.counter } := by
  unfold Writer.look
  dsimp only
  split
  · exact ht.pass _ _ rfl (by simp)
  · split
    · refine ht.keep _ rfl ?_
      dsimp only [Writer.accept]
      omega
    · exact ht.pass _ _ rfl (by simp)

theorem Tallied.posted (ht : Tallied h) (hat : h.writer.at_ = .posting) :
    Tallied { h.post h.writer.request with
      writer := h.writer.wrote, wrote := h.wrote ++ h.writer.rest.take h.writer.n } := by
  have htaken := ht.taken (.inr (.inr hat))
  refine ⟨ht.head, ht.tail, ht.behind, ht.done, ht.copying, ?_, ht.counter, ?_, ?_⟩
  · dsimp only [Writer.wrote]
    rw [ht.written, wrappingAdd_mod, List.length_append, List.length_take, min_eq_left htaken]
  · intro p hp
    dsimp only [Half.post] at hp
    rw [positionsOf_append, List.mem_append] at hp
    rcases hp with hp | hp
    · exact ht.positions p hp
    · cases hp
  · dsimp only [Writer.wrote]
    split <;> simp

theorem Tallied.writer (ht : Tallied h) (hstep : h.stepWriter = some h') : Tallied h' := by
  have hplain (gone : Bool) : ¬ ((if gone then WriteAt.idle else .reaping) = .copying ∨
      (if gone then WriteAt.idle else .reaping) = .locking ∨
      (if gone then WriteAt.idle else .reaping) = .posting) := by
    cases gone <;> simp
  unfold Half.stepWriter at hstep
  dsimp only at hstep
  split at hstep
  next => cases hstep
  next =>
    cases hstep
    exact ht.pass _ _ rfl (hplain _)
  next =>
    split at hstep <;> cases hstep
    exact ht.reap.pass _ _ rfl (by simp)
  next =>
    cases hstep
    exact ht.look
  next =>
    cases hstep
    exact ht.pass _ _ rfl (hplain _)
  next hat =>
    have htaken := ht.taken (.inl hat)
    split at hstep <;> cases hstep
    · exact ht.keep _ rfl htaken
    · exact ht.keep _ rfl htaken
  next hat =>
    have htaken := ht.taken (.inr (.inl hat))
    split at hstep <;> cases hstep
    exact ht.keep _ rfl htaken
  next hat =>
    split at hstep
    · cases hstep
      exact ht.reap.posted hat
    · split at hstep <;> cases hstep
      · exact ht.reap.pass _ _ rfl (by simp)
      · exact ht.reap
  next =>
    split at hstep <;> cases hstep
    exact ht.reap

theorem owed_writer (hstep : h.stepWriter = some h') : h'.owed = h.owed := by
  unfold Half.stepWriter at hstep
  dsimp only at hstep
  split at hstep
  all_goals first
    | (cases hstep; done)
    | (cases hstep; rfl)
    | (split at hstep <;> cases hstep <;> rfl)
    | (split at hstep
       · cases hstep
         rfl
       · split at hstep <;> cases hstep <;> rfl)

end Writer

section Link

variable {l l' : Link Byte} {s : Side} {h' : Half Byte}

variable {P : Half Byte → Prop} {a : Act Byte}

theorem forall_move :
    (∀ t, P (Function.update l s h' t)) ↔ P h' ∧ P (l s.peer) := by
  constructor
  · intro hall
    have hs := hall s
    have hpeer := hall s.peer
    rw [Function.update_self] at hs
    rw [Function.update_of_ne s.peer_ne] at hpeer
    exact ⟨hs, hpeer⟩
  · rintro ⟨hs, hpeer⟩ t
    by_cases ht : t = s
    · subst ht
      rwa [Function.update_self]
    · obtain rfl : t = s.peer := by cases t <;> cases s <;> first | rfl | exact absurd rfl ht
      rwa [Function.update_of_ne s.peer_ne]

theorem both {p' : Half Byte} (hs : P h') (hpeer : P p') :
    ∀ t, P (Function.update (Function.update l s h') s.peer p' t) := by
  intro t
  by_cases ht : t = s
  · subst ht
    rwa [Function.update_of_ne t.peer_ne.symm, Function.update_self]
  · obtain rfl : t = s.peer := by cases t <;> cases s <;> first | rfl | exact absurd rfl ht
    rwa [Function.update_self]

theorem Tallied.device {h : Half Byte} (ht : Tallied h) (hreader : h'.reader = h.reader)
    (hgot : h'.got = h.got) (hclaimed : h'.claimed = h.claimed) (hwriter : h'.writer = h.writer)
    (hwrote : h'.wrote = h.wrote) (hcounter : h'.counter < word)
    (hpositions : ∀ p ∈ positionsOf h'.posted, p ∈ positionsOf h.posted) : Tallied h' := by
  obtain ⟨head, tail, behind, done, copying, written, -, positions, taken⟩ := ht
  refine ⟨?_, ?_, ?_, ?_, ?_, ?_, hcounter, fun p hp => positions p (hpositions p hp), ?_⟩
  · rwa [hreader, hclaimed]
  · rwa [hreader, hgot]
  · rwa [hgot, hclaimed]
  · rwa [hreader]
  · rwa [hreader, hgot, hclaimed]
  · rwa [hwriter, hwrote]
  · rwa [hwriter]

theorem Tallied.deliver {h p p' : Half Byte} (ht : Tallied h) (hp : Tallied p) {r : Request}
    {rest : List Request} (hr : h.posted = r :: rest) (hstep : Link.receive h p r = some p') :
    Tallied { h with posted := rest, delivered := h.delivered ++ [r] } ∧ Tallied p' := by
  have hrest : ∀ q ∈ positionsOf rest, q ∈ positionsOf h.posted := by
    intro q hq
    rw [hr]
    cases r with
    | data => exact hq
    | position => exact List.mem_cons_of_mem _ hq
  refine ⟨ht.device rfl rfl rfl rfl rfl ht.counter hrest, ?_⟩
  cases r with
  | position q =>
    cases hstep
    refine hp.device rfl rfl rfl rfl rfl (ht.positions q ?_) fun _ => id
    rw [hr]
    exact List.mem_cons_self
  | data at_ n end_ =>
    unfold Link.receive at hstep
    dsimp only at hstep
    split at hstep <;> cases hstep
    exact hp.device rfl rfl rfl rfl rfl hp.counter fun _ => id

theorem tallied_step (ht : ∀ s, Tallied (l s)) (hstep : Link.step l a = some l') :
    ∀ s, Tallied (l' s) := by
  have hpass {w : Writer Byte} (hw : w.at_.Plain) :
      ¬ (w.at_ = .copying ∨ w.at_ = .locking ∨ w.at_ = .posting) := by
    rcases hw with h | h | h | h | h <;> simp [h]
  cases Link.step_comes hstep with
  | reader h => exact forall_move.mpr ⟨(ht _).reader h, ht _⟩
  | writer h => exact forall_move.mpr ⟨(ht _).writer h, ht _⟩
  | stays => exact ht
  | turn armed _ h => exact forall_move.mpr ⟨(ht _).turn armed _ _ h, ht _⟩
  | pass _ hhead hplain =>
    exact forall_move.mpr ⟨(ht _).pass _ _ hhead (hpass hplain), ht _⟩
  | @close s at_ hat =>
    refine both ?_ ((ht s.peer).device rfl rfl rfl rfl rfl (ht s.peer).counter fun _ => id)
    rcases hat with rfl | rfl
    · exact (ht s).device rfl rfl rfl rfl rfl (ht s).counter fun _ => id
    · exact (ht s).pass _ _ rfl (by simp)
  | place => exact forall_move.mpr ⟨(ht _).device rfl rfl rfl rfl rfl (ht _).counter fun _ => id, ht _⟩
  | deliver hr hreceive =>
    obtain ⟨hs, hpeer⟩ := (ht _).deliver (ht _) hr hreceive
    exact both hs hpeer
  | complete =>
    exact forall_move.mpr ⟨(ht _).device rfl rfl rfl rfl rfl (ht _).counter fun _ => id, ht _⟩
  | sent _ hreader hwriter hcounts hcounter hposted =>
    obtain ⟨hwrote, hgot, hclaimed⟩ := hcounts
    exact forall_move.mpr ⟨(ht _).device hreader hgot hclaimed hwriter hwrote
      (hcounter.elim (fun h => h ▸ (ht _).counter) id) fun _ hp => hposted ▸ hp, ht _⟩

theorem tallied_start (b : Byte) (s : Side) : Tallied (Link.start b s) := by
  refine ⟨?_, ?_, le_rfl, fun _ => rfl, nofun, ?_, word_pos, nofun, ?_⟩
  · exact (Nat.zero_mod _).symm
  · exact (Nat.zero_mod _).symm
  · exact (Nat.zero_mod _).symm
  · rintro (h | h | h) <;> cases h

theorem owed_update (h : h'.owed = (l s).owed) (t : Side) :
    (Function.update l s h' t).owed = (l t).owed := by
  by_cases ht : t = s
  · rw [ht, Function.update_self, h]
  · rw [Function.update_of_ne ht]

theorem owed_step (hne : ∀ s, a ≠ .reader s) (hstep : Link.step l a = some l') :
    ∀ t, (l' t).owed = (l t).owed := by
  cases Link.step_comes hstep with
  | reader => exact absurd rfl (hne _)
  | writer h => exact owed_update (owed_writer h)
  | stays => exact fun _ => rfl
  | turn armed _ h =>
    refine owed_update ?_
    rw [Half.owed, h.done]
    rfl
  | pass => exact owed_update rfl
  | @close s =>
    intro t
    cases s <;> cases t <;> rfl
  | place => exact owed_update rfl
  | @deliver s r rest p' hr hreceive =>
    have howed : p'.owed = (l s.peer).owed := by
      cases r with
      | position q =>
        cases hreceive
        rfl
      | data at_ n end_ =>
        unfold Link.receive at hreceive
        dsimp only at hreceive
        split at hreceive <;> cases hreceive
        rfl
    have hside : ∀ t, (Function.update l s { l s with
        posted := rest, delivered := (l s).delivered ++ [r] } t).owed = (l t).owed := owed_update rfl
    refine fun t => (owed_update ?_ t).trans (hside t)
    rwa [Function.update_of_ne s.peer_ne]
  | complete => exact owed_update rfl
  | sent _ hreader _ hcounts =>
    refine owed_update ?_
    rw [Half.owed, hreader, hcounts.2.1, hcounts.2.2]
    rfl

/-- The lengths a poll takes in, with what the reader already holds, do not come to a whole turn of
the positions that leaves no more than a ring. -/
def inSight (l : Link Byte) : Act Byte → Bool
  | .reader s => !(l s).looks || decide (Unwrapped (l s).toOwe)
  | _ => true

/-- A reader goes on trusting no more than its ring holds exactly where each poll's lengths stay in
sight. -/
theorem trusts_step (ht : ∀ s, Tallied (l s)) (htrusts : ∀ s, Trusts (l s))
    (hstep : Link.step l a = some l') : (∀ s, Trusts (l' s)) ↔ inSight l a = true := by
  have howed (s : Side) : Unwrapped (l s).owed := (trusts_iff (ht s)).mp (htrusts s)
  have hiff (s : Side) : Trusts (l' s) ↔ Unwrapped (l' s).owed :=
    trusts_iff (tallied_step ht hstep s)
  rw [forall_congr' hiff]
  by_cases hreader : ∃ s, a = .reader s
  · obtain ⟨s, rfl⟩ := hreader
    obtain ⟨h', hh, rfl⟩ := Option.map_eq_some_iff.mp hstep
    rw [@forall_move Byte l s h' fun h => Unwrapped h.owed, and_iff_left (howed s.peer),
      unwrapped_reader (ht s) (howed s) hh]
    simp only [inSight, Bool.or_eq_true, Bool.not_eq_true', decide_eq_true_eq]
    cases (l s).looks <;> simp
  · have hne (s : Side) : a ≠ .reader s := fun h => hreader ⟨s, h⟩
    have hsame := owed_step hne hstep
    refine iff_of_true (fun s => (hsame s).symm ▸ howed s) ?_
    cases a <;> first | rfl | exact absurd rfl (hne _)

/-- A position a ring can hold: no more than a ring behind the writer's. -/
def Holdable (h : Half Byte) : Prop :=
  ∃ k ≤ ring, (h.counter + k) % word = h.wrote.length % word

theorem look_refuses {h : Half Byte} (ht : Tallied h) :
    (h.writer.look h.counter).at_ = .idle ↔ ¬ Holdable h := by
  have hcounter := ht.counter
  have hword : ring < word := by rw [ring_eq, word_eq]; decide
  have hhold : Holdable h ↔ wrappingSub h.writer.head h.counter ≤ ring := by
    rw [ht.written, Holdable, wrappingSub]
    constructor
    · rintro ⟨k, hk, heq⟩
      rw [← heq]
      have : ((h.counter + k) % word + (word - h.counter)) % word = k := by
        rw [Nat.mod_add_mod, show h.counter + k + (word - h.counter) = k + word by omega,
          Nat.add_mod_right, Nat.mod_eq_of_lt (by omega)]
      omega
    · intro hle
      refine ⟨_, hle, ?_⟩
      rw [Nat.add_mod_mod, show h.counter + (h.wrote.length % word + (word - h.counter)) =
        h.wrote.length % word + word by omega, Nat.add_mod_right, Nat.mod_mod]
  rw [hhold, Nat.not_le]
  unfold Writer.look
  dsimp only
  split
  next h => exact iff_of_true rfl h
  next hnot =>
    refine iff_of_false ?_ hnot
    split <;> (intro h; cases h)

end Link

end Guatiao.Rdma
