import Guatiao.Link.Gate
import Guatiao.Lib.Token

/-!
# Frames leave the gate in the order they were taken in

What the writer has been given, what the thread that has it still holds and what is queued
make up, in this order, the frames taken in and not taken back. Every step keeps that, so
at rest nothing is left over, except what a failed write gave up.
-/

namespace Guatiao.Link

open Lib

theorem frames_flushed (whole : List (List UInt8)) :
    (flushed whole).flatMap FrameWrite.frames = whole := by
  cases whole with
  | nil => rfl
  | cons w rest => simp [flushed, FrameWrite.frames]

theorem frames_writeBatch (batch : List Queued) (whole : List (List UInt8)) :
    (writeBatch batch whole).1.flatMap FrameWrite.frames <+: whole ++ batch.map Queued.bytes ∧
      ((writeBatch batch whole).2 = true →
        (writeBatch batch whole).1.flatMap FrameWrite.frames =
          whole ++ batch.map Queued.bytes) := by
  induction batch generalizing whole with
  | nil =>
    simp only [writeBatch, frames_flushed, List.map_nil, List.append_nil]
    exact ⟨List.prefix_refl _, fun _ => trivial⟩
  | cons q rest ih =>
    have hbytes : whole ++ (q :: rest).map Queued.bytes =
        whole ++ [q.bytes] ++ rest.map Queued.bytes := by simp
    rw [hbytes]
    unfold writeBatch
    split
    · next htail =>
      have hq : q.bytes = q.head := by simp only [Queued.bytes, htail]
      rw [hq]
      exact ih _
    · next tail start htail =>
      have hq : q.bytes = q.head ++ tail.drop start := by simp only [Queued.bytes, htail]
      rw [hq]
      split
      · obtain ⟨hle, heq⟩ := ih []
        rw [List.nil_append] at hle heq
        simp only [List.flatMap_append, List.flatMap_cons, frames_flushed, FrameWrite.frames,
          ← List.append_assoc]
        exact ⟨(List.prefix_append_right_inj _).mpr hle, fun h => by rw [heq h]⟩
      · simp only [frames_flushed, List.append_assoc, Bool.false_eq_true, false_implies, and_true]
        exact List.prefix_append _ _

theorem frames_take (pc : Pc) (calls : ℕ) :
    (pc.calls.1.take calls).flatMap FrameWrite.frames =
      (pc.taken.take ((pc.calls.1.take calls).flatMap FrameWrite.frames).length).map
        Queued.bytes := by
  have hpart : (pc.calls.1.take calls).flatMap FrameWrite.frames <+:
      pc.calls.1.flatMap FrameWrite.frames := by
    conv => rhs; rw [← List.take_append_drop calls pc.calls.1, List.flatMap_append]
    exact List.prefix_append _ _
  have hall : pc.calls.1.flatMap FrameWrite.frames <+: pc.taken.map Queued.bytes := by
    cases pc with
    | parts q => exact (frames_writeBatch [q] []).1
    | writing batch => exact (frames_writeBatch batch []).1
    | _ => exact List.nil_prefix
  rw [List.map_take]
  exact List.prefix_iff_eq_take.mp (hpart.trans hall)

theorem frames_calls {pc : Pc} (h : pc.calls.2 = true) :
    pc.calls.1.flatMap FrameWrite.frames = pc.taken.map Queued.bytes := by
  cases pc with
  | parts q => exact (frames_writeBatch [q] []).2 h
  | writing batch => exact (frames_writeBatch batch []).2 h
  | _ => rfl

theorem filter_eraseP {p : Queued → Bool} {before queued : List Queued} {q : Queued}
    (hnodup : ((before ++ queued).map Queued.ticket).Nodup) (hq : queued.find? p = some q) :
    (before ++ queued).filter (fun r => r.ticket ≠ q.ticket) = before ++ queued.eraseP p := by
  induction before with
  | nil =>
    rw [List.nil_append, List.nil_append] at *
    induction queued with
    | nil => cases hq
    | cons r rest ih =>
      rw [List.map_cons, List.nodup_cons] at hnodup
      rw [List.find?_cons] at hq
      cases hp : p r with
      | true =>
        rw [hp] at hq
        cases hq
        rw [List.eraseP_cons_of_pos hp, List.filter_cons_of_neg (by simp)]
        refine List.filter_eq_self.mpr fun r' hr' => ?_
        simp only [ne_eq, decide_not, Bool.not_eq_eq_eq_not, Bool.not_true, decide_eq_false_iff_not]
        intro heq
        exact hnodup.1 (heq ▸ List.mem_map_of_mem hr')
      | false =>
        rw [hp] at hq
        have hmem : q ∈ rest := List.mem_of_find?_eq_some hq
        have hne : r.ticket ≠ q.ticket := fun heq => hnodup.1 (heq ▸ List.mem_map_of_mem hmem)
        rw [List.eraseP_cons_of_neg (by simp [hp]), List.filter_cons_of_pos (by simpa using hne),
          ih hq hnodup.2]
  | cons r rest ih =>
    rw [List.cons_append, List.map_cons, List.nodup_cons] at hnodup
    have hmem : q ∈ rest ++ queued := List.mem_append_right _ (List.mem_of_find?_eq_some hq)
    have hne : r.ticket ≠ q.ticket := fun heq => hnodup.1 (heq ▸ List.mem_map_of_mem hmem)
    rw [List.cons_append, List.filter_cons_of_pos (by simpa using hne), ih hnodup.2,
      List.cons_append]

theorem Pc.holds_of_writes {pc : Pc} (h : pc.writes = true) : pc.holds = true := by
  cases pc with
  | parts q => rfl
  | writing batch => rfl
  | _ => cases h

namespace Senders

variable {Tid : Type} {s : Senders Tid}

/-- What holds while the thread with the writer is at `x`. -/
structure Fits (s : Senders Tid) (x : Pc) : Prop where
  /-- What it has taken comes before what is queued. -/
  line : s.due = s.handed ++ x.taken ++ s.dropped ++ s.gate.queued
  intact : s.broken = false → s.dropped = [] ∧ x ≠ .failing
  /-- After a write failed nothing is written again. -/
  ended : s.broken = true →
    x.writes = false ∧ (x = .failing ∨ s.gate.closed = true ∧ s.gate.queued = [])

/-- What holds between any two steps. -/
structure Sound (s : Senders Tid) : Prop where
  spare : s.gate.spare = []
  tickets : s.accepted.map Queued.ticket = List.range s.accepted.length
  past : ∀ k ∈ s.retracted, k < s.accepted.length
  whole : s.written.flatMap FrameWrite.frames = s.handed.map Queued.bytes
  token : Token Pc.holds s.gate.writer s.pc
  held : ∀ t, (s.pc t).holds = true → s.Fits (s.pc t)
  /-- Nothing waits for a writer at rest. -/
  rest : s.gate.writer = true → s.gate.queued = [] ∧ s.due = s.handed ++ s.dropped ∧
    (s.broken = false → s.dropped = []) ∧ (s.broken = true → s.gate.closed = true)

theorem sound_start : Sound (start : Senders Tid) where
  spare := rfl
  tickets := rfl
  past := by simp [start]
  whole := rfl
  token := ⟨fun _ _ => rfl, by simp [start, Pc.holds], by simp [start, Gate.new]⟩
  held := by simp [start, Pc.holds]
  rest := fun _ => ⟨rfl, rfl, fun _ => rfl, by simp [start]⟩

theorem Sound.nodup (h : Sound s) : (s.accepted.map Queued.ticket).Nodup := by
  rw [h.tickets]
  exact List.nodup_range

theorem Sound.nodup_due (h : Sound s) : (s.due.map Queued.ticket).Nodup :=
  h.nodup.sublist (List.filter_sublist.map _)

theorem Sound.due_accept (h : Sound s) {q : Queued} (hq : q.ticket = s.accepted.length) :
    ({ s with accepted := s.accepted ++ [q] } : Senders Tid).due = s.due ++ [q] := by
  have hnew : q.ticket ∉ s.retracted := by
    intro hmem
    have := h.past _ hmem
    omega
  simp [due, List.filter_append, hnew]

theorem due_retract (s : Senders Tid) (call : ℕ) :
    (s.retract call).due = match s.gate.queued.find? (·.call == call) with
      | none => s.due
      | some q => s.due.filter fun r => r.ticket ≠ q.ticket := by
  cases hq : s.gate.queued.find? (·.call == call) with
  | none => simp [due, retract, hq]
  | some q =>
    simp only [due, retract, hq, Option.map_some, Option.toList_some, List.filter_filter]
    refine List.filter_congr fun r _ => ?_
    simp only [List.mem_append, List.mem_singleton, not_or, ne_eq, decide_not, Bool.decide_and,
      Bool.and_comm]

theorem Sound.accept (h : Sound s) {q : Queued} (hq : q.ticket = s.accepted.length) {gate : Gate}
    {pc : Tid → Pc} (hspare : gate.spare = []) (htoken : Token Pc.holds gate.writer pc)
    (hheld : ∀ t, (pc t).holds = true →
      ({ s with gate, pc, accepted := s.accepted ++ [q] } : Senders Tid).Fits (pc t))
    (hgone : gate.writer = false) :
    Sound ({ s with gate, pc, accepted := s.accepted ++ [q] } : Senders Tid) where
  spare := hspare
  tickets := by
    rw [List.map_append, h.tickets, List.length_append, List.length_singleton, List.range_succ, ← hq]
    rfl
  past := fun k hk => by
    have := h.past k hk
    rw [List.length_append]
    omega
  whole := h.whole
  token := htoken
  held := hheld
  rest := fun hrest => by
    rw [hgone] at hrest
    cases hrest

theorem Sound.open_rest (h : Sound s) (hclosed : s.gate.closed = false)
    (hwriter : s.gate.writer = true) :
    s.gate.queued = [] ∧ s.due = s.handed ∧ s.dropped = [] ∧ s.broken = false := by
  obtain ⟨hqueued, hline, hintact, hbroken⟩ := h.rest hwriter
  cases hb : s.broken with
  | true =>
    rw [hbroken hb] at hclosed
    cases hclosed
  | false =>
    have hdropped := hintact hb
    rw [hdropped, List.append_nil] at hline
    exact ⟨hqueued, hline, hdropped, rfl⟩

theorem Sound.intact_of_writes (h : Sound s) {t : Tid} (ht : (s.pc t).writes = true) :
    s.broken = false := by
  have hholds := Pc.holds_of_writes ht
  cases hb : s.broken with
  | false => rfl
  | true =>
    have hnot := ((h.held t hholds).ended hb).1
    rw [ht] at hnot
    cases hnot

theorem Sound.mem_due (h : Sound s) {q : Queued} (hq : q ∈ s.gate.queued) : q ∈ s.due := by
  cases hwriter : s.gate.writer with
  | true =>
    rw [(h.rest hwriter).1] at hq
    cases hq
  | false =>
    obtain ⟨t, ht⟩ := h.token.somebody hwriter
    rw [(h.held t ht).line]
    exact List.mem_append_right _ hq

theorem Sound.handed_prefix (h : Sound s) : s.handed <+: s.due := by
  cases hwriter : s.gate.writer with
  | true =>
    rw [(h.rest hwriter).2.1]
    exact List.prefix_append _ _
  | false =>
    obtain ⟨t, ht⟩ := h.token.somebody hwriter
    rw [(h.held t ht).line, List.append_assoc, List.append_assoc]
    exact List.prefix_append _ _

theorem Sound.due_eraseP (h : Sound s) {before : List Queued}
    (hline : s.due = before ++ s.gate.queued) (call : ℕ) :
    (s.retract call).due = before ++ s.gate.queued.eraseP (·.call == call) := by
  rw [due_retract]
  split
  · next hnone =>
    rw [hline, List.eraseP_of_forall_not]
    intro q hq hcall
    exact absurd hcall (by simpa using List.find?_eq_none.mp hnone q hq)
  · next q hq =>
    have hnodup := h.nodup_due
    rw [hline] at hnodup ⊢
    exact filter_eraseP hnodup hq

theorem sound_retract (h : Sound s) (call : ℕ) : Sound (s.retract call) := by
  refine ⟨h.spare, h.tickets, ?_, h.whole, h.token, fun t ht => ?_, fun hwriter => ?_⟩
  · intro k hk
    rcases List.mem_append.mp hk with hk | hk
    · exact h.past k hk
    · rw [Option.mem_toList, Option.map_eq_some_iff] at hk
      obtain ⟨q, hq, rfl⟩ := hk
      have hmem := (List.mem_filter.mp (h.mem_due (List.mem_of_find?_eq_some hq))).1
      have hticket := List.mem_map_of_mem (f := Queued.ticket) hmem
      rw [h.tickets] at hticket
      exact List.mem_range.mp hticket
  · obtain ⟨hline, hintact, hended⟩ := h.held t ht
    refine ⟨h.due_eraseP hline call, hintact, fun hb => ?_⟩
    obtain ⟨hwrites, hfailing | hend⟩ := hended hb
    · exact ⟨hwrites, .inl hfailing⟩
    · refine ⟨hwrites, .inr ⟨hend.1, ?_⟩⟩
      simp only [retract, Gate.retract, hend.2, List.eraseP_nil]
  · obtain ⟨hqueued, hline, hrest⟩ := h.rest hwriter
    have hnone : s.gate.queued.eraseP (·.call == call) = [] := by rw [hqueued]; rfl
    have hall : s.due = s.handed ++ s.dropped ++ s.gate.queued := by
      rw [hline, hqueued, List.append_nil]
    have hdue := h.due_eraseP hall call
    rw [hnone, List.append_nil] at hdue
    exact ⟨hnone, hdue, hrest⟩

theorem sound_close (h : Sound s) : Sound { s with gate := s.gate.close } := by
  refine ⟨h.spare, h.tickets, h.past, h.whole, h.token, fun t ht => ?_, fun hwriter => ?_⟩
  · have hgone := h.token.not_free ht
    have hqueued : s.gate.close.queued = s.gate.queued := by
      simp only [Gate.close, hgone, Bool.false_eq_true, if_false]
    obtain ⟨hline, hintact, hended⟩ := h.held t ht
    refine ⟨?_, hintact, fun hb => ?_⟩
    · rw [hqueued]
      exact hline
    · obtain ⟨hwrites, hfailing | hend⟩ := hended hb
      · exact ⟨hwrites, .inl hfailing⟩
      · exact ⟨hwrites, .inr ⟨rfl, hqueued.trans hend.2⟩⟩
  · obtain ⟨hqueued, hline, hintact, -⟩ := h.rest hwriter
    refine ⟨?_, hline, hintact, fun _ => rfl⟩
    simp only [Gate.close, hqueued, ite_self]

variable [DecidableEq Tid] {t : Tid}

theorem sound_queue (h : Sound s) (ht : (s.pc t).holds = false) {q : Queued}
    (hq : q.ticket = s.accepted.length) : Sound (s.queue t q) := by
  cases hclosed : s.gate.closed with
  | true =>
    have hrefused : s.queue t q = s.goTo t .outside := by
      simp only [queue, Gate.queue, hclosed, if_true]
    rw [hrefused]
    have hheld : ∀ u, ((s.goTo t .outside).pc u).holds = true →
        s.Fits ((s.goTo t .outside).pc u) := forall_of_outside rfl h.held
    exact ⟨h.spare, h.tickets, h.past, h.whole, h.token.move ht.symm,
      fun u hu => ⟨(hheld u hu).line, (hheld u hu).intact, (hheld u hu).ended⟩, h.rest⟩
  | false =>
    have hdue := h.due_accept hq
    have htoken := h.token
    cases hwriter : s.gate.writer with
    | true =>
      have htaken : s.queue t q = { s with
          gate := { s.gate with queued := s.gate.queued ++ [q], writer := false }
          pc := Function.update s.pc t (.draining none)
          accepted := s.accepted ++ [q] } := by
        simp only [queue, Gate.queue, hclosed, hwriter, goTo, if_true, Bool.false_eq_true, if_false]
      rw [hwriter] at htoken
      obtain ⟨hqueued, hline, hdropped, hintact⟩ := h.open_rest hclosed hwriter
      rw [htaken]
      refine h.accept hq h.spare (htoken.take rfl) (htoken.forall_of_move (.inl rfl) fun _ => ?_) rfl
      refine ⟨?_, fun _ => ⟨hdropped, nofun⟩, fun hb => ?_⟩
      · refine hdue.trans ?_
        simp only [hline, hdropped, hqueued, Pc.taken, List.append_nil, List.nil_append]
      · exact absurd (hb.symm.trans hintact) (by decide)
    | false =>
      have hleft : s.queue t q = { s with
          gate := { s.gate with queued := s.gate.queued ++ [q], writer := false }
          pc := Function.update s.pc t .outside
          accepted := s.accepted ++ [q] } := by
        simp only [queue, Gate.queue, hclosed, hwriter, goTo, Bool.false_eq_true, if_false]
      rw [hwriter] at htoken
      rw [hleft]
      refine h.accept hq h.spare (htoken.move ht.symm) (forall_of_outside rfl fun u hu => ?_) rfl
      obtain ⟨hline, hintact, hended⟩ := h.held u hu
      refine ⟨?_, hintact, fun hb => ?_⟩
      · refine hdue.trans ?_
        simp only [hline, List.append_assoc]
      · obtain ⟨htaken, hfailing | hend⟩ := hended hb
        · exact ⟨htaken, .inl hfailing⟩
        · exact absurd (hend.1.symm.trans hclosed) (by decide)

theorem sound_goTo (h : Sound s) {x : Pc} (hx : x.holds = (s.pc t).holds)
    (hfits : x.holds = true → s.Fits x) : Sound (s.goTo t x) := by
  have hheld : ∀ u, ((s.goTo t x).pc u).holds = true → s.Fits ((s.goTo t x).pc u) := by
    cases hhas : (s.pc t).holds with
    | true => exact h.token.forall_of_move (.inr hhas) hfits
    | false => exact forall_of_outside (hx.trans hhas) h.held
  exact ⟨h.spare, h.tickets, h.past, h.whole, h.token.move hx,
    fun u hu => ⟨(hheld u hu).line, (hheld u hu).intact, (hheld u hu).ended⟩, h.rest⟩

theorem sound_sendParts (h : Sound s) (ht : (s.pc t).holds = false) {q : Queued}
    (hq : q.ticket = s.accepted.length) : Sound (s.sendParts t q) := by
  cases hclosed : s.gate.closed with
  | true =>
    have hrefused : s.sendParts t q = s := by
      simp only [sendParts, Gate.takeWriter, hclosed, if_true]
    rwa [hrefused]
  | false =>
    cases hwriter : s.gate.writer with
    | true =>
      have htaken : s.sendParts t q = { s with
          gate := { s.gate with writer := false }
          pc := Function.update s.pc t (.parts q)
          accepted := s.accepted ++ [q] } := by
        simp only [sendParts, Gate.takeWriter, hclosed, hwriter, goTo, Bool.false_eq_true, if_false]
      have htoken := h.token
      rw [hwriter] at htoken
      obtain ⟨hqueued, hline, hdropped, hintact⟩ := h.open_rest hclosed hwriter
      rw [htaken]
      refine h.accept hq h.spare (htoken.take rfl) (htoken.forall_of_move (.inl rfl) fun _ => ?_) rfl
      refine ⟨?_, fun _ => ⟨hdropped, nofun⟩, fun hb => ?_⟩
      · refine (h.due_accept hq).trans ?_
        simp only [hline, hdropped, hqueued, Pc.taken, List.append_nil]
      · exact absurd (hb.symm.trans hintact) (by decide)
    | false =>
      have hcopies : s.sendParts t q = s.goTo t (.copying q) := by
        obtain ⟨⟨writer, queued, spare, closed⟩, pc, written, accepted, retracted, handed, dropped,
          broken⟩ := s
        subst hwriter hclosed
        rfl
      rw [hcopies]
      exact sound_goTo h ht.symm nofun

theorem sound_wrote (h : Sound s) (ht : (s.pc t).writes = true)
    (hcalls : (s.pc t).calls.2 = true) : Sound (s.wrote t) := by
  have hholds := Pc.holds_of_writes ht
  have hb := h.intact_of_writes ht
  obtain ⟨hline, hintact, -⟩ := h.held t hholds
  refine ⟨h.spare, h.tickets, h.past, ?_, h.token.move hholds.symm,
    h.token.forall_of_move (.inr hholds) fun _ => ⟨?_, fun _ => ⟨(hintact hb).1, nofun⟩,
      fun hbroken => absurd (hbroken.symm.trans hb) (by decide)⟩, fun hwriter => ?_⟩
  · simp only [wrote, goTo, List.flatMap_append, h.whole, frames_calls hcalls, List.map_append]
  · refine Eq.trans hline ?_
    simp only [wrote, goTo, Pc.taken, List.append_nil]
  · exact absurd (hwriter.symm.trans (h.token.not_free hholds)) (by decide)

theorem sound_writeFails (h : Sound s) (ht : (s.pc t).writes = true) (calls : ℕ) :
    Sound (s.writeFails t calls) := by
  have hholds := Pc.holds_of_writes ht
  obtain ⟨hline, hintact, -⟩ := h.held t hholds
  refine ⟨h.spare, h.tickets, h.past, ?_, h.token.move hholds.symm,
    h.token.forall_of_move (.inr hholds) fun _ => ⟨?_, nofun, fun _ => ⟨rfl, .inl rfl⟩⟩,
    fun hwriter => ?_⟩
  · simp only [writeFails, goTo, List.flatMap_append, h.whole, List.map_append]
    rw [← frames_take]
  · refine Eq.trans hline ?_
    simp only [writeFails, goTo, Pc.taken, (hintact (h.intact_of_writes ht)).1, List.append_nil,
      List.append_assoc]
    simp only [← List.append_assoc _ _ s.gate.queued, List.take_append_drop]
  · exact absurd (hwriter.symm.trans (h.token.not_free hholds)) (by decide)

theorem sound_drain (h : Sound s) {vector : Option (List Queued)}
    (ht : s.pc t = .draining vector) : Sound (s.drain t vector) := by
  have hholds : (s.pc t).holds = true := by rw [ht]; rfl
  obtain ⟨hline, hintact, hended⟩ := h.held t hholds
  simp only [ht, Pc.taken, List.append_nil] at hline
  by_cases hqueued : s.gate.queued = []
  · have hrests : s.drain t vector = { s with
        gate := { s.gate with spare := [], writer := true }
        pc := Function.update s.pc t .outside } := by
      simp only [drain, Gate.drain, hqueued, if_true, goTo]
    rw [hrests]
    refine ⟨rfl, h.tickets, h.past, h.whole, h.token.give hholds rfl,
      h.token.forall_of_move (.inr hholds) nofun, fun _ => ⟨hqueued, ?_, ?_, ?_⟩⟩
    · refine hline.trans ?_
      rw [hqueued, List.append_nil]
    · exact fun hb => (hintact hb).1
    · intro hb
      obtain ⟨-, hfailing | hend⟩ := hended hb
      · rw [ht] at hfailing
        cases hfailing
      · exact hend.1
  · have hopens : s.drain t vector = { s with
        gate := { s.gate with queued := [], spare := [] }
        pc := Function.update s.pc t (.writing s.gate.queued) } := by
      cases vector with
      | none => simp only [drain, Gate.drain, hqueued, if_false, h.spare, goTo]
      | some batch =>
        simp only [drain, Gate.drain, hqueued, if_false, goTo]
        rw [← h.spare]
    have hb : s.broken = false := by
      cases hb : s.broken with
      | false => rfl
      | true =>
        obtain ⟨-, hfailing | hend⟩ := hended hb
        · rw [ht] at hfailing
          cases hfailing
        · exact absurd hend.2 hqueued
    rw [hopens]
    refine ⟨rfl, h.tickets, h.past, h.whole, h.token.move hholds.symm,
      h.token.forall_of_move (.inr hholds) fun _ => ⟨?_, fun hb => ⟨(hintact hb).1, nofun⟩,
        fun hbroken => absurd (hbroken.symm.trans hb) (by decide)⟩, fun hwriter => ?_⟩
    · refine hline.trans ?_
      simp only [Pc.taken, (hintact hb).1, List.append_nil]
    · exact absurd (hwriter.symm.trans (h.token.not_free hholds)) (by decide)

theorem sound_failed (h : Sound s) (ht : s.pc t = .failing) : Sound (s.failed t) := by
  have hholds : (s.pc t).holds = true := by rw [ht]; rfl
  obtain ⟨hline, hintact, -⟩ := h.held t hholds
  simp only [ht, Pc.taken, List.append_nil] at hline
  refine ⟨h.spare, h.tickets, h.past, h.whole, h.token.give hholds rfl,
    h.token.forall_of_move (.inr hholds) nofun, fun _ => ⟨rfl, ?_, fun hb => ?_, fun _ => rfl⟩⟩
  · refine hline.trans ?_
    simp only [failed, goTo, List.append_assoc]
  · exact absurd ht (hintact hb).2

theorem sound_tryWith (h : Sound s) : Sound (s.tryWith t) := by
  unfold tryWith
  split
  · next hwriter =>
    have htoken := h.token
    rw [hwriter] at htoken
    obtain ⟨hqueued, hline, hintact, hbroken⟩ := h.rest hwriter
    refine ⟨h.spare, h.tickets, h.past, h.whole, htoken.take rfl,
      htoken.forall_of_move (.inl rfl) fun _ => ⟨?_, fun hb => ⟨hintact hb, nofun⟩,
        fun hb => ⟨rfl, .inr ⟨hbroken hb, hqueued⟩⟩⟩, nofun⟩
    refine hline.trans ?_
    simp only [Pc.taken, goTo, hqueued, List.append_nil]
  · exact h

theorem sound_step : Kept step fun s : Senders Tid => Sound s := by
  intro s act s' h hstep
  obtain ⟨t, move⟩ := act
  simp only [step] at hstep
  split at hstep
  · next call head tail ht =>
    cases hstep
    exact sound_queue h (by rw [ht]; rfl) rfl
  · next call head tail ht =>
    cases hstep
    exact sound_sendParts h (by rw [ht]; rfl) rfl
  · next call _ =>
    cases hstep
    exact sound_retract h call
  · next ht =>
    cases hstep
    exact sound_tryWith h
  · cases hstep
    exact sound_close h
  · next q ht =>
    cases hstep
    exact sound_queue h (by rw [ht]; rfl) rfl
  · next q ht =>
    split at hstep
    · next hcalls =>
      cases hstep
      exact sound_wrote h (by rw [ht]; rfl) (by rw [ht]; exact hcalls)
    · cases hstep
  · next batch ht =>
    split at hstep
    · next hcalls =>
      cases hstep
      exact sound_wrote h (by rw [ht]; rfl) (by rw [ht]; exact hcalls)
    · cases hstep
  · next q calls ht =>
    cases hstep
    exact sound_writeFails h (by rw [ht]; rfl) calls
  · next batch calls ht =>
    cases hstep
    exact sound_writeFails h (by rw [ht]; rfl) calls
  · next vector ht =>
    cases hstep
    exact sound_drain h ht
  · next ht =>
    cases hstep
    exact sound_failed h ht
  · next ht =>
    cases hstep
    have hfits := h.held t (by rw [ht]; rfl)
    rw [ht] at hfits
    refine sound_goTo h (by rw [ht]; rfl) fun _ => ⟨hfits.line, fun hb => ?_, fun hb => ?_⟩
    · exact ⟨(hfits.intact hb).1, nofun⟩
    · obtain ⟨-, hfailing | hend⟩ := hfits.ended hb
      · cases hfailing
      · exact ⟨rfl, .inr hend⟩
  · cases hstep

theorem retracted_step {act : Tid × Move} {s' : Senders Tid} (hstep : step s act = some s') :
    s.retracted <+: s'.retracted := by
  simp only [step] at hstep
  split at hstep <;> first | cases hstep | skip
  · unfold queue
    split <;> exact List.prefix_refl _
  · unfold sendParts
    split <;> exact List.prefix_refl _
  · exact List.prefix_append _ _
  · unfold tryWith
    split <;> exact List.prefix_refl _
  · exact List.prefix_refl _
  · unfold queue
    split <;> exact List.prefix_refl _
  · split at hstep
    · cases hstep
      exact List.prefix_refl _
    · cases hstep
  · split at hstep
    · cases hstep
      exact List.prefix_refl _
    · cases hstep
  · exact List.prefix_refl _
  · exact List.prefix_refl _
  · unfold drain
    split <;> exact List.prefix_refl _
  · exact List.prefix_refl _
  · exact List.prefix_refl _

theorem Sound.not_handed (h : Sound s) {k : ℕ} (hk : k ∈ s.retracted) {acts : List (Tid × Move)}
    {s' : Senders Tid} (hrun : run step s acts = some s') : k ∉ s'.handed.map Queued.ticket := by
  have hkept : Kept step fun u : Senders Tid => Sound u ∧ k ∈ u.retracted :=
    sound_step.and fun _ _ _ _ hmem hstep => (retracted_step hstep).subset hmem
  obtain ⟨hsound, hmem⟩ := hkept.run ⟨h, hk⟩ hrun
  intro hhanded
  obtain ⟨q, hq, rfl⟩ := List.mem_map.mp hhanded
  have hdue := (List.mem_filter.mp (hsound.handed_prefix.subset hq)).2
  simp [hmem] at hdue

/-- Frames leave in the order they were taken in, each at most once and whole, and none that
was taken back; while the writer is at rest none is left over, but for those given up after
a write that failed, which closes the gate. -/
theorem frames_in_order {acts : List (Tid × Move)} (h : run step (start : Senders Tid) acts = some s) :
    s.written.flatMap FrameWrite.frames = s.handed.map Queued.bytes ∧
      (s.handed.map Queued.ticket).Nodup ∧ s.handed <+: s.due ∧
      (s.gate.writer = true → s.gate.queued = []) ∧
      (s.gate.writer = true → s.broken = false → s.handed = s.due) ∧
      (s.gate.writer = true → s.broken = true → s.gate.closed = true) ∧
      (∀ t, (s.pc t).holds = true → s.broken = false →
        s.due = s.handed ++ (s.pc t).taken ++ s.gate.queued) ∧
      ∀ call, (s.gate.retract call).1 = true → ∃ q ∈ s.due, q.call = call ∧
        ∀ more s', run step (s.retract call) more = some s' →
          q.ticket ∉ s'.handed.map Queued.ticket := by
  have hsound := sound_step.run sound_start h
  refine ⟨hsound.whole, hsound.nodup_due.sublist (hsound.handed_prefix.sublist.map _),
    hsound.handed_prefix, fun hw => (hsound.rest hw).1, fun hw hb => ?_,
    fun hw => (hsound.rest hw).2.2.2, fun t ht hb => ?_, fun call hcall => ?_⟩
  · obtain ⟨-, hline, hintact, -⟩ := hsound.rest hw
    rw [hline, hintact hb, List.append_nil]
  · obtain ⟨hline, hintact, -⟩ := hsound.held t ht
    rwa [(hintact hb).1, List.append_nil] at hline
  · have hsome : (s.gate.queued.find? (·.call == call)).isSome := by
      rw [List.find?_isSome]
      simpa only [Gate.retract, List.any_eq_true] using hcall
    obtain ⟨q, hq⟩ := Option.isSome_iff_exists.mp hsome
    have hmem := hsound.mem_due (List.mem_of_find?_eq_some hq)
    have hcall := List.find?_some hq
    refine ⟨q, hmem, by simpa using hcall, fun more s' hmore => ?_⟩
    refine (sound_retract hsound call).not_handed ?_ hmore
    simp only [retract, hq, Option.map_some, Option.toList_some, List.mem_append,
      List.mem_singleton, or_true]

/-- A second frame is queued behind one that fails to go out. -/
private def failing : List (ℕ × Move) :=
  [(0, .send 1 [1] none), (0, .drain), (1, .send 2 [2] none), (0, .writeFails 1), (0, .failed)]

/-- A frame taken in can be given up: the one queued behind a write that fails. -/
theorem frames_given_up : ¬ ∀ (acts : List (ℕ × Move)) (s : Senders ℕ),
    run step start acts = some s → s.gate.writer = true → s.handed = s.due := by
  intro h
  have hlost : ∃ s : Senders ℕ, run step start failing = some s ∧ s.gate.writer = true ∧
      s.handed ≠ s.due := ⟨_, rfl, rfl, by decide⟩
  obtain ⟨s, hrun, hwriter, hne⟩ := hlost
  exact hne (h failing s hrun hwriter)

/-- Three threads: one frame goes out at once, one behind it, and one is taken back. -/
private def behind : List (ℕ × Move) :=
  [(0, .sendParts 1 [1] [2]), (1, .send 2 [3] none), (2, .sendParts 3 [4] [5]), (2, .copied),
    (1, .retract 2), (0, .wrote), (0, .drain), (0, .wrote), (0, .drain)]

theorem frames_in_order_behind : ∃ s : Senders ℕ, run step start behind = some s ∧
    s.handed.map Queued.bytes = [[1, 2], [4, 5]] ∧ s.handed <+: s.due :=
  ⟨_, rfl, by decide, (frames_in_order (show run step start behind = some _ from rfl)).2.2.1⟩

end Senders

end Guatiao.Link
