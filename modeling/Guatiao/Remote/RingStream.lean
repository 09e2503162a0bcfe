import Guatiao.Remote.Ring

/-!
# A ring carries a stream

Between its counters a ring holds the bytes published and not yet read, in order, and after
them those the writer is copying in. Whatever the counters say, a copy stays in the ring.
A reader asleep with bytes to read has been rung, or is about to be.
-/

namespace Guatiao.Remote

open Lib

namespace Ring

variable {Byte : Type}

/-- The counters are those of the bytes written and taken, and what lies between is in the ring, with
what is copied after it. -/
structure Flow (base : ℕ) (g : Region Byte) (written taken copied : List Byte) : Prop where
  head : g.head = (base + written.length) % 2 ^ 64
  tail : g.tail = (base + taken.length) % 2 ^ 64
  starts : taken <+: written
  le : written.length ≤ taken.length + ring
  holds : Circular.Holds ring g.data (base + taken.length) (written.drop taken.length ++ copied)

variable {base : ℕ} {g : Region Byte} {written taken copied : List Byte}

theorem Flow.taken_le (h : Flow base g written taken copied) : taken.length ≤ written.length :=
  h.starts.length_le

theorem Flow.unread (h : Flow base g written taken copied) :
    wrappingSub g.head g.tail = written.length - taken.length := by
  have hle := h.taken_le
  have hring := h.le
  simp only [wrappingSub, h.head, h.tail, ring_eq] at *
  omega

theorem Flow.head_eq_iff (h : Flow base g written taken copied) {w : ℕ} (hw : taken.length ≤ w)
    (hle : w ≤ written.length) : (base + w) % 2 ^ 64 = g.tail ↔ w = taken.length := by
  have hring := h.le
  simp only [h.tail, ring_eq] at *
  omega

theorem Flow.get (h : Flow base g written taken copied) {i : ℕ}
    (hi : i < (written.drop taken.length).length) :
    g.data ((g.tail + i) % ring) = (written.drop taken.length)[i] := by
  have hcell : (g.tail + i) % ring = (base + taken.length + i) % ring := by
    simp only [h.tail, ring_eq]
    omega
  rw [hcell, h.holds i (by rw [List.length_append]; omega), List.getElem_append_left hi]

theorem Flow.take (h : Flow base g written taken copied) {n : ℕ}
    (hn : taken.length + n ≤ written.length) :
    Flow base { g with tail := wrappingAdd g.tail n } written
      (taken ++ (written.drop taken.length).take n) copied := by
  have hlength : (taken ++ (written.drop taken.length).take n).length = taken.length + n := by
    rw [List.length_append, List.length_take, List.length_drop]
    omega
  have htaken : taken ++ (written.drop taken.length).take n = written.take (taken.length + n) := by
    rw [List.take_add, ← List.prefix_iff_eq_take.mp h.starts]
  refine ⟨h.head, ?_, ?_, ?_, ?_⟩
  · rw [hlength]
    simp only [wrappingAdd, h.tail]
    omega
  · rw [htaken]
    exact List.take_prefix ..
  · rw [hlength]
    have := h.le
    omega
  · rw [hlength, ← Nat.add_assoc]
    have hdrop := h.holds.drop n
    rwa [List.drop_append_of_le_length (by rw [List.length_drop]; omega), List.drop_drop] at hdrop

theorem Flow.store (h : Flow base g written taken copied) {head : ℕ} (hhead : head = g.head)
    (hroom : written.length + copied.length < taken.length + ring) (b : Byte) :
    Flow base { g with data := Function.update g.data ((head + copied.length) % ring) b }
      written taken (copied ++ [b]) := by
  have hle := h.taken_le
  have hlength : (written.drop taken.length ++ copied).length =
      written.length - taken.length + copied.length := by
    rw [List.length_append, List.length_drop]
  have hcell : (head + copied.length) % ring =
      (base + taken.length + (written.drop taken.length ++ copied).length) % ring := by
    rw [hlength, hhead]
    simp only [h.head, ring_eq]
    omega
  refine ⟨h.head, h.tail, h.starts, h.le, ?_⟩
  rw [← List.append_assoc, hcell]
  exact h.holds.snoc (by omega) b

theorem Flow.publish (h : Flow base g written taken copied)
    (hroom : written.length + copied.length ≤ taken.length + ring) :
    Flow base { g with head := wrappingAdd g.head copied.length } (written ++ copied) taken [] := by
  refine ⟨?_, h.tail, h.starts.trans (List.prefix_append ..), ?_, ?_⟩
  · rw [List.length_append]
    simp only [wrappingAdd, h.head]
    omega
  · rw [List.length_append]
    exact hroom
  · rw [List.append_nil, List.drop_append_of_le_length h.taken_le]
    exact h.holds

theorem Flow.spares (h : Flow base g written taken copied) {i : ℕ}
    (hroom : written.length + copied.length < taken.length + ring)
    (hi : i < written.length - taken.length) :
    (g.head + copied.length) % ring ≠ (g.tail + i) % ring := by
  have hle := h.taken_le
  simp only [h.head, h.tail, ring_eq] at *
  omega

/-- What a write knows. -/
structure WriterOk (g : Region Byte) (written taken : List Byte) (w : RingWriter Byte) : Prop where
  outside : w.at_ ≠ .copying → w.copied = []
  head : w.at_ = .looking ∨ w.at_ = .full ∨ w.at_ = .copying → w.head = g.head
  /-- The bytes still to copy in go into the cells after those copied, and there is room. -/
  copying : w.at_ = .copying → ∃ bytes : List Byte,
    w.n = w.copied.length + bytes.length ∧ written.length + w.n ≤ taken.length + ring ∧
      w.stores = (Circular.cells ring w.head w.copied.length bytes.length).zip bytes

/-- What a read knows. -/
structure ReaderOk (base : ℕ) (g : Region Byte) (written taken : List Byte) (r : RingReader Byte) :
    Prop where
  tail : r.at_ ≠ .idle → r.tail = g.tail
  /-- The head it saw was after the tail, and is no further than the head is now. -/
  seen : r.at_ = .unmarking ∨ r.at_ = .belling ∨ r.at_ = .taking →
    ∃ w, taken.length < w ∧ w ≤ written.length ∧ r.head = (base + w) % 2 ^ 64
  /-- What it has copied out are the first unread bytes. -/
  copying : r.at_ = .copying → taken.length + r.n ≤ written.length ∧ r.got.length ≤ r.n ∧
    r.got = (written.drop taken.length).take r.got.length ∧
    r.cells = Circular.cells ring r.tail r.got.length (r.n - r.got.length)

variable {r : RingReader Byte} {w : RingWriter Byte}

theorem ReaderOk.grow {g' : Region Byte} (h : ReaderOk base g written taken r) (htail : g'.tail = g.tail)
    (hle : taken.length ≤ written.length) (more : List Byte) :
    ReaderOk base g' (written ++ more) taken r := by
  refine ⟨fun hat => (h.tail hat).trans htail.symm, fun hat => ?_, fun hat => ?_⟩
  · obtain ⟨w, hlt, hw, hhead⟩ := h.seen hat
    refine ⟨w, hlt, ?_, hhead⟩
    rw [List.length_append]
    omega
  · obtain ⟨hn, hgot, htake, hcells⟩ := h.copying hat
    refine ⟨?_, hgot, ?_, hcells⟩
    · rw [List.length_append]
      omega
    · rw [List.drop_append_of_le_length hle, List.take_append_of_le_length]
      · exact htake
      · rw [List.length_drop]
        omega

theorem WriterOk.free {g' : Region Byte} {taken' : List Byte}
    (h : WriterOk g written taken w) (hhead : g'.head = g.head)
    (hle : taken.length ≤ taken'.length) : WriterOk g' written taken' w := by
  refine ⟨h.outside, fun hat => (h.head hat).trans hhead.symm, fun hat => ?_⟩
  obtain ⟨bytes, hn, hroom, hstores⟩ := h.copying hat
  exact ⟨bytes, hn, by omega, hstores⟩

variable {s s' : Ring Byte}

/-- What a step comes to. -/
inductive Comes (s : Ring Byte) : Act Byte → Ring Byte → Prop
  | stays {act : Act Byte} (hact : act.keeps = true) : Comes s act s
  | read (room : ℕ) : Comes s (.read room) { s with reader :=
      { s.reader with at_ := .polling, room, tail := s.region.tail, cells := [], got := [] } }
  | sees (hat : s.reader.at_ = .polling ∨ s.reader.at_ = .failing)
    (hne : s.region.head ≠ s.reader.tail) :
    Comes s .reader { s with reader := { s.reader with at_ := .taking, head := s.region.head } }
  | mark (hat : s.reader.at_ = .marking) : Comes s .reader
      { s with region := { s.region with sleeping := 1 }, reader := { s.reader with at_ := .looking } }
  | rise (hat : s.reader.at_ = .looking) (hne : s.region.head ≠ s.reader.tail) :
    Comes s .reader { s with reader := { s.reader with at_ := .unmarking, head := s.region.head } }
  | wait (hat : s.reader.at_ = .looking) (heq : s.region.head = s.reader.tail) :
    Comes s .reader { s with reader := { s.reader with at_ := .waiting } }
  | unmark (hat : s.reader.at_ = .unmarking) : Comes s .reader { s with
      region := { s.region with sleeping := 0 }
      reader := { s.reader with at_ := if s.region.sleeping = 0 then .belling else .taking } }
  | hear (hat : s.reader.at_ = .belling) (hbell : s.bell ≠ 0) :
    Comes s .reader { s with bell := s.bell - 1, reader := { s.reader with at_ := .taking } }
  | wake (hat : s.reader.at_ = .waiting) (hbell : s.bell ≠ 0) :
    Comes s .reader { s with bell := s.bell - 1, reader := { s.reader with at_ := .polling } }
  | fail (hat : s.reader.at_ = .failing) :
    Comes s .reader { s with reader := { s.reader with at_ := .idle } }
  | take (hat : s.reader.at_ = .taking) : Comes s .reader { s with reader := s.reader.leave }
  | copy {cell : ℕ} {cells : List ℕ} (hat : s.reader.at_ = .copying)
    (hcells : s.reader.cells = cell :: cells) : Comes s .reader { s with
      reader := { s.reader with cells, got := s.reader.got ++ [s.region.data cell] } }
  | took (hat : s.reader.at_ = .copying) (hcells : s.reader.cells = []) : Comes s .reader { s with
      region := { s.region with tail := wrappingAdd s.reader.tail s.reader.n }
      reader := { s.reader with at_ := .idle }
      taken := s.taken ++ s.reader.got }
  | look (hat : s.writer.at_ = .looking) :
    Comes s .writer { s with writer := s.writer.look s.region.tail }
  | retry (hat : s.writer.at_ = .full) :
    Comes s .writer { s with writer := { s.writer with at_ := .looking } }
  | store {cell : ℕ} {b : Byte} {stores : List (ℕ × Byte)} (hat : s.writer.at_ = .copying)
    (hstores : s.writer.stores = (cell, b) :: stores) : Comes s .writer { s with
      region := { s.region with data := Function.update s.region.data cell b }
      writer := { s.writer with stores, copied := s.writer.copied ++ [b] } }
  | publish (hat : s.writer.at_ = .copying) (hstores : s.writer.stores = []) :
    Comes s .writer { s with
      region := { s.region with head := wrappingAdd s.writer.head s.writer.n }
      writer := { s.writer with at_ := .checking, copied := [] }
      written := s.written ++ s.writer.copied }
  | check (hat : s.writer.at_ = .checking) : Comes s .writer { s with
      writer := { s.writer with at_ := if s.region.sleeping = 1 then .swapping else .idle } }
  | swap (hat : s.writer.at_ = .swapping) : Comes s .writer { s with
      region := { s.region with sleeping := 0 }
      writer := { s.writer with at_ := if s.region.sleeping = 1 then .ringing else .idle } }
  | ring (hat : s.writer.at_ = .ringing) :
    Comes s .writer { s with bell := s.bell + 1, writer := { s.writer with at_ := .idle } }
  | sleep (hat : s.reader.at_ = .polling) :
    Comes s .sleep { s with reader := { s.reader with at_ := .marking } }
  | bellEnds (hat : s.reader.at_ = .belling) :
    Comes s .bellFails { s with reader := { s.reader with at_ := .taking } }
  | waitEnds (hat : s.reader.at_ = .waiting) :
    Comes s .bellFails { s with reader := { s.reader with at_ := .failing } }
  | write (parts : List (List Byte)) (hat : s.writer.at_ = .idle) :
    Comes s (.write parts) { s with writer := ⟨.looking, parts, s.region.head, 0, [], []⟩ }
  | giveUp (hat : s.writer.at_ = .full) :
    Comes s .giveUp { s with writer := { s.writer with at_ := .idle } }
  | ringFails (hat : s.writer.at_ = .ringing) :
    Comes s .ringFails { s with writer := { s.writer with at_ := .idle }, broken := true }
  | tamper (region : Region Byte) : Comes s (.tamper region) { s with
      region := { region with
        head := region.head % 2 ^ 64
        tail := region.tail % 2 ^ 64
        sleeping := region.sleeping % 2 ^ 64 } }

theorem stepReader_comes (hstep : s.stepReader = some s') : s.Comes .reader s' := by
  unfold stepReader at hstep
  dsimp only at hstep
  split at hstep
  next => cases hstep
  next hat =>
    split at hstep <;> cases hstep
    · exact .sees (.inl hat) ‹_›
    · exact .stays rfl
  next hat =>
    cases hstep
    exact .mark hat
  next hat =>
    split at hstep <;> cases hstep
    · exact .rise hat ‹_›
    · exact .wait hat (not_not.mp ‹_›)
  next hat =>
    cases hstep
    exact .unmark hat
  next hat =>
    split at hstep <;> cases hstep
    exact .hear hat ‹_›
  next hat =>
    split at hstep <;> cases hstep
    exact .wake hat ‹_›
  next hat =>
    split at hstep <;> cases hstep
    · exact .fail hat
    · exact .sees (.inr hat) ‹_›
  next hat =>
    cases hstep
    exact .take hat
  next hat =>
    split at hstep <;> cases hstep
    · exact .copy hat ‹_›
    · exact .took hat ‹_›

theorem stepWriter_comes (hstep : s.stepWriter = some s') : s.Comes .writer s' := by
  unfold stepWriter at hstep
  dsimp only at hstep
  split at hstep
  next => cases hstep
  next hat =>
    cases hstep
    exact .look hat
  next hat =>
    cases hstep
    exact .retry hat
  next hat =>
    split at hstep <;> cases hstep
    · exact .store hat ‹_›
    · exact .publish hat ‹_›
  next hat =>
    cases hstep
    exact .check hat
  next hat =>
    cases hstep
    exact .swap hat
  next hat =>
    cases hstep
    exact .ring hat

theorem step_comes {act : Act Byte} (hstep : s.step act = some s') : s.Comes act s' := by
  cases act with
  | read room =>
    simp only [step, Option.ite_none_right_eq_some] at hstep
    obtain ⟨-, hstep⟩ := hstep
    split at hstep <;> cases hstep
    · exact .stays rfl
    · exact .read room
  | reader => exact stepReader_comes hstep
  | sleep =>
    simp only [step, Option.ite_none_right_eq_some, Option.some.injEq] at hstep
    obtain ⟨⟨hat, -⟩, rfl⟩ := hstep
    exact .sleep hat
  | bellFails =>
    simp only [step] at hstep
    split at hstep <;> cases hstep
    · exact .bellEnds ‹_›
    · exact .waitEnds ‹_›
  | write parts =>
    simp only [step, Option.ite_none_right_eq_some] at hstep
    obtain ⟨hat, hstep⟩ := hstep
    split at hstep <;> cases hstep
    · exact .stays rfl
    · exact .write parts hat
  | writer => exact stepWriter_comes hstep
  | giveUp =>
    simp only [step, Option.ite_none_right_eq_some, Option.some.injEq] at hstep
    obtain ⟨hat, rfl⟩ := hstep
    exact .giveUp hat
  | ringFails =>
    simp only [step, Option.ite_none_right_eq_some, Option.some.injEq] at hstep
    obtain ⟨hat, rfl⟩ := hstep
    exact .ringFails hat
  | tamper region =>
    cases hstep
    exact .tamper region

/-- What holds between any two steps while the peer keeps to the ring. -/
structure Carried (base : ℕ) (s : Ring Byte) : Prop where
  flow : Flow base s.region s.written s.taken s.writer.copied
  writer : WriterOk s.region s.written s.taken s.writer
  reader : ReaderOk base s.region s.written s.taken s.reader

theorem carried_start (at_ : ℕ) (data : ℕ → Byte) : Carried at_ (start at_ data) where
  flow := ⟨rfl, rfl, List.prefix_rfl, Nat.zero_le _, Circular.holds_nil⟩
  writer := ⟨fun _ => rfl, by simp [start], by simp [start]⟩
  reader := ⟨by simp [start], by simp [start], by simp [start]⟩

theorem Carried.goOn (h : Carried base s) {sleeping bell : ℕ} {reader : RingReader Byte}
    (hreader : ReaderOk base s.region s.written s.taken reader) :
    Carried base { s with region := { s.region with sleeping }, bell, reader } where
  flow := ⟨h.flow.head, h.flow.tail, h.flow.starts, h.flow.le, h.flow.holds⟩
  writer := ⟨h.writer.outside, h.writer.head, h.writer.copying⟩
  reader := ⟨hreader.tail, hreader.seen, hreader.copying⟩

theorem Carried.sees (h : Carried base s) (htail : s.reader.tail = s.region.tail)
    (hne : s.region.head ≠ s.reader.tail) :
    ∃ w, s.taken.length < w ∧ w ≤ s.written.length ∧ s.region.head = (base + w) % 2 ^ 64 := by
  refine ⟨s.written.length, ?_, le_rfl, h.flow.head⟩
  have hle := h.flow.taken_le
  have hlengths : s.written.length ≠ s.taken.length := by
    intro heq
    apply hne
    rw [htail, h.flow.head]
    exact (h.flow.head_eq_iff hle le_rfl).mpr heq
  omega

theorem ReaderOk.of_tail (htail : r.tail = g.tail)
    (hseen : r.at_ ≠ .unmarking ∧ r.at_ ≠ .belling ∧ r.at_ ≠ .taking) (hcopying : r.at_ ≠ .copying) :
    ReaderOk base g written taken r := by
  refine ⟨fun _ => htail, fun hat => ?_, fun hat => absurd hat hcopying⟩
  rcases hat with hat | hat | hat
  · exact absurd hat hseen.1
  · exact absurd hat hseen.2.1
  · exact absurd hat hseen.2.2

theorem ReaderOk.of_seen (htail : r.tail = g.tail) (hcopying : r.at_ ≠ .copying)
    (hseen : ∃ w, taken.length < w ∧ w ≤ written.length ∧ r.head = (base + w) % 2 ^ 64) :
    ReaderOk base g written taken r :=
  ⟨fun _ => htail, fun _ => hseen, fun hat => absurd hat hcopying⟩

theorem ReaderOk.of_idle (hat : r.at_ = .idle) :
    ReaderOk base g written taken r :=
  ⟨fun hne => absurd hat hne, by simp [hat], by simp [hat]⟩

theorem Carried.held_eq (h : Carried base s) (hat : s.reader.at_ = .taking) :
    ∃ n, held s.reader.head s.reader.tail = some n ∧ s.taken.length + n ≤ s.written.length ∧
      n ≤ ring := by
  obtain ⟨w, hlt, hw, hhead⟩ := h.reader.seen (.inr (.inr hat))
  have htail := (h.reader.tail (by simp [hat])).trans h.flow.tail
  have hle := h.flow.le
  have hsub : wrappingSub s.reader.head s.reader.tail = w - s.taken.length := by
    simp only [wrappingSub, hhead, htail, ring_eq] at *
    omega
  refine ⟨w - s.taken.length, ?_, by omega, by omega⟩
  simp only [held, hsub]
  rw [if_neg (by omega)]

theorem Carried.leaves (h : Carried base s) (hat : s.reader.at_ = .taking) :
    ReaderOk base s.region s.written s.taken s.reader.leave := by
  obtain ⟨n, hheld, hn, hring⟩ := h.held_eq hat
  have hmin : min n s.reader.room ≤ n := min_le_left ..
  have hleave : s.reader.leave = s.reader.take (min n s.reader.room) := by
    rw [RingReader.leave, hheld, Option.elim_some]
  rw [hleave]
  refine ⟨fun _ => h.reader.tail (by simp [hat]), by simp [RingReader.take], fun _ => ⟨?_, ?_, ?_, ?_⟩⟩
  · change s.taken.length + min n s.reader.room ≤ _
    omega
  · exact Nat.zero_le _
  · exact (List.take_zero).symm
  · exact copyOut_eq (by omega)

theorem Carried.copy (h : Carried base s) (hat : s.reader.at_ = .copying) {cell : ℕ} {cells : List ℕ}
    (hrest : s.reader.cells = cell :: cells) : Carried base { s with
      reader := { s.reader with cells, got := s.reader.got ++ [s.region.data cell] } } := by
  obtain ⟨hn, hgot, htake, hcells⟩ := h.reader.copying hat
  have htail := h.reader.tail (by simp [hat])
  have hlt : s.reader.got.length < s.reader.n := by
    by_contra hge
    have hzero : s.reader.n - s.reader.got.length = 0 := by omega
    rw [hzero, Circular.cells_zero, hrest] at hcells
    cases hcells
  obtain ⟨m, hm⟩ : ∃ m, s.reader.n - s.reader.got.length = m + 1 :=
    ⟨s.reader.n - s.reader.got.length - 1, by omega⟩
  rw [hm, Circular.cells_succ, hrest, List.cons.injEq, htail] at hcells
  have hi : s.reader.got.length < (s.written.drop s.taken.length).length := by
    rw [List.length_drop]
    omega
  refine h.goOn ⟨fun _ => htail, by simp [hat], fun _ => ⟨hn, ?_, ?_, ?_⟩⟩
  · rw [List.length_append, List.length_singleton]
    exact hlt
  · rw [List.length_append, List.length_singleton, List.take_add_one, ← htake,
      List.getElem?_eq_getElem hi, hcells.1, h.flow.get hi]
    rfl
  · change cells = _
    rw [List.length_append, List.length_singleton, htail, hcells.2]
    congr 1
    change m = s.reader.n - _
    omega

theorem Carried.took (h : Carried base s) (hat : s.reader.at_ = .copying)
    (hrest : s.reader.cells = []) : Carried base { s with
      region := { s.region with tail := wrappingAdd s.reader.tail s.reader.n }
      reader := { s.reader with at_ := .idle }
      taken := s.taken ++ s.reader.got } := by
  obtain ⟨hn, hgot, htake, hcells⟩ := h.reader.copying hat
  have hfull : s.reader.got.length = s.reader.n := by
    have hlength := congrArg List.length hcells
    rw [hrest, Circular.length_cells, List.length_nil] at hlength
    omega
  rw [hfull] at htake
  have hflow := h.flow.take hn
  rw [← htake, ← h.reader.tail (by simp [hat])] at hflow
  refine ⟨hflow, h.writer.free rfl ?_, .of_idle rfl⟩
  rw [List.length_append]
  omega

theorem Carried.writeOn (h : Carried base s) {sleeping bell : ℕ} {broken : Bool}
    {writer : RingWriter Byte} (hcopied : writer.copied = s.writer.copied)
    (hwriter : WriterOk s.region s.written s.taken writer) :
    Carried base { s with region := { s.region with sleeping }, bell, writer, broken } where
  flow := by
    have hflow := h.flow
    rw [← hcopied] at hflow
    exact ⟨hflow.head, hflow.tail, hflow.starts, hflow.le, hflow.holds⟩
  writer := ⟨hwriter.outside, hwriter.head, hwriter.copying⟩
  reader := ⟨h.reader.tail, h.reader.seen, h.reader.copying⟩

theorem WriterOk.of_outside (hcopied : w.copied = [])
    (hat : w.at_ ≠ .looking ∧ w.at_ ≠ .full ∧ w.at_ ≠ .copying) : WriterOk g written taken w := by
  refine ⟨fun _ => hcopied, fun hw => ?_, fun hw => absurd hw hat.2.2⟩
  rcases hw with hw | hw | hw
  · exact absurd hw hat.1
  · exact absurd hw hat.2.1
  · exact absurd hw hat.2.2

theorem WriterOk.of_looking (hcopied : w.copied = []) (hhead : w.head = g.head)
    (hat : w.at_ ≠ .copying) : WriterOk g written taken w :=
  ⟨fun _ => hcopied, fun _ => hhead, fun hw => absurd hw hat⟩

theorem Carried.looks (h : Carried base s) (hat : s.writer.at_ = .looking) :
    (s.writer.look s.region.tail).copied = [] ∧
      WriterOk s.region s.written s.taken (s.writer.look s.region.tail) := by
  have hhead := h.writer.head (.inl hat)
  have hcopied := h.writer.outside (by simp [hat])
  have hring := h.flow.le
  have hle := h.flow.taken_le
  have hunread := h.flow.unread
  have hheld : held s.writer.head s.region.tail = some (s.written.length - s.taken.length) := by
    simp only [held, hhead, hunread]
    rw [if_neg (by omega)]
  rw [RingWriter.look, hheld, Option.elim_some]
  by_cases hroom : 0 < ring - (s.written.length - s.taken.length)
  · rw [if_pos hroom]
    have hmin : min (ring - (s.written.length - s.taken.length)) s.writer.parts.flatten.length ≤
        ring - (s.written.length - s.taken.length) := min_le_left ..
    refine ⟨rfl, fun _ => rfl, fun _ => hhead, fun _ => ?_⟩
    refine ⟨s.writer.parts.flatten.take
      (min (ring - (s.written.length - s.taken.length)) s.writer.parts.flatten.length), ?_, ?_, ?_⟩
    · simp [RingWriter.accept]
    · change s.written.length + min _ _ ≤ _
      omega
    · have hroom : min (ring - (s.written.length - s.taken.length)) s.writer.parts.flatten.length
          ≤ ring := by
        omega
      have hparts := @copyParts_eq _ s.writer.head _ 0 (Nat.zero_le _) hroom s.writer.parts
      rw [Nat.sub_zero] at hparts
      simp only [RingWriter.accept, hparts, List.length_nil, List.length_take]
      rw [min_eq_left (min_le_right ..)]
  · rw [if_neg hroom]
    exact ⟨hcopied, .of_looking hcopied hhead (by simp)⟩

theorem Carried.store (h : Carried base s) (hat : s.writer.at_ = .copying) {cell : ℕ} {b : Byte}
    {stores : List (ℕ × Byte)} (hrest : s.writer.stores = (cell, b) :: stores) :
    Carried base { s with
      region := { s.region with data := Function.update s.region.data cell b }
      writer := { s.writer with stores, copied := s.writer.copied ++ [b] } } := by
  obtain ⟨bytes, hn, hroom, hstores⟩ := h.writer.copying hat
  have hhead := h.writer.head (.inr (.inr hat))
  cases bytes with
  | nil =>
    rw [hrest, List.length_nil, Circular.cells_zero, List.zip_nil_left] at hstores
    cases hstores
  | cons b' bytes =>
    rw [hrest, List.length_cons, Circular.cells_succ, List.zip_cons_cons, List.cons.injEq,
      Prod.mk.injEq] at hstores
    obtain ⟨⟨rfl, rfl⟩, rfl⟩ := hstores
    rw [List.length_cons] at hn
    refine ⟨h.flow.store hhead (by omega) b, ⟨by simp [hat], fun _ => hhead,
      fun _ => ⟨bytes, ?_, hroom, ?_⟩⟩, ⟨h.reader.tail, h.reader.seen, h.reader.copying⟩⟩
    · change s.writer.n = _
      rw [List.length_append, List.length_singleton]
      omega
    · change (Circular.cells ring s.writer.head (s.writer.copied.length + 1) bytes.length).zip bytes = _
      rw [List.length_append, List.length_singleton]

theorem Carried.publish (h : Carried base s) (hat : s.writer.at_ = .copying)
    (hrest : s.writer.stores = []) : Carried base { s with
      region := { s.region with head := wrappingAdd s.writer.head s.writer.n }
      writer := { s.writer with at_ := .checking, copied := [] }
      written := s.written ++ s.writer.copied } := by
  obtain ⟨bytes, hn, hroom, hstores⟩ := h.writer.copying hat
  have hnone : bytes.length = 0 := by
    have hlength := congrArg List.length hstores
    rw [hrest, List.length_zip, Circular.length_cells, min_self, List.length_nil] at hlength
    exact hlength.symm
  rw [hnone, Nat.add_zero] at hn
  have hflow := h.flow.publish (by omega)
  rw [← h.writer.head (.inr (.inr hat)), ← hn] at hflow
  refine ⟨hflow, .of_outside rfl (by simp), h.reader.grow ?_ h.flow.taken_le _⟩
  rfl

theorem carried_step :
    Kept (only (fun _ act => act.keeps = true) step) fun s : Ring Byte => Carried base s := by
  intro s act s' h hstep
  obtain ⟨hkeeps, hstep⟩ := only_eq_some.mp hstep
  have htail := h.reader.tail
  have hcopied := h.writer.outside
  cases step_comes hstep with
  | stays => exact h
  | read => exact h.goOn (.of_tail rfl (by simp) (by simp))
  | sees hat hne =>
    have htail := htail (by rcases hat with hat | hat <;> simp [hat])
    exact h.goOn (.of_seen htail (by simp) (h.sees htail hne))
  | rise hat hne =>
    have htail := htail (by simp [hat])
    exact h.goOn (.of_seen htail (by simp) (h.sees htail hne))
  | mark hat | wait hat | wake hat | sleep hat | waitEnds hat =>
    exact h.goOn (.of_tail (htail (by simp [hat])) (by simp) (by simp))
  | unmark hat =>
    refine h.goOn (.of_seen (htail (by simp [hat])) ?_ (h.reader.seen (.inl hat)))
    dsimp only
    split <;> simp
  | hear hat | bellEnds hat =>
    exact h.goOn (.of_seen (htail (by simp [hat])) (by simp) (h.reader.seen (.inr (.inl hat))))
  | fail => exact h.goOn (.of_idle rfl)
  | take hat => exact h.goOn (h.leaves hat)
  | copy hat hcells => exact h.copy hat hcells
  | took hat hcells => exact h.took hat hcells
  | look hat =>
    obtain ⟨hnone, hlooks⟩ := h.looks hat
    exact h.writeOn (hnone.trans (hcopied (by simp [hat])).symm) hlooks
  | retry hat =>
    exact h.writeOn rfl (.of_looking (hcopied (by simp [hat])) (h.writer.head (.inr (.inl hat)))
      (by simp))
  | store hat hstores => exact h.store hat hstores
  | publish hat hstores => exact h.publish hat hstores
  | check hat | swap hat =>
    refine h.writeOn rfl (.of_outside (hcopied (by simp [hat])) ?_)
    dsimp only
    split <;> simp
  | ring hat | giveUp hat | ringFails hat =>
    exact h.writeOn rfl (.of_outside (hcopied (by simp [hat])) (by simp))
  | write parts hat =>
    exact h.writeOn (hcopied (by simp [hat])).symm (.of_looking rfl rfl (by simp))
  | tamper => cases hkeeps

/-- Whether the bell is rung, or the writer is at it. -/
def Rung (s : Ring Byte) : Prop := 0 < s.bell ∨ s.writer.at_ = .ringing ∨ s.broken

/-- Whether the writer is at it, or about to find the flag it is to clear. -/
def Rings (s : Ring Byte) : Prop :=
  s.writer.at_ = .ringing ∨
    (s.writer.at_ = .checking ∨ s.writer.at_ = .swapping) ∧ s.region.sleeping = 1

/-- What holds of the flag between any two steps while the peer keeps to the ring. -/
structure Awake (s : Ring Byte) : Prop where
  flag : s.region.sleeping = 0 ∨ s.region.sleeping = 1
  /-- The flag a reader set stays until the writer clears it, and then rings. -/
  marked : s.reader.at_ = .looking ∨ s.reader.at_ = .unmarking ∨ s.reader.at_ = .waiting →
    s.region.sleeping = 1 ∨ s.Rung
  belled : s.reader.at_ = .belling → s.Rung
  waits : s.reader.at_ = .waiting → s.taken.length < s.written.length → s.Rung ∨ s.Rings

theorem awake_start (at_ : ℕ) (data : ℕ → Byte) : Awake (start at_ data) :=
  ⟨.inl rfl, by simp [start], by simp [start], by simp [start]⟩

theorem Awake.of_up {s : Ring Byte} (hflag : s.region.sleeping = 0 ∨ s.region.sleeping = 1)
    (hat : s.reader.at_ ≠ .looking ∧ s.reader.at_ ≠ .unmarking ∧ s.reader.at_ ≠ .waiting ∧
      s.reader.at_ ≠ .belling) : Awake s := by
  obtain ⟨hlooking, hunmarking, hwaiting, hbelling⟩ := hat
  refine ⟨hflag, fun hup => ?_, fun hup => absurd hup hbelling, fun hup => absurd hup hwaiting⟩
  rcases hup with hup | hup | hup
  · exact absurd hup hlooking
  · exact absurd hup hunmarking
  · exact absurd hup hwaiting

theorem Awake.writeOn (h : Awake s) {g : Region Byte} {writer : RingWriter Byte}
    (hflag : g.sleeping = s.region.sleeping) (hnot : s.writer.at_ ≠ .ringing)
    (hrings : s.Rings → Rings { s with region := g, writer }) :
    Awake { s with region := g, writer } := by
  have hrung : s.Rung → Rung { s with region := g, writer } := by
    rintro (hbell | hringing | hbroken)
    · exact .inl hbell
    · exact absurd hringing hnot
    · exact .inr (.inr hbroken)
  refine ⟨?_, fun hat => ?_, fun hat => hrung (h.belled hat), fun hat hlt => ?_⟩
  · change g.sleeping = 0 ∨ g.sleeping = 1
    rw [hflag]
    exact h.flag
  · change g.sleeping = 1 ∨ _
    rw [hflag]
    exact (h.marked hat).imp_right hrung
  · exact (h.waits hat hlt).imp hrung hrings

theorem awake_step :
    Kept (only (fun _ act => act.keeps = true) step)
      fun s : Ring Byte => Carried base s ∧ Awake s := by
  refine carried_step.and fun s act s' hcarried h hstep => ?_
  obtain ⟨hkeeps, hstep⟩ := only_eq_some.mp hstep
  have hrung (hnot : s.writer.at_ ≠ .ringing) : s.Rung → 0 < s.bell ∨ s.broken :=
    fun hr => hr.imp_right (·.resolve_left hnot)
  cases step_comes hstep with
  | stays => exact h
  | read | sees | hear | wake | fail | took | sleep | bellEnds | waitEnds =>
    exact .of_up h.flag (by simp)
  | copy hat => exact .of_up h.flag (by simp [hat])
  | mark => exact ⟨.inr rfl, fun _ => .inl rfl, by simp, by simp⟩
  | rise hat => exact ⟨h.flag, fun _ => h.marked (.inl hat), by simp, by simp⟩
  | wait hat heq =>
    refine ⟨h.flag, fun _ => h.marked (.inl hat), by simp, fun _ hlt => ?_⟩
    -- The last look found nothing, so nothing is unread.
    rw [hcarried.reader.tail (by simp [hat]), hcarried.flow.head] at heq
    have hlengths := (hcarried.flow.head_eq_iff hcarried.flow.taken_le le_rfl).mp heq
    change s.taken.length < s.written.length at hlt
    omega
  | unmark hat =>
    have hmarked := h.marked (.inr (.inl hat))
    by_cases hzero : s.region.sleeping = 0
    · simp only [hzero, if_true]
      exact ⟨.inl rfl, by simp, fun _ => hmarked.resolve_left (by simp [hzero]), by simp⟩
    · simp only [hzero, if_false]
      exact .of_up (.inl rfl) (by simp)
  | take hat =>
    obtain ⟨n, hheld, -⟩ := hcarried.held_eq hat
    refine .of_up h.flag ?_
    simp [RingReader.leave, hheld, RingReader.take]
  | look hat | retry hat | giveUp hat | write _ hat =>
    exact h.writeOn rfl (by simp [hat]) (by simp [Rings, hat])
  | store hat => exact h.writeOn rfl (by simp [hat]) (by simp [Rings, hat])
  | publish hat =>
    have hrung := hrung (by simp [hat])
    refine ⟨h.flag, fun hup => ?_, fun hup => ?_, fun hup _ => ?_⟩
    · exact (h.marked hup).imp_right fun hr => (hrung hr).imp_right .inr
    · exact (hrung (h.belled hup)).imp_right .inr
    · -- The reader set the flag before it slept: it is set still, or was rung for.
      rcases h.marked (.inr (.inr hup)) with hset | hr
      · exact .inr (.inr ⟨.inl rfl, hset⟩)
      · exact .inl ((hrung hr).imp_right .inr)
  | check hat =>
    refine h.writeOn rfl (by simp [hat]) fun hrings => ?_
    rcases hrings with hrings | ⟨-, hset⟩
    · rw [hat] at hrings
      cases hrings
    · exact .inr ⟨.inr (by simp [hset]), hset⟩
  | swap hat =>
    have hrung := hrung (by simp [hat])
    by_cases hset : s.region.sleeping = 1
    · simp only [hset, if_true]
      exact ⟨.inl rfl, fun _ => .inr (.inr (.inl rfl)), fun _ => .inr (.inl rfl),
        fun _ _ => .inl (.inr (.inl rfl))⟩
    · simp only [hset, if_false]
      refine ⟨.inl rfl, fun hup => .inr ?_, fun hup => (hrung (h.belled hup)).imp_right .inr,
        fun hup hlt => .inl ?_⟩
      · exact (hrung ((h.marked hup).resolve_left hset)).imp_right .inr
      · exact (hrung ((h.marked (.inr (.inr hup))).resolve_left hset)).imp_right .inr
  | ring =>
    have hrung : Rung { s with bell := s.bell + 1, writer := { s.writer with at_ := .idle } } :=
      .inl (Nat.succ_pos _)
    exact ⟨h.flag, fun _ => .inr hrung, fun _ => hrung, fun _ _ => .inl hrung⟩
  | ringFails =>
    have hrung : Rung { s with writer := { s.writer with at_ := .idle }, broken := true } :=
      .inr (.inr rfl)
    exact ⟨h.flag, fun _ => .inr hrung, fun _ => hrung, fun _ _ => .inl hrung⟩
  | tamper => cases hkeeps

/-- Every copy under way stays in the ring. -/
structure Inside (s : Ring Byte) : Prop where
  out : ∀ cell ∈ s.reader.cells, cell < ring
  into : ∀ p ∈ s.writer.stores, p.1 < ring

theorem held_le {head tail n : ℕ} (h : held head tail = some n) : n ≤ ring := by
  unfold held at h
  by_cases hlt : ring < wrappingSub head tail
  · rw [if_pos hlt] at h
    cases h
  · rw [if_neg hlt, Option.some.injEq] at h
    omega

theorem ring_pos : 0 < ring := by
  rw [ring_eq]
  omega

theorem leave_inside (h : ∀ cell ∈ r.cells, cell < ring) :
    ∀ cell ∈ r.leave.cells, cell < ring := by
  unfold RingReader.leave
  cases hheld : held r.head r.tail with
  | none =>
    rw [Option.elim_none]
    exact h
  | some n =>
    have hle : min n r.room ≤ ring := (min_le_left ..).trans (held_le hheld)
    rw [Option.elim_some]
    intro cell hcell
    rw [RingReader.take, copyOut_eq hle] at hcell
    exact Circular.mem_cells_lt ring_pos hcell

theorem look_inside (h : ∀ p ∈ w.stores, p.1 < ring) (tail : ℕ) :
    ∀ p ∈ (w.look tail).stores, p.1 < ring := by
  unfold RingWriter.look
  cases held w.head tail with
  | none =>
    rw [Option.elim_none]
    exact h
  | some n =>
    rw [Option.elim_some]
    by_cases hroom : 0 < ring - n
    · have hle : min (ring - n) w.parts.flatten.length ≤ ring :=
        (min_le_left ..).trans (Nat.sub_le ..)
      rw [if_pos hroom]
      intro p hp
      rw [RingWriter.accept, copyParts_eq (Nat.zero_le _) hle] at hp
      exact Circular.mem_cells_lt ring_pos (List.of_mem_zip hp).1
    · rw [if_neg hroom]
      exact h

theorem inside_step : Kept step fun s : Ring Byte => Inside s := by
  intro s act s' h hstep
  cases step_comes hstep with
  | read => exact ⟨nofun, h.into⟩
  | take => exact ⟨leave_inside h.out, h.into⟩
  | copy _ hcells =>
    refine ⟨fun c hc => h.out c ?_, h.into⟩
    rw [hcells]
    exact List.mem_cons_of_mem _ hc
  | look => exact ⟨h.out, look_inside h.into _⟩
  | store _ hstores =>
    refine ⟨h.out, fun p hp => h.into p ?_⟩
    rw [hstores]
    exact List.mem_cons_of_mem _ hp
  | write => exact ⟨h.out, nofun⟩
  | _ => exact ⟨h.out, h.into⟩

theorem broken_step {act : Act Byte} (hstep : step s act = some s') (hbroken : s'.broken) :
    s.broken ∨ act = .ringFails := by
  cases step_comes hstep with
  | ringFails => exact .inr rfl
  | _ => exact .inl hbroken

theorem broken_run {acts : List (Act Byte)} (h : run step s acts = some s') (hbroken : s'.broken) :
    s.broken ∨ .ringFails ∈ acts := by
  induction acts generalizing s with
  | nil =>
    rw [← Option.some.inj h] at hbroken
    exact .inl hbroken
  | cons act rest ih =>
    obtain ⟨m, hstep, hrest⟩ := run_cons.mp h
    rcases ih hrest with hm | hmem
    · rcases broken_step hstep hm with hs | hact
      · exact .inl hs
      · rw [hact]
        exact .inr List.mem_cons_self
    · exact .inr (List.mem_cons_of_mem _ hmem)

/-- A ring is a stream of bytes. -/
structure Stream (s : Ring Byte) : Prop where
  /-- What is read is what was written, as far as it goes. -/
  starts : s.taken <+: s.written
  /-- The next byte copied in goes where no unread byte is. -/
  spares : s.writer.at_ = .copying → ∀ cell b stores, s.writer.stores = (cell, b) :: stores →
    ∀ i < wrappingSub s.region.head s.region.tail, cell ≠ (s.region.tail + i) % ring
  /-- A reader in `wait_bell` with bytes to read is rung, or about to be. -/
  wakes : s.reader.at_ = .waiting ∨ s.reader.at_ = .belling → s.taken.length < s.written.length →
    0 < s.bell ∨ s.Rings ∨ s.broken

theorem Carried.stream (h : Carried base s) (hawake : Awake s) : Stream s where
  starts := h.flow.starts
  spares := by
    intro hat cell b stores hstores i hi
    obtain ⟨bytes, hn, hroom, hcells⟩ := h.writer.copying hat
    cases bytes with
    | nil =>
      rw [hstores, List.length_nil, Circular.cells_zero, List.zip_nil_left] at hcells
      cases hcells
    | cons b' bytes =>
      rw [hstores, List.length_cons, Circular.cells_succ, List.zip_cons_cons, List.cons.injEq,
        Prod.mk.injEq] at hcells
      rw [List.length_cons] at hn
      rw [hcells.1.1, h.writer.head (.inr (.inr hat))]
      rw [h.flow.unread] at hi
      exact h.flow.spares (by omega) hi
  wakes := by
    have hrung : s.Rung → 0 < s.bell ∨ s.Rings ∨ s.broken := by
      rintro (hbell | hringing | hbroken)
      · exact .inl hbell
      · exact .inr (.inl (.inl hringing))
      · exact .inr (.inr hbroken)
    rintro (hat | hat) hlt
    · rcases hawake.waits hat hlt with hr | hrings
      · exact hrung hr
      · exact .inr (.inl hrings)
    · exact hrung (hawake.belled hat)

/-- With a peer that keeps to it a ring is a stream, and its bell breaks only under the writer; with
any peer a copy stays in the ring, or is refused. -/
theorem stream_of_keeps (at_ : ℕ) (data : ℕ → Byte) (acts : List (Act Byte)) (s : Ring Byte) :
    (run (only (fun _ act => act.keeps = true) step) (start at_ data) acts = some s →
      Stream s ∧ (s.broken → .ringFails ∈ acts)) ∧
    (run step (start at_ data) acts = some s → Inside s) := by
  constructor
  · intro h
    obtain ⟨hcarried, hawake⟩ := awake_step.run ⟨carried_start at_ data, awake_start at_ data⟩ h
    refine ⟨hcarried.stream hawake, fun hbroken => ?_⟩
    rcases broken_run (run_of_only h) hbroken with hstart | hmem
    · cases hstart
    · exact hmem
  · intro h
    exact inside_step.run ⟨by simp [start], by simp [start]⟩ h

/-- A reader asleep is rung for two bytes, written where the counters and the cells both wrap; and a
peer that moves the head out of its ring has the read refused. -/
theorem stream_of_keeps_wrapped :
    (∃ (acts : List (Act ℕ)) (s : Ring ℕ),
      run (only (fun _ act => act.keeps = true) step) (start (2 ^ 64 - 1) fun _ => 0) acts = some s ∧
      s.taken = [1, 2, 3] ∧ s.region.head = 2 ∧ s.region.tail = 2 ∧ Stream s) ∧
    ∃ (acts : List (Act ℕ)) (s : Ring ℕ), run step (start 0 fun _ => 0) acts = some s ∧
      s.reader.at_ = .idle ∧ s.taken = [] ∧ Inside s := by
  constructor
  · have hrun : (run (only (fun _ act => act.keeps = true) step) (start (2 ^ 64 - 1) fun _ => 0)
        [.read 8, .sleep, .reader, .reader, .write [[1], [2, 3]], .writer, .writer, .writer, .writer,
          .writer, .writer, .writer, .writer, .reader, .reader, .reader, .reader, .reader, .reader,
          .reader]).map (fun s => (s.taken, s.region.head, s.region.tail)) =
        some ([1, 2, 3], 2, 2) := by
      decide +kernel
    obtain ⟨s, hs, hfacts⟩ := Option.map_eq_some_iff.mp hrun
    simp only [Prod.mk.injEq] at hfacts
    exact ⟨_, s, hs, hfacts.1, hfacts.2.1, hfacts.2.2, ((stream_of_keeps _ _ _ _).1 hs).1⟩
  · have hrun : (run step (start 0 fun _ => 0)
        [.tamper ⟨ring + 1, 0, 0, fun _ => 0⟩, .read 8, .reader, .reader]).map
          (fun s => (s.reader.at_, s.taken)) = some (.idle, []) := by
      decide +kernel
    obtain ⟨s, hs, hfacts⟩ := Option.map_eq_some_iff.mp hrun
    simp only [Prod.mk.injEq] at hfacts
    exact ⟨_, s, hs, hfacts.1, hfacts.2, (stream_of_keeps _ _ _ _).2 hs⟩

end Ring

end Guatiao.Remote
