import Guatiao.Lib.Circular
import Guatiao.Lib.Machine

/-!
# A ring of shared memory

One direction of a link through shared memory: two counters, a flag and the bytes, which
both processes map, and beside them the bell, a connection that carries a byte for each
wake-up. One thread reads and another writes; each step here is one access to what they
share, a copy going byte by byte. A spinning read or write looks as often as it likes.
-/

namespace Guatiao.Remote

open Lib

namespace Ring

/-- Bytes a ring holds. -/
def ring : ℕ := 4 * 2 ^ 20

theorem ring_eq : ring = 4194304 := rfl

/-- A counter moved on, in 64 bits. -/
def wrappingAdd (a b : ℕ) : ℕ := (a + b) % 2 ^ 64

def wrappingSub (a b : ℕ) : ℕ := (a + 2 ^ 64 - b) % 2 ^ 64

/-- What both sides map. -/
structure Region (Byte : Type) where
  head : ℕ
  tail : ℕ
  sleeping : ℕ
  data : ℕ → Byte

/-- `held`: what the reader may take, unless the counters claim more than a ring holds. -/
def held (head tail : ℕ) : Option ℕ :=
  let n := wrappingSub head tail
  if ring < n then none else some n

/-- The cells `copy_out` reads, in order. -/
def copyOut (tail n : ℕ) : List ℕ :=
  let at_ := tail % ring
  let first := min n (ring - at_)
  List.range' at_ first ++ List.range' 0 (n - first)

/-- What `copy_in` stores, and in which cells, in order. -/
def copyIn {Byte : Type} (head : ℕ) (bytes : List Byte) : List (ℕ × Byte) :=
  let at_ := head % ring
  let first := min bytes.length (ring - at_)
  (List.range' at_ first).zip (bytes.take first) ++
    (List.range' 0 (bytes.length - first)).zip (bytes.drop first)

/-- The loop of `write_vectored` that copies `n` bytes of the parts in, the first `done` of them
copied. -/
def copyParts {Byte : Type} (head n done : ℕ) : List (List Byte) → List (ℕ × Byte)
  | [] => []
  | part :: parts =>
    if done = n then []
    else
      let take := min part.length (n - done)
      copyIn (wrappingAdd head done) (part.take take) ++ copyParts head n (done + take) parts

/-- Where a read is. -/
inductive ReadAt
  | idle
  /-- At the load of the head that polls. -/
  | polling
  /-- About to set the flag. -/
  | marking
  /-- At the last look. -/
  | looking
  /-- The look found bytes; about to clear the flag. -/
  | unmarking
  /-- The writer had cleared the flag: in `wait_bell` for its byte. -/
  | belling
  /-- Asleep, in `wait_bell`. -/
  | waiting
  /-- The bell has failed. -/
  | failing
  /-- Out of the loop. -/
  | taking
  | copying
  deriving DecidableEq

/-- The reader's thread, with the variables of its read. -/
structure RingReader (Byte : Type) where
  at_ : ReadAt
  /-- The length of its buffer. -/
  room : ℕ
  tail : ℕ
  head : ℕ
  n : ℕ
  /-- The cells still to copy out. -/
  cells : List ℕ
  got : List Byte

/-- `n` bytes are to be copied out. -/
def RingReader.take {Byte : Type} (r : RingReader Byte) (n : ℕ) : RingReader Byte :=
  { r with at_ := .copying, n, cells := copyOut r.tail n, got := [] }

/-- Past the loop a read copies what it may take, or fails. -/
def RingReader.leave {Byte : Type} (r : RingReader Byte) : RingReader Byte :=
  (held r.head r.tail).elim { r with at_ := .idle } fun h => r.take (min h r.room)

/-- Where a write is. -/
inductive WriteAt
  | idle
  /-- At the load of the tail. -/
  | looking
  /-- There was no room. -/
  | full
  | copying
  /-- Published; at the load of the flag. -/
  | checking
  /-- The flag was set; about to clear it. -/
  | swapping
  /-- It cleared the flag; about to ring. -/
  | ringing
  deriving DecidableEq

/-- The writer's thread, with the variables of its write. -/
structure RingWriter (Byte : Type) where
  at_ : WriteAt
  parts : List (List Byte)
  head : ℕ
  n : ℕ
  /-- The bytes still to copy in, and where. -/
  stores : List (ℕ × Byte)
  /-- The bytes copied in. -/
  copied : List Byte

/-- `n` bytes are to be copied in. -/
def RingWriter.accept {Byte : Type} (w : RingWriter Byte) (n : ℕ) : RingWriter Byte :=
  { w with at_ := .copying, n, stores := copyParts w.head n 0 w.parts, copied := [] }

/-- A write has loaded the tail: it copies as much as there is room for, or fails. -/
def RingWriter.look {Byte : Type} (w : RingWriter Byte) (tail : ℕ) : RingWriter Byte :=
  (held w.head tail).elim { w with at_ := .idle } fun h =>
    if 0 < ring - h then w.accept (min (ring - h) w.parts.flatten.length)
    else { w with at_ := .full }

end Ring

/-- A ring, the threads at its ends, and what has gone through it. -/
structure Ring (Byte : Type) where
  region : Ring.Region Byte
  /-- Bytes on the bell. -/
  bell : ℕ
  reader : Ring.RingReader Byte
  writer : Ring.RingWriter Byte
  /-- The bytes published. -/
  written : List Byte
  /-- The bytes read. -/
  taken : List Byte
  /-- Whether the bell could not be rung. -/
  broken : Bool

namespace Ring

/-- What can happen. -/
inductive Act (Byte : Type)
  /-- A read begins. -/
  | read (room : ℕ)
  /-- The reader's next access. -/
  | reader
  /-- It has polled for long enough. -/
  | sleep
  /-- The bell ends under it, or the time it may wait is up. -/
  | bellFails
  /-- A write begins. -/
  | write (parts : List (List Byte))
  /-- The writer's next access. -/
  | writer
  /-- The peer is gone, or has taken nothing in for too long. -/
  | giveUp
  /-- The bell ends under the writer. -/
  | ringFails
  /-- A peer that keeps to nothing stores what it likes. -/
  | tamper (region : Region Byte)

variable {Byte : Type}

/-- A ring with nothing in it, its counters anywhere. -/
def start (at_ : ℕ) (data : ℕ → Byte) : Ring Byte where
  region := ⟨at_ % 2 ^ 64, at_ % 2 ^ 64, 0, data⟩
  bell := 0
  reader := ⟨.idle, 0, 0, 0, 0, [], []⟩
  writer := ⟨.idle, [], 0, 0, [], []⟩
  written := []
  taken := []
  broken := false

/-- The reader's next access. -/
def stepReader (s : Ring Byte) : Option (Ring Byte) :=
  let r := s.reader
  match r.at_ with
  | .idle => none
  | .polling =>
    if s.region.head ≠ r.tail then
      some { s with reader := { r with at_ := .taking, head := s.region.head } }
    else some s
  | .marking =>
    some { s with region := { s.region with sleeping := 1 }, reader := { r with at_ := .looking } }
  | .looking =>
    if s.region.head ≠ r.tail then
      some { s with reader := { r with at_ := .unmarking, head := s.region.head } }
    else some { s with reader := { r with at_ := .waiting } }
  | .unmarking =>
    let at_ := if s.region.sleeping = 0 then .belling else .taking
    some { s with region := { s.region with sleeping := 0 }, reader := { r with at_ } }
  | .belling =>
    if s.bell = 0 then none
    else some { s with bell := s.bell - 1, reader := { r with at_ := .taking } }
  | .waiting =>
    if s.bell = 0 then none
    else some { s with bell := s.bell - 1, reader := { r with at_ := .polling } }
  | .failing =>
    if s.region.head = r.tail then some { s with reader := { r with at_ := .idle } }
    else some { s with reader := { r with at_ := .taking, head := s.region.head } }
  | .taking => some { s with reader := r.leave }
  | .copying =>
    match r.cells with
    | cell :: cells =>
      some { s with reader := { r with cells, got := r.got ++ [s.region.data cell] } }
    | [] =>
      some { s with
        region := { s.region with tail := wrappingAdd r.tail r.n }
        reader := { r with at_ := .idle }
        taken := s.taken ++ r.got }

/-- The writer's next access. -/
def stepWriter (s : Ring Byte) : Option (Ring Byte) :=
  let w := s.writer
  match w.at_ with
  | .idle => none
  | .looking => some { s with writer := w.look s.region.tail }
  | .full => some { s with writer := { w with at_ := .looking } }
  | .copying =>
    match w.stores with
    | (cell, b) :: stores =>
      some { s with
        region := { s.region with data := Function.update s.region.data cell b }
        writer := { w with stores, copied := w.copied ++ [b] } }
    | [] =>
      some { s with
        region := { s.region with head := wrappingAdd w.head w.n }
        writer := { w with at_ := .checking, copied := [] }
        written := s.written ++ w.copied }
  | .checking =>
    let at_ := if s.region.sleeping = 1 then .swapping else .idle
    some { s with writer := { w with at_ } }
  | .swapping =>
    let at_ := if s.region.sleeping = 1 then .ringing else .idle
    some { s with region := { s.region with sleeping := 0 }, writer := { w with at_ } }
  | .ringing => some { s with bell := s.bell + 1, writer := { w with at_ := .idle } }

def step (s : Ring Byte) : Act Byte → Option (Ring Byte)
  | .read room =>
    if s.reader.at_ = .idle then
      if room = 0 then some s
      else
        some { s with
          reader := { s.reader with at_ := .polling, room, tail := s.region.tail, cells := [], got := [] } }
    else none
  | .reader => s.stepReader
  | .sleep =>
    if s.reader.at_ = .polling ∧ s.region.head = s.reader.tail then
      some { s with reader := { s.reader with at_ := .marking } }
    else none
  | .bellFails =>
    match s.reader.at_ with
    | .belling => some { s with reader := { s.reader with at_ := .taking } }
    | .waiting => some { s with reader := { s.reader with at_ := .failing } }
    | _ => none
  | .write parts =>
    if s.writer.at_ = .idle then
      if parts.flatten.length = 0 then some s
      else some { s with writer := ⟨.looking, parts, s.region.head, 0, [], []⟩ }
    else none
  | .writer => s.stepWriter
  | .giveUp =>
    if s.writer.at_ = .full then some { s with writer := { s.writer with at_ := .idle } } else none
  | .ringFails =>
    if s.writer.at_ = .ringing then
      some { s with writer := { s.writer with at_ := .idle }, broken := true }
    else none
  | .tamper region =>
    some { s with
      region := { region with
        head := region.head % 2 ^ 64
        tail := region.tail % 2 ^ 64
        sleeping := region.sleeping % 2 ^ 64 } }

/-- An action of a peer that keeps to the ring. -/
def Act.keeps : Act Byte → Bool
  | .tamper _ => false
  | _ => true

theorem copyOut_eq {tail n : ℕ} (hn : n ≤ ring) : copyOut tail n = Circular.cells ring tail 0 n := by
  have hlt : tail % ring < ring := Nat.mod_lt _ (by decide)
  simp only [copyOut]
  by_cases hfits : n ≤ ring - tail % ring
  · rw [min_eq_left hfits, Circular.cells_of_le (by omega), Nat.sub_self]
    simp
  · have hmin : min n (ring - tail % ring) = ring - tail % ring := by omega
    obtain ⟨rest, hrest⟩ : ∃ rest, n = ring - tail % ring + rest :=
      ⟨n - (ring - tail % ring), by omega⟩
    rw [hmin, hrest, Circular.cells_add, Circular.cells_of_le (by omega),
      Circular.cells_wrapped (by omega) (by omega)]
    simp

theorem copyIn_eq {head : ℕ} {bytes : List Byte} (hn : bytes.length ≤ ring) :
    copyIn head bytes = (Circular.cells ring head 0 bytes.length).zip bytes := by
  rw [← copyOut_eq hn]
  simp only [copyIn, copyOut]
  rw [← List.zip_append (by simp), List.take_append_drop]

/-- The loop copies the first bytes of the parts in, one after the other. -/
theorem copyParts_eq {head n done : ℕ} (hdone : done ≤ n) (hn : n ≤ ring)
    {parts : List (List Byte)} :
    copyParts head n done parts =
      (Circular.cells ring head done (n - done)).zip (parts.flatten.take (n - done)) := by
  induction parts generalizing done with
  | nil => simp [copyParts]
  | cons part parts ih =>
    by_cases hall : done = n
    · simp [copyParts, hall]
    · have htake : (part.take (min part.length (n - done))).length = min part.length (n - done) := by
        simp
      have hcells : Circular.cells ring (wrappingAdd head done) 0 (min part.length (n - done)) =
          Circular.cells ring head done (min part.length (n - done)) := by
        have hpos : wrappingAdd head done % ring = (head + done) % ring := by
          simp only [wrappingAdd, ring_eq]
          omega
        rw [Circular.cells_congr hpos]
        simp only [Circular.cells, List.range'_eq_map_range, List.map_map]
        apply List.map_congr_left
        intro j _
        simp only [Function.comp, Nat.add_assoc, Nat.zero_add]
      obtain ⟨rest, hrest⟩ : ∃ rest, n - done = min part.length (n - done) + rest :=
        ⟨n - done - min part.length (n - done), by omega⟩
      have hleft : n - (done + min part.length (n - done)) = rest := by omega
      rw [copyParts, if_neg hall]
      simp only
      rw [copyIn_eq (by omega), htake, hcells, ih (by omega), hleft, List.flatten_cons]
      conv_rhs => rw [hrest, Circular.cells_add]
      have hflat : (part ++ parts.flatten).take (min part.length (n - done) + rest) =
          part.take (min part.length (n - done)) ++ parts.flatten.take rest := by
        rw [List.take_append]
        by_cases hpart : part.length ≤ n - done
        · rw [min_eq_left hpart, List.take_of_length_le (by omega), List.take_of_length_le le_rfl]
          congr 2
          omega
        · have hzero : rest = 0 := by omega
          rw [hzero, min_eq_right (by omega)]
          congr 2
          omega
      conv_rhs => rw [hflat]
      rw [List.zip_append (by simp)]

end Ring

end Guatiao.Remote
