import Guatiao.Wire.Encoded
import Guatiao.Wire.Encoder

/-!
# Encoding what walks

Anything that walks is encoded with no tree built for it: it walks into the streaming encoder. For a
tree no deeper than a walk follows the bytes are the tree encoder's, and bytes that walk as such a
tree are written again as they are.
-/

namespace Guatiao.Wire

open Lib Visit

/-- The encoder as a sink: an event it refuses leaves it as it was. -/
def Encoder.sink (e : Encoder) (event : Event) : Walked Encoder ValueError :=
  match e.on event with
  | .ok e' => (none, e')
  | .error why => (some why, e)

/-- Appends the wire bytes of anything that walks; here it is a tree. -/
def encodeOf (seeds : Seeded) (v : Value) (out : List UInt8) : Except ValueError (List UInt8) :=
  match (flat Encoder.sink id).walk 0 v (.new seeds out) with
  | (some why, _) => .error why
  | (none, e) => if e.isComplete then .ok e.out else .error .wrongKind

theorem feed_sink {e e' : Encoder} {events : List Event} (h : e.feed events = .ok e') :
    feed Encoder.sink events e = (none, e') := by
  induction events generalizing e with
  | nil =>
    cases h
    rfl
  | cons event rest ih =>
    simp only [Encoder.feed, Bind.bind, Except.bind] at h
    cases hon : e.on event with
    | error why => simp [hon] at h
    | ok mid =>
      simp only [hon] at h
      simp only [feed, Encoder.sink, hon, Walked.andThen]
      exact ih h

variable {v : Value}

theorem encoder_walked (seeds : Seeded) (out : List UInt8) (hdistinct : v.Distinct)
    (hdepth : v.depth ≤ maxDepth) :
    ∃ e, (flat Encoder.sink id).walk 0 v (.new seeds out) = (none, e) ∧ e.isComplete = true ∧
      e.out = out ++ wire v := by
  have hspells := spells_events hdistinct
  have hnew : Encoder.Encodes out (.new seeds out) .new := ⟨rfl, .top false⟩
  have halike := Encoder.feed_alike hnew (events v)
  rw [Draft.run_eq_done.mpr hspells] at halike
  rw [flat_walk _ _ (by omega)]
  cases hfeed : (Encoder.new seeds out).feed (events v) with
  | error why =>
    rw [hfeed] at halike
    exact halike.elim
  | ok e =>
    obtain ⟨hcomplete, hout⟩ := Encoder.complete_iff hfeed
    exact ⟨e, feed_sink hfeed, hcomplete.mpr ⟨v, hspells⟩, hout v hspells⟩

theorem encodeOf_eq (seeds : Seeded) {v : Value} (out : List UInt8) (hdistinct : v.Distinct)
    (hdepth : v.depth ≤ maxDepth) : encodeOf seeds v out = .ok (encode v out) := by
  obtain ⟨e, hwalk, hcomplete, hout⟩ := encoder_walked seeds out hdistinct hdepth
  simp only [encodeOf, hwalk, hcomplete, if_true, hout, encode_eq]

/-- Appends the wire bytes of what some bytes walk as. -/
def encodeEncoded (draw : ℕ → Seeded) (walking seeds : Seeded) (bytes out : List UInt8) :
    Except ValueError (List UInt8) :=
  match Encoded.walk (flat Encoder.sink id) draw walking bytes (.new seeds out) with
  | (some why, _) => .error why
  | (none, e) => if e.isComplete then .ok e.out else .error .wrongKind

/-- The bytes of a well formed value no deeper than a walk follows are written again as they are,
whatever the seeds of the two sides and of every decoder drawn on the way. -/
theorem encoded_again (draw : ℕ → Seeded) (walking seeds : Seeded) (out : List UInt8)
    (hwell : v.WellFormed) (hdepth : v.depth ≤ maxDepth) :
    encodeEncoded draw walking seeds (toBytes v) out = .ok (out ++ toBytes v) := by
  obtain ⟨e, hvalue, hcomplete, hout⟩ := encoder_walked seeds out hwell.distinct hdepth
  have htakes : (Reader.start (wire v) 0).Takes (wire v) ⟨[], (wire v).length, 0⟩ := by
    simp [Reader.Takes, Reader.start]
  obtain ⟨«end», hnode, hend⟩ := Encoded.node_whole (flat Encoder.sink id) draw
    (Nat.le_refl maxDepth) hwell htakes (.new seeds out) ⟨[], [], walking⟩ none
    (Encoded.new_sound walking)
  rw [Nat.sub_self, hvalue] at hnode
  have hafter := Encoded.after_whole draw hwell htakes hend
  rw [toBytes_eq]
  simp only [encodeEncoded, Encoded.walk, hnode, hafter, ne_eq, not_true_eq_false, if_false, hcomplete,
    if_true, hout]

/-- A list of one value, behind a byte that is there. -/
theorem encoded_again_list :
    encodeEncoded (fun _ => ⟨0, 0⟩) ⟨1, 2⟩ ⟨3, 4⟩ (toBytes (.list [.null])) [9] =
      .ok ([9] ++ toBytes (.list [.null])) :=
  encoded_again _ _ _ _ (by simp [Value.WellFormed, Value.Everywhere, Value.EverywhereItems, Value.NodeOk])
    (by decide)

end Guatiao.Wire
