import Guatiao.Lib.SortedMap
import Guatiao.Schema.Read
import Guatiao.Wire.RoundTrip
import Mathlib.Data.List.Induction

/-!
# Channels

A channel's schema is announced before its values, so that a receiver knows what each value means
and refuses what does not fit it. The frames a receiver takes are those a sender makes; what it
keeps of them is, for each channel, the schema announced last since the channel was closed.
-/

namespace Guatiao.Wire

open Lib Schema

/-- A frame that announces a channel's schema. -/
def SCHEMA : UInt8 := 0

/-- A frame that carries one value. -/
def VALUE : UInt8 := 1

/-- A frame that ends a channel. -/
def CLOSE : UInt8 := 2

def frame (kind : UInt8) (channel : ℕ) : Option Value → List UInt8
  | some value => encode value (kind :: putLen channel)
  | none => kind :: putLen channel

/-- The frame that announces a schema on a channel. A later announcement replaces it. -/
def announce (channel : ℕ) (schema : Value) : List UInt8 := frame SCHEMA channel (some schema)

/-- The frame that carries a value on a channel. -/
def send (channel : ℕ) (value : Value) : List UInt8 := frame VALUE channel (some value)

/-- The frame that ends a channel: its schema is forgotten. -/
def close (channel : ℕ) : List UInt8 := frame CLOSE channel none

/-- What a frame said. -/
inductive Received
  /-- A schema, now the channel's. -/
  | schema (channel : ℕ)
  /-- A value its channel's schema accepts. -/
  | value (channel : ℕ) (v : Value)
  /-- The channel ended. -/
  | closed (channel : ℕ)

/-- Why a frame is refused; `E` is what a schema has against a value. -/
inductive ChannelError (E : Type)
  | wire (e : WireError)
  /-- An announcement of something that is no schema. -/
  | notASchema (channel : ℕ)
  /-- A value on a channel that has no schema. -/
  | noSchema (channel : ℕ)
  /-- A value its channel's schema refuses. -/
  | invalid (channel : ℕ) (error : E)
  | unknownFrame (offset : ℕ) (kind : UInt8)

/-- Keeps each channel's schema, and checks every value against it. -/
structure Receiver where
  schemas : SortedMap ℕ SchemaRef

def Receiver.new : Receiver := ⟨.empty⟩

/-- The schema announced on a channel, if any. -/
def Receiver.schema (s : Receiver) (channel : ℕ) : Option SchemaRef := s.schemas.get channel

/-- The channel number after the kind byte, and the payload. -/
def channelOf (frame : List UInt8) : Except WireError (ℕ × Reader) :=
  Reader.leb ⟨frame.drop 1, 1, 0⟩

section Receiver

variable {E : Type} (validate : SchemaRef → Value → Except E Unit) (seeds : Seeded)

/-- Reads one frame. A value arrives only once its channel's schema has, and only if that schema
accepts it. -/
def accept (frame : List UInt8) (s : Receiver) : Except (ChannelError E) Received × Receiver :=
  match frame, channelOf frame with
  | [], _ => (.error (.wire (.truncated 0)), s)
  | _ :: _, .error e => (.error (.wire e), s)
  | kind :: _, .ok (channel, payload) =>
    if kind = SCHEMA then
      match decodeSeeded seeds payload.rest payload.pos with
      | .error e => (.error (.wire e), s)
      | .ok value =>
        match SchemaRef.new value with
        | none => (.error (.notASchema channel), s)
        | some schema => (.ok (.schema channel), ⟨s.schemas.insert channel schema⟩)
    else if kind = VALUE then
      match s.schema channel with
      | none => (.error (.noSchema channel), s)
      | some schema =>
        match decodeSeeded seeds payload.rest payload.pos with
        | .error e => (.error (.wire e), s)
        | .ok value =>
          match validate schema value with
          | .error e => (.error (.invalid channel e), s)
          | .ok () => (.ok (.value channel value), s)
    else if kind = CLOSE then
      if payload.rest ≠ [] then (.error (.wire (.trailing payload.pos)), s)
      else (.ok (.closed channel), ⟨s.schemas.remove channel⟩)
    else (.error (.unknownFrame 0 kind), s)

/-- The receiver after some frames. -/
def received (frames : List (List UInt8)) (s : Receiver) : Receiver :=
  frames.foldl (fun s frame => (accept validate seeds frame s).2) s

end Receiver

/-- A value as a frame carries it, on a channel whose number it can say. -/
def Says (channel : ℕ) (v : Value) : Prop := channel < 2 ^ 64 ∧ v.WellFormed

theorem channelOf_eq_ok {kind : UInt8} {rest : List UInt8} {channel : ℕ} {payload : Reader} :
    channelOf (kind :: rest) = .ok (channel, payload) ↔
      channel < 2 ^ 64 ∧ rest = putLen channel ++ payload.rest ∧
        payload.pos = 1 + (putLen channel).length ∧ payload.base = 0 := by
  rw [channelOf, Reader.leb_eq_ok]
  simp only [Reader.Takes, List.drop_succ_cons, List.drop_zero]

theorem frame_some (kind : UInt8) (channel : ℕ) (v : Value) :
    frame kind channel (some v) = kind :: (putLen channel ++ wire v) := by
  rw [frame, encode_eq, List.cons_append]

section Runs

variable {E : Type} {validate : SchemaRef → Value → Except E Unit} {seeds : Seeded}

variable {v : Value} {schema : SchemaRef} {channel channel' c : ℕ} {s : Receiver} {f : List UInt8}

theorem decoded_iff {payload : Reader} :
    decodeSeeded seeds payload.rest payload.pos = .ok v ↔ v.WellFormed ∧ payload.rest = wire v := by
  rw [decodeSeeded_eq_ok, toBytes_eq, eq_comm (a := wire v)]

theorem schemaRef_new (h : SchemaRef.new v = some schema) :
    v = schema.value := by
  unfold SchemaRef.new at h
  split at h
  · cases h
    rfl
  · cases h

/-- What a frame does: it announces a schema, carries a value that its channel's schema accepts, ends
a channel, or is refused and changes nothing. -/
theorem accept_cases (validate : SchemaRef → Value → Except E Unit) (seeds : Seeded)
    (frame : List UInt8) (s : Receiver) :
    (∃ channel schema, Says channel schema.value ∧ frame = announce channel schema.value ∧
      accept validate seeds frame s = (.ok (.schema channel), ⟨s.schemas.insert channel schema⟩)) ∨
    (∃ channel v schema, Says channel v ∧ frame = send channel v ∧
      s.schema channel = some schema ∧ validate schema v = .ok () ∧
      accept validate seeds frame s = (.ok (.value channel v), s)) ∨
    (∃ channel, channel < 2 ^ 64 ∧ frame = close channel ∧
      accept validate seeds frame s = (.ok (.closed channel), ⟨s.schemas.remove channel⟩)) ∨
    ∃ e, accept validate seeds frame s = (.error e, s) := by
  cases frame with
  | nil => exact .inr (.inr (.inr ⟨_, rfl⟩))
  | cons kind rest =>
    cases hchannel : channelOf (kind :: rest) with
    | error e => exact .inr (.inr (.inr ⟨.wire e, by simp only [accept, hchannel]⟩))
    | ok p =>
      obtain ⟨channel, payload⟩ := p
      obtain ⟨hlt, hrest, -, -⟩ := channelOf_eq_ok.mp hchannel
      simp only [accept, hchannel]
      split
      · next hkind =>
        split
        · exact .inr (.inr (.inr ⟨_, rfl⟩))
        · next v hdecode =>
          obtain ⟨hwell, hpayload⟩ := decoded_iff.mp hdecode
          split
          · exact .inr (.inr (.inr ⟨_, rfl⟩))
          · next schema hschema =>
            cases schemaRef_new hschema
            refine .inl ⟨channel, schema, ⟨hlt, hwell⟩, ?_, rfl⟩
            rw [announce, frame_some, hkind, hrest, hpayload]
      · split
        · next hkind =>
          split
          · exact .inr (.inr (.inr ⟨_, rfl⟩))
          · next schema hschema =>
            split
            · exact .inr (.inr (.inr ⟨_, rfl⟩))
            · next v hdecode =>
              obtain ⟨hwell, hpayload⟩ := decoded_iff.mp hdecode
              split
              · exact .inr (.inr (.inr ⟨_, rfl⟩))
              · next hvalid =>
                refine .inr (.inl ⟨channel, v, schema, ⟨hlt, hwell⟩, ?_, hschema, hvalid, rfl⟩)
                rw [send, frame_some, hkind, hrest, hpayload]
        · split
          · next hkind =>
            split
            · exact .inr (.inr (.inr ⟨_, rfl⟩))
            · next hdone =>
              refine .inr (.inr (.inl ⟨channel, hlt, ?_, rfl⟩))
              rw [close, frame, hkind, hrest, not_not.mp hdone, List.append_nil]
          · exact .inr (.inr (.inr ⟨_, rfl⟩))

theorem schemaRef_new_value (schema : SchemaRef) : SchemaRef.new schema.value = some schema := by
  obtain ⟨v, hmap⟩ := schema
  exact dif_pos hmap

theorem channelOf_frame (kind : UInt8) (h : channel < 2 ^ 64) (payload : List UInt8) :
    channelOf (kind :: (putLen channel ++ payload)) =
      .ok (channel, ⟨payload, 1 + (putLen channel).length, 0⟩) :=
  channelOf_eq_ok.mpr ⟨h, rfl, rfl, rfl⟩

theorem accept_announce (h : Says channel schema.value) (s : Receiver) :
    accept validate seeds (announce channel schema.value) s =
      (.ok (.schema channel), ⟨s.schemas.insert channel schema⟩) := by
  have hdecode : ∀ base, decodeSeeded seeds (wire schema.value) base = .ok schema.value :=
    fun base => decodeSeeded_eq_ok.mpr ⟨h.2, toBytes_eq _⟩
  rw [announce, frame_some]
  simp only [accept, channelOf_frame _ h.1, if_true, hdecode, schemaRef_new_value]

theorem accept_close (h : channel < 2 ^ 64) (s : Receiver) :
    accept validate seeds (close channel) s =
      (.ok (.closed channel), ⟨s.schemas.remove channel⟩) := by
  have hchannel : channelOf (CLOSE :: putLen channel) =
      .ok (channel, ⟨[], 1 + (putLen channel).length, 0⟩) := by
    rw [← List.append_nil (putLen channel), channelOf_frame _ h, List.append_nil]
  rw [close, frame]
  simp only [accept, hchannel]
  rfl

theorem accept_send (h : Says channel v) (hschema : s.schema channel = some schema)
    (hvalid : validate schema v = .ok ()) :
    accept validate seeds (send channel v) s = (.ok (.value channel v), s) := by
  have hdecode : ∀ base, decodeSeeded seeds (wire v) base = .ok v :=
    fun base => decodeSeeded_eq_ok.mpr ⟨h.2, toBytes_eq _⟩
  have hkind : ¬VALUE = SCHEMA := by decide
  rw [send, frame_some]
  simp only [accept, channelOf_frame _ h.1, if_neg hkind, if_true, hschema, hdecode, hvalid]

/-- A frame that announces a schema on a channel or ends the channel. -/
def Changes (channel : ℕ) (frame : List UInt8) : Prop :=
  frame = close channel ∨
    ∃ schema : SchemaRef, schema.value.WellFormed ∧ frame = announce channel schema.value

/-- A schema was announced on a channel, and since then there was no other and the channel was not
closed. -/
def InForce (frames : List (List UInt8)) (channel : ℕ) (schema : SchemaRef) : Prop :=
  Says channel schema.value ∧ ∃ before after,
    frames = before ++ announce channel schema.value :: after ∧ ∀ f ∈ after, ¬Changes channel f

/-- What was in force stays so behind a frame that changes nothing, and an announcement is in
force. -/
theorem inForce_append {frames : List (List UInt8)}
    :
    InForce (frames ++ [f]) channel schema ↔
      Says channel schema.value ∧ f = announce channel schema.value ∨
        ¬Changes channel f ∧ InForce frames channel schema := by
  constructor
  · rintro ⟨hsaid, before, after, heq, hafter⟩
    rcases List.eq_nil_or_concat after with rfl | ⟨after, g, rfl⟩
    · obtain ⟨-, hf⟩ := List.append_inj' heq rfl
      exact .inl ⟨hsaid, List.singleton_inj.mp hf⟩
    · rw [List.concat_eq_append, ← List.cons_append, ← List.append_assoc] at heq
      obtain ⟨hframes, hf⟩ := List.append_inj' heq rfl
      cases List.singleton_inj.mp hf
      refine .inr ⟨hafter f (by simp), hsaid, before, after, hframes, fun g hg => ?_⟩
      exact hafter g (by simp [hg])
  · rintro (⟨hsaid, rfl⟩ | ⟨hstays, hsaid, before, after, rfl, hafter⟩)
    · exact ⟨hsaid, frames, [], rfl, by simp⟩
    · refine ⟨hsaid, before, after ++ [f], by simp, fun g hg => ?_⟩
      rcases List.mem_append.mp hg with hg | hg
      · exact hafter g hg
      · cases List.mem_singleton.mp hg
        exact hstays

theorem frame_inj {kind kind' : UInt8} {payload payload' : List UInt8}
    (h : channel < 2 ^ 64) (h' : channel' < 2 ^ 64)
    (heq : kind :: (putLen channel ++ payload) = kind' :: (putLen channel' ++ payload')) :
    kind = kind' ∧ channel = channel' ∧ payload = payload' := by
  obtain ⟨rfl, hrest⟩ := List.cons.inj heq
  have hread := channelOf_frame kind h payload
  rw [heq, channelOf_frame kind h' payload'] at hread
  simp only [Except.ok.injEq, Prod.mk.injEq, Reader.mk.injEq] at hread
  exact ⟨rfl, hread.1.symm, hread.2.1.symm⟩

theorem announce_inj {v' : Value} (h : Says channel v)
    (h' : Says channel' v') (heq : announce channel v = announce channel' v') :
    channel = channel' ∧ v = v' := by
  rw [announce, announce, frame_some, frame_some] at heq
  obtain ⟨-, hchannel, hwire⟩ := frame_inj h.1 h'.1 heq
  have hdecode : decode ⟨0, 0⟩ (wire v) = .ok v := decode_eq_ok.mpr ⟨h.2, toBytes_eq v⟩
  have hdecode' : decode ⟨0, 0⟩ (wire v') = .ok v' := decode_eq_ok.mpr ⟨h'.2, toBytes_eq v'⟩
  rw [hwire, hdecode'] at hdecode
  cases hdecode
  exact ⟨hchannel, rfl⟩

theorem close_inj (h : channel < 2 ^ 64) (h' : channel' < 2 ^ 64)
    (heq : close channel = close channel') : channel = channel' := by
  rw [close, close, frame, frame, ← List.append_nil (putLen channel),
    ← List.append_nil (putLen channel')] at heq
  exact (frame_inj h h' heq).2.1

theorem frame_ne {kind kind' : UInt8} (hne : kind ≠ kind') (channel channel' : ℕ)
    (v v' : Option Value) : frame kind channel v ≠ frame kind' channel' v' := by
  have hhead : ∀ kind channel v, (frame kind channel v).head? = some kind := by
    intro kind channel v
    cases v with
    | none => rfl
    | some v => rw [frame_some, List.head?_cons]
  intro heq
  have h := congrArg List.head? heq
  rw [hhead, hhead] at h
  exact hne (Option.some.inj h)

theorem changes_announce (h : Says channel schema.value)
    (hc : c < 2 ^ 64) : Changes c (announce channel schema.value) ↔ c = channel := by
  constructor
  · rintro (heq | ⟨schema', hwell, heq⟩)
    · exact absurd heq (frame_ne (by decide : SCHEMA ≠ CLOSE) _ _ _ _)
    · exact (announce_inj ⟨hc, hwell⟩ h heq.symm).1
  · rintro rfl
    exact .inr ⟨schema, h.2, rfl⟩

theorem changes_close (h : channel < 2 ^ 64) (hc : c < 2 ^ 64) :
    Changes c (close channel) ↔ c = channel := by
  constructor
  · rintro (heq | ⟨schema, -, heq⟩)
    · exact close_inj hc h heq.symm
    · exact absurd heq (frame_ne (by decide : CLOSE ≠ SCHEMA) _ _ _ _)
  · rintro rfl
    exact .inl rfl

theorem not_changes_send (c channel : ℕ) (v : Value) : ¬Changes c (send channel v) := by
  rintro (heq | ⟨schema, -, heq⟩)
  · exact absurd heq (frame_ne (by decide : VALUE ≠ CLOSE) _ _ _ _)
  · exact absurd heq (frame_ne (by decide : VALUE ≠ SCHEMA) _ _ _ _)

theorem not_changes_of_error {e : ChannelError E}
    (hc : c < 2 ^ 64) (h : (accept validate seeds f s).1 = .error e) : ¬Changes c f := by
  rintro (rfl | ⟨schema, hwell, rfl⟩)
  · rw [accept_close hc] at h
    cases h
  · rw [accept_announce ⟨hc, hwell⟩] at h
    cases h

/-- The schema a channel has after a frame: the one the frame announces, or the one it had. -/
theorem schema_accept (hc : c < 2 ^ 64) : (accept validate seeds f s).2.schema c = some schema ↔
      Says c schema.value ∧ f = announce c schema.value ∨
        ¬Changes c f ∧ s.schema c = some schema := by
  have hnot : ¬Changes c f → ¬(Says c schema.value ∧ f = announce c schema.value) := by
    rintro hstays ⟨hsaid, rfl⟩
    exact hstays (.inr ⟨schema, hsaid.2, rfl⟩)
  rcases accept_cases validate seeds f s with
    ⟨channel, announced, hsaid, rfl, haccept⟩ | ⟨channel, v, _, hsaid, rfl, -, -, haccept⟩ |
    ⟨channel, hlt, rfl, haccept⟩ | ⟨e, haccept⟩
  · rw [haccept, changes_announce hsaid hc, Receiver.schema, SortedMap.get_insert]
    by_cases hcc : c = channel
    · subst hcc
      simp only [if_true, Option.some.injEq, not_true_eq_false, false_and, or_false]
      constructor
      · rintro rfl
        exact ⟨hsaid, rfl⟩
      · rintro ⟨hsaid', heq⟩
        obtain ⟨v, hv⟩ := announced
        obtain ⟨v', hv'⟩ := schema
        cases (announce_inj hsaid hsaid' heq).2
        rfl
    · have hstays : ¬Changes c (announce channel announced.value) := by
        rwa [changes_announce hsaid hc]
      simp only [hnot hstays, false_or, hcc, if_false, not_false_eq_true, true_and]
      exact Iff.rfl
  · have hstays := not_changes_send c channel v
    simp only [haccept, hnot hstays, hstays, false_or, not_false_eq_true, true_and]
  · rw [haccept, Receiver.schema, SortedMap.get_remove]
    by_cases hcc : c = channel
    · subst hcc
      have hchanges : Changes c (close c) := .inl rfl
      have hannounced : ¬(Says c schema.value ∧ close c = announce c schema.value) := by
        rintro ⟨-, heq⟩
        exact absurd heq (frame_ne (by decide : CLOSE ≠ SCHEMA) _ _ _ _)
      simp only [if_true, reduceCtorEq, hannounced, hchanges, not_true_eq_false, false_and, or_false]
    · have hstays : ¬Changes c (close channel) := by
        rwa [changes_close hlt hc]
      simp only [if_neg hcc, hnot hstays, hstays, false_or, not_false_eq_true, true_and]
      exact Iff.rfl
  · have hstays : ¬Changes c f := not_changes_of_error hc (congrArg Prod.fst haccept)
    simp only [haccept, hnot hstays, hstays, false_or, not_false_eq_true, true_and]

theorem schema_received {frames : List (List UInt8)} (hc : c < 2 ^ 64) :
    (received validate seeds frames .new).schema c = some schema ↔ InForce frames c schema := by
  induction frames using List.reverseRecOn with
  | nil =>
    constructor
    · intro h
      cases h
    · rintro ⟨-, before, after, heq, -⟩
      simp at heq
  | append_singleton frames f ih =>
    rw [received, List.foldl_concat, schema_accept hc, inForce_append]
    exact or_congr Iff.rfl (and_congr Iff.rfl ih)

/-- Whether a frame is on a channel. -/
def onChannel (channel : ℕ) (frame : List UInt8) : Bool :=
  match channelOf frame with
  | .ok (c, _) => c == channel
  | .error _ => false

/-- What a frame on a channel is answered, and what it leaves there, is by what was there. -/
theorem accept_agree (h : onChannel c f = true) {s' : Receiver} (hagree : s.schema c = s'.schema c) :
    (accept validate seeds f s).1 = (accept validate seeds f s').1 ∧
      (accept validate seeds f s).2.schema c = (accept validate seeds f s').2.schema c := by
  unfold onChannel at h
  cases f with
  | nil => exact ⟨rfl, hagree⟩
  | cons kind rest =>
    cases hchannel : channelOf (kind :: rest) with
    | error e =>
      rw [hchannel] at h
      cases h
    | ok p =>
      obtain ⟨channel, payload⟩ := p
      rw [hchannel] at h
      cases beq_iff_eq.mp h
      simp only [accept, hchannel, hagree]
      split
      · split
        · exact ⟨rfl, hagree⟩
        · split
          · exact ⟨rfl, hagree⟩
          · exact ⟨rfl, by simp only [Receiver.schema, SortedMap.get_insert_self]⟩
      · split
        · split
          · exact ⟨rfl, hagree⟩
          · split
            · exact ⟨rfl, hagree⟩
            · split <;> exact ⟨rfl, hagree⟩
        · split
          · split
            · exact ⟨rfl, hagree⟩
            · exact ⟨rfl, by simp only [Receiver.schema, SortedMap.get_remove_self]⟩
          · exact ⟨rfl, hagree⟩

theorem accept_other (h : onChannel c f = false) (s : Receiver) :
    (accept validate seeds f s).2.schema c = s.schema c := by
  have hother : ∀ {kind channel} {v : Option Value}, channel < 2 ^ 64 →
      f = frame kind channel v → c ≠ channel := by
    rintro kind channel v hlt rfl rfl
    have hchannel : ∃ payload, channelOf (frame kind c v) = .ok (c, payload) := by
      cases v with
      | none =>
        rw [frame, ← List.append_nil (putLen c)]
        exact ⟨_, channelOf_frame _ hlt []⟩
      | some v =>
        rw [frame_some]
        exact ⟨_, channelOf_frame _ hlt (wire v)⟩
    obtain ⟨payload, hchannel⟩ := hchannel
    simp [onChannel, hchannel] at h
  rcases accept_cases validate seeds f s with
    ⟨channel, schema, hsaid, hf, haccept⟩ | ⟨channel, v, schema, -, -, -, -, haccept⟩ |
    ⟨channel, hlt, hf, haccept⟩ | ⟨e, haccept⟩
  · rw [haccept]
    exact SortedMap.get_insert_of_ne (hother hsaid.1 hf) _ _
  · rw [haccept]
  · rw [haccept]
    exact SortedMap.get_remove_of_ne (hother hlt hf) _
  · rw [haccept]

theorem received_onChannel (c : ℕ) (frames : List (List UInt8)) {s' : Receiver}
    (hagree : s.schema c = s'.schema c) :
    (received validate seeds frames s).schema c =
      (received validate seeds (frames.filter (onChannel c)) s').schema c := by
  induction frames generalizing s s' with
  | nil => exact hagree
  | cons f frames ih =>
    cases hon : onChannel c f with
    | true =>
      rw [List.filter_cons_of_pos hon]
      exact ih (accept_agree hon hagree).2
    | false =>
      rw [List.filter_cons_of_neg (by simp [hon])]
      exact ih ((accept_other hon s).trans hagree)

/-- A receiver takes a value only under the schema in force on its channel, keeps every schema when it
refuses a frame, and answers a channel's frames by the frames on that channel alone. -/
theorem accept_sound {E : Type} (validate : SchemaRef → Value → Except E Unit) (seeds : Seeded)
    (frames : List (List UInt8)) (frame : List UInt8) :
    (∀ channel v,
      (accept validate seeds frame (received validate seeds frames .new)).1 = .ok (.value channel v) →
      ∃ schema, InForce frames channel schema ∧ validate schema v = .ok ()) ∧
    (∀ e, (accept validate seeds frame (received validate seeds frames .new)).1 = .error e →
      (accept validate seeds frame (received validate seeds frames .new)).2 =
        received validate seeds frames .new) ∧
    (∀ channel, onChannel channel frame = true →
      (accept validate seeds frame (received validate seeds frames .new)).1 =
        (accept validate seeds frame
          (received validate seeds (frames.filter (onChannel channel)) .new)).1) := by
  refine ⟨?_, ?_, ?_⟩
  · intro channel v h
    rcases accept_cases validate seeds frame
        (received validate seeds frames .new) with
      ⟨c, schema, -, -, haccept⟩ | ⟨c, w, schema, hsaid, -, hschema, hvalid, haccept⟩ |
      ⟨c, -, -, haccept⟩ | ⟨e, haccept⟩
    · rw [haccept] at h
      cases h
    · rw [haccept] at h
      cases h
      exact ⟨schema, (schema_received hsaid.1).mp hschema, hvalid⟩
    · rw [haccept] at h
      cases h
    · rw [haccept] at h
      cases h
  · intro e h
    rcases accept_cases validate seeds frame
        (received validate seeds frames .new) with
      ⟨c, schema, -, -, haccept⟩ | ⟨c, w, schema, -, -, -, -, haccept⟩ |
      ⟨c, -, -, haccept⟩ | ⟨e', haccept⟩
    · rw [haccept] at h
      cases h
    · rw [haccept]
    · rw [haccept] at h
      cases h
    · rw [haccept]
  · intro channel hon
    exact (accept_agree hon (received_onChannel channel frames rfl)).1

/-- A value taken under the second of two schemas, after another channel was closed. -/
theorem accept_sound_again : ∃ schema : SchemaRef,
    InForce [announce 1 (.map []), announce 1 (.map []), close 2] 1 schema ∧
      (if isMap schema.value then .ok () else .error () : Except Unit Unit) = .ok () := by
  have hschema : Says 1 (.map []) := ⟨by decide, by simp [wellFormed_map]⟩
  have hnull : Says 1 .null := ⟨by decide, trivial⟩
  refine (accept_sound (fun schema _ => if isMap schema.value then .ok () else .error ()) ⟨1, 2⟩
    [announce 1 (.map []), announce 1 (.map []), close 2] (send 1 .null)).1 1 .null ?_
  have hannounced : InForce [announce 1 (.map []), announce 1 (.map []), close 2] 1
      ⟨.map [], rfl⟩ := by
    refine ⟨hschema, [announce 1 (.map [])], [close 2], rfl, ?_⟩
    rintro f hf
    cases List.mem_singleton.mp hf
    rw [changes_close (by decide) (by decide)]
    decide
  rw [accept_send hnull ((schema_received (by decide)).mpr hannounced) rfl]

/-- What a sender says. -/
inductive Said
  | announce (channel : ℕ) (schema : SchemaRef)
  | send (channel : ℕ) (v : Value)
  | close (channel : ℕ)

namespace Said

def frame : Said → List UInt8
  | announce channel schema => Wire.announce channel schema.value
  | send channel v => Wire.send channel v
  | close channel => Wire.close channel

/-- A frame can carry it. -/
def Sayable : Said → Prop
  | announce channel schema => Says channel schema.value
  | send channel v => Says channel v
  | close channel => channel < 2 ^ 64

/-- What it is to be answered, given the schema of every channel. -/
def answer (validate : SchemaRef → Value → Except E Unit) (schemas : ℕ → Option SchemaRef) :
    Said → Except (ChannelError E) Received
  | announce channel _ => .ok (.schema channel)
  | send channel v =>
    match schemas channel with
    | none => .error (.noSchema channel)
    | some schema =>
      match validate schema v with
      | .error e => .error (.invalid channel e)
      | .ok () => .ok (.value channel v)
  | close channel => .ok (.closed channel)

/-- The schema of every channel behind it. -/
def after (schemas : ℕ → Option SchemaRef) : Said → ℕ → Option SchemaRef
  | announce channel schema => Function.update schemas channel (some schema)
  | send .. => schemas
  | close channel => Function.update schemas channel none

/-- What is to be answered in turn. -/
def answers (validate : SchemaRef → Value → Except E Unit) :
    (ℕ → Option SchemaRef) → List Said → List (Except (ChannelError E) Received)
  | _, [] => []
  | schemas, said :: rest => said.answer validate schemas :: answers validate (said.after schemas) rest

end Said

/-- What a receiver answers in turn. -/
def answered (validate : SchemaRef → Value → Except E Unit) (seeds : Seeded) :
    Receiver → List (List UInt8) → List (Except (ChannelError E) Received)
  | _, [] => []
  | s, frame :: rest =>
    (accept validate seeds frame s).1 :: answered validate seeds (accept validate seeds frame s).2 rest

/-- A frame is answered as what it says is, and leaves the channels the schemas that leaves. -/
theorem accept_said {said : Said} (h : said.Sayable) (s : Receiver) :
    (accept validate seeds said.frame s).1 = said.answer validate s.schema ∧
      (accept validate seeds said.frame s).2.schema = said.after s.schema := by
  cases said with
  | announce channel schema =>
    rw [Said.frame, accept_announce h]
    refine ⟨rfl, funext fun c => ?_⟩
    rw [Said.after, Function.update_apply, Receiver.schema, SortedMap.get_insert]
    rfl
  | close channel =>
    rw [Said.frame, accept_close h]
    refine ⟨rfl, funext fun c => ?_⟩
    rw [Said.after, Function.update_apply, Receiver.schema, SortedMap.get_remove]
    rfl
  | send channel v =>
    have hdecode : ∀ base, decodeSeeded seeds (wire v) base = .ok v :=
      fun base => decodeSeeded_eq_ok.mpr ⟨h.2, toBytes_eq _⟩
    have hkind : ¬VALUE = SCHEMA := by decide
    rw [Said.frame, Wire.send, frame_some]
    simp only [accept, channelOf_frame _ h.1, if_neg hkind, if_true, hdecode, Said.answer, Said.after]
    cases s.schema channel with
    | none => exact ⟨rfl, rfl⟩
    | some schema =>
      dsimp only
      cases validate schema v with
      | error e => exact ⟨rfl, rfl⟩
      | ok u => exact ⟨rfl, rfl⟩

theorem answered_said {said : List Said} (h : ∀ one ∈ said, one.Sayable) (s : Receiver) :
    answered validate seeds s (said.map Said.frame) = Said.answers validate s.schema said := by
  induction said generalizing s with
  | nil => rfl
  | cons one rest ih =>
    obtain ⟨hanswer, hafter⟩ := accept_said (h one (List.mem_cons_self ..)) s
    rw [List.map_cons, answered, Said.answers, hanswer,
      ih (fun later hlater => h later (List.mem_cons_of_mem _ hlater)), hafter]

/-- Whatever is said on any channels, in any order, a receiver answers by the schema last announced on
each channel since it was closed. -/
theorem channels_cross (validate : SchemaRef → Value → Except E Unit) (seeds : Seeded) (said : List Said)
    (h : ∀ one ∈ said, one.Sayable) :
    answered validate seeds .new (said.map Said.frame) = Said.answers validate (fun _ => none) said :=
  answered_said h .new

/-- A value under its schema, and again once the channel is closed. -/
theorem channels_cross_closed :
    answered (fun _ _ => (.ok () : Except Unit Unit)) ⟨1, 2⟩ .new
        [announce 1 (.map []), send 1 .null, close 1, send 1 .null] =
      [.ok (.schema 1), .ok (.value 1 .null), .ok (.closed 1), .error (.noSchema 1)] := by
  refine channels_cross _ ⟨1, 2⟩
    [.announce 1 ⟨.map [], rfl⟩, .send 1 .null, .close 1, .send 1 .null] fun one hone => ?_
  have hschema : Says 1 (.map []) := ⟨by decide, by simp [wellFormed_map]⟩
  have hnull : Says 1 .null := ⟨by decide, trivial⟩
  simp only [List.mem_cons, List.not_mem_nil, or_false] at hone
  rcases hone with rfl | rfl | rfl | rfl
  · exact hschema
  · exact hnull
  · exact hnull.1
  · exact hnull

end Runs

end Guatiao.Wire
