import Guatiao.Rdma.Claimed

/-!
# A link is a byte stream

Two sides that keep to the ring read what the other wrote, in order, whatever the order of their
steps and their devices'. A side whose peer keeps to nothing refuses what its ring cannot hold, but
for lengths of one poll that come to a whole turn of the positions.
-/

namespace Guatiao.Rdma

open Lib

variable {Byte : Type}

/-- The bytes of a side that have landed in its peer's inbox. -/
def Half.arrived (h : Half Byte) : ℕ := h.wrote.length - dataOf h.posted

/-- The requests of a side that it does not know to have completed. -/
def Half.inFlight (h : Half Byte) : List Request := h.completions ++ (h.delivered ++ h.posted)

/-- Each side reads a prefix of what the other wrote; no write of a side goes where the peer has not
read, or is staged where another is in flight; and the send queue holds no more than it can. -/
structure Streams (l : Link Byte) : Prop where
  inOrder : ∀ s, (l s.peer).got <+: (l s).wrote
  unread : ∀ s at_ n end_, .data at_ n end_ ∈ (l s).posted →
    ∀ i, (l s.peer).got.length ≤ i → i < (l s).arrived →
      ¬ (at_ ≤ i % ring ∧ i % ring < at_ + n)
  staging : ∀ s at_ n end_, .data at_ n end_ ∈ (l s).inFlight → (l s).writer.at_ = .copying →
    ∀ cell b, (cell, b) ∈ (l s).writer.stores → ¬ (at_ ≤ cell ∧ cell < at_ + n)
  few : ∀ s, (l s).inFlight.length ≤ sends

section Sides

variable {h p : Half Byte} {c at_ n end_ : ℕ}

theorem Ends.unread (he : Ends h p) (hmem : .data at_ n end_ ∈ h.posted) {i : ℕ}
    (hread : p.got.length ≤ i) (hi : i < h.arrived) : ¬ (at_ ≤ i % ring ∧ i % ring < at_ + n) := by
  rintro ⟨hle, hlt⟩
  obtain ⟨c, hs⟩ := he.sent
  obtain ⟨m, hm, hend, rfl, hfits⟩ := hs.posted.2.data_mem hmem
  obtain ⟨-, hring⟩ := he.out.bounds
  rw [Half.arrived] at hi
  obtain ⟨k, hk⟩ := Nat.exists_eq_add_of_le hle
  have hcell : (p.got.length + (i - p.got.length)) % ring =
      (p.got.length + (m + k - p.got.length)) % ring := by
    rw [Nat.add_sub_cancel' hread, hk, ← Circular.cell_add hfits (by omega)]
    congr 1
    omega
  have := Circular.cell_inj (by omega) (by omega) hcell
  omega

theorem Sent.free (hs : Sent h c) (hmem : .data at_ n end_ ∈ h.inFlight)
    (hat : h.writer.at_ = .copying) {cell : ℕ} {b : Byte} (hstore : (cell, b) ∈ h.writer.stores) :
    ¬ (at_ ≤ cell ∧ cell < at_ + n) := by
  rintro ⟨hle, hlt⟩
  obtain ⟨m, hm, hend, rfl, hfits⟩ := hs.laid.data_mem hmem
  obtain ⟨htaken, hroom, i, hi, hstores, -⟩ := hs.copying hat
  rw [hstores] at hstore
  obtain ⟨hfrom, hto⟩ := List.mem_range'_1.mp (List.of_mem_zip hstore).1
  obtain ⟨j, hj⟩ := Nat.exists_eq_add_of_le hfrom
  obtain ⟨k, hk⟩ := Nat.exists_eq_add_of_le hle
  have hcell : (c + (h.wrote.length + (i + j) - c)) % ring = (c + (m + k - c)) % ring := by
    rw [show c + (h.wrote.length + (i + j) - c) = h.wrote.length + (i + j) by omega,
      show c + (m + k - c) = m + k by omega, Circular.cell_add htaken.fits (by omega),
      Circular.cell_add hfits (by omega)]
    omega
  have := Circular.cell_inj (by omega) (by omega) hcell
  omega

end Sides

theorem Sound.streams {l : Link Byte} (hl : Sound l) : Streams l where
  inOrder s := by
    rw [(hl s).out.got]
    exact List.take_prefix _ _
  unread s _ _ _ hmem _ hread hi := (hl s).unread hmem hread hi
  staging s _ _ _ hmem hat _ _ hstore :=
    (hl s).sent.elim fun _ hs => hs.free hmem hat hstore
  few s := by
    obtain ⟨c, hs⟩ := (hl s).sent
    exact hs.outstanding.symm.trans_le hs.few

/-- Two sides that keep to the ring have a byte stream each way. Whatever a peer sends, a writer
refuses a position its ring cannot hold, and a reader refuses more bytes than its ring holds exactly
as long as no poll takes in lengths that come to a whole turn of the positions. -/
theorem streams_iff (b : Byte) :
    (∀ acts l, run (only (fun _ a => a.keeps = true) Link.step) (Link.start b) acts = some l →
      Streams l) ∧
    ∀ acts l, run Link.step (Link.start b) acts = some l →
      ((∀ before after m, acts = before ++ after →
          run Link.step (Link.start b) before = some m → ∀ s, Trusts (m s)) ↔
        run (only (fun l a => inSight l a = true) Link.step) (Link.start b) acts = some l) ∧
      ∀ s, (l s).writer.at_ = .looking →
        (((l s).writer.look (l s).counter).at_ = .idle ↔ ¬ Holdable (l s)) := by
  have hkept : Kept Link.step fun l : Link Byte => ∀ s, Tallied (l s) :=
    fun l a l' ht hstep => tallied_step ht hstep
  refine ⟨fun acts l h => (Sound.run h).streams, fun acts l h => ⟨?_, ?_⟩⟩
  · have hiff (l : Link Byte) (a : Act Byte) (l' : Link Byte)
        (hl : (∀ s, Tallied (l s)) ∧ ∀ s, Trusts (l s)) (hstep : Link.step l a = some l') :
        ((∀ s, Tallied (l' s)) ∧ ∀ s, Trusts (l' s)) ↔ inSight l a = true := by
      rw [and_iff_right (tallied_step hl.1 hstep)]
      exact trusts_step hl.1 hl.2 hstep
    have hstart : (∀ s, Tallied (Link.start b s)) ∧ ∀ s, Trusts (Link.start b s) :=
      ⟨tallied_start b, fun _ _ => Nat.zero_le _⟩
    rw [← all_prefixes_iff hiff hstart h]
    constructor
    · exact fun hall before after m hacts hbefore =>
        ⟨hkept.run (tallied_start b) hbefore, hall before after m hacts hbefore⟩
    · exact fun hall before after m hacts hbefore => (hall before after m hacts hbefore).2
  · exact fun s _ => look_refuses (hkept.run (tallied_start b) h s)

instance (h : Half Byte) : Decidable (Trusts h) := inferInstanceAs (Decidable (_ → _))

/-- Two lengths of 2^31 bytes in one poll: a reader that holds nothing takes them in. -/
theorem not_trusts_turn : ¬ ∀ acts l, run Link.step (Link.start (0 : UInt8)) acts = some l →
    ∀ s, Trusts (l s) := by
  intro hall
  have hturn : (run Link.step (Link.start (0 : UInt8))
      [.more .near, .claim .near (2 ^ 31), .claim .near (2 ^ 31), .reader .near]).map
        (fun l => decide (Trusts (l .near))) = some false := by decide +kernel
  obtain ⟨l, hrun, htrusts⟩ := Option.map_eq_some_iff.mp hturn
  exact of_decide_eq_false htrusts (hall _ l hrun .near)

end Guatiao.Rdma
