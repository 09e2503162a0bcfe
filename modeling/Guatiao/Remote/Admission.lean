import Guatiao.Lib.Sha256
import Guatiao.Remote.FrameCodec
import Guatiao.Remote.Handshake

/-!
# Who is admitted

Whatever the peer answers, an end of a handshake comes to a link only behind its checks: a server behind
the trust level, the token and the client's proof over both nonces of the session, a client behind the
server's proof. No proof of one end is the other's.
-/

namespace Guatiao.Remote

open Lib Dialog

/-- What an end asked and was answered. -/
abbrev Transcript := List (Σ q, Reply q)

/-- The frames an end read, in order. -/
def Transcript.bodies (t : Transcript) : List (List UInt8) :=
  t.filterMap fun
    | ⟨.read _, .ok body⟩ => body
    | _ => none

/-- The nonces an end drew. -/
def Transcript.drawn (t : Transcript) : List Nonce :=
  t.filterMap fun
    | ⟨.nonce, nonce⟩ => some nonce
    | _ => none

/-- A transcript that neither read a frame nor drew a nonce. -/
def Transcript.Silent (t : Transcript) : Prop := t.bodies = [] ∧ t.drawn = []

@[simp] theorem Transcript.bodies_append (t t' : Transcript) :
    Transcript.bodies (t ++ t') = t.bodies ++ t'.bodies := List.filterMap_append

@[simp] theorem Transcript.drawn_append (t t' : Transcript) :
    Transcript.drawn (t ++ t') = t.drawn ++ t'.drawn := List.filterMap_append

theorem Transcript.Silent.append {t t' : Transcript} (h : t.Silent) (h' : t'.Silent) :
    Transcript.Silent (t ++ t') := by
  refine ⟨?_, ?_⟩
  · rw [bodies_append, h.1, h'.1, List.append_nil]
  · rw [drawn_append, h.2, h'.2, List.append_nil]

section Steps

variable {R : Type} {t : Transcript} {c : Prop} [Decidable c]

variable {q : Question} {status : UInt32} {why : String} {e : LinkError}

theorem ends_ask {a : Reply q} : (ask q).Ends t a ↔ t = [⟨q, a⟩] := ends_query

@[simp] theorem ends_orIo {x : Except IoError R} {r : R} :
    (orIo x).Ends t r ↔ x = .ok r ∧ t = [] := by
  cases x with
  | ok r' =>
    rw [orIo, ends_pure, Except.ok.injEq, and_comm, eq_comm]
  | error e =>
    simp only [orIo, not_ends_fail, reduceCtorEq, false_and]

theorem not_ends_refuseLink {r : R} :
    ¬(refuseLink status why).Ends t r := by
  intro h
  obtain ⟨_, _, _, _, -, h⟩ := ends_bind.mp h
  obtain ⟨_, _, _, _, -, h⟩ := ends_bind.mp h
  exact not_ends_fail h

theorem not_ends_hangUp {r : R} : ¬(hangUp e).Ends t r := by
  intro h
  obtain ⟨_, _, _, _, -, h⟩ := ends_bind.mp h
  exact not_ends_fail h

@[simp] theorem ends_refuseIf {r : Unit} :
    (refuseIf c status why).Ends t r ↔ ¬c ∧ t = [] := by
  unfold refuseIf
  split
  · next hc => simp only [not_ends_refuseLink, hc, not_true_eq_false, false_and]
  · next hc => simp only [ends_pure, hc, not_false_eq_true, true_and, and_true]

@[simp] theorem ends_hangUpIf {r : Unit} :
    (hangUpIf c e).Ends t r ↔ ¬c ∧ t = [] := by
  unfold hangUpIf
  split
  · next hc => simp only [not_ends_hangUp, hc, not_true_eq_false, false_and]
  · next hc => simp only [ends_pure, hc, not_false_eq_true, true_and, and_true]

theorem ends_queryIf {q : Handshake R} {otherwise r : R} :
    (queryIf c q otherwise).Ends t r ↔ c ∧ q.Ends t r ∨ ¬c ∧ t = [] ∧ r = otherwise := by
  unfold queryIf
  split
  · next hc => simp only [hc, true_and, not_true_eq_false, false_and, or_false]
  · next hc => simp only [ends_pure, hc, false_and, not_false_eq_true, true_and, false_or]

theorem ends_readHandshake {body : List UInt8} (h : readHandshake.Ends t body) :
    t = [⟨.read HANDSHAKE_MAX_FRAME, .ok (some body)⟩] := by
  obtain ⟨_, _, read, rfl, hask, hread⟩ := ends_bind.mp h
  obtain ⟨_, _, closed, rfl, hok, hend⟩ := ends_bind.mp hread
  obtain ⟨rfl, rfl⟩ := ends_orIo.mp hok
  cases ends_ask.mp hask
  cases closed with
  | none => exact absurd hend not_ends_fail
  | some body' =>
    obtain ⟨rfl, rfl⟩ := ends_pure.mp hend
    rfl

theorem ends_writeFrame {frame : Frame} {r : Unit} (h : (writeFrame frame).Ends t r) :
    ∃ bytes, frame.encode [] USIZE_MAX = .ok bytes ∧ t = [⟨.write bytes, .ok ()⟩] := by
  unfold writeFrame at h
  split at h
  · next bytes hbytes =>
    obtain ⟨_, _, written, rfl, hask, hok⟩ := ends_bind.mp h
    obtain ⟨rfl, rfl⟩ := ends_orIo.mp hok
    cases ends_ask.mp hask
    exact ⟨bytes, hbytes, rfl⟩
  · exact absurd h not_ends_fail

theorem drawn_drawNonce {hashes : Hashes} {nonce : Nonce} (htcp : hashes.tcp = true)
    (h : (drawNonce hashes).Ends t nonce) : t = [⟨.nonce, nonce⟩] := by
  rcases ends_queryIf.mp h with ⟨-, h⟩ | ⟨hnot, -⟩
  · exact ends_ask.mp h
  · exact absurd htcp hnot

theorem ends_ignored {d : Handshake R} {r : R}
    (h : (ask q >>= fun _ => d).Ends t r) : ∃ a t', t = [⟨q, a⟩] ++ t' ∧ d.Ends t' r := by
  obtain ⟨_, t', a, rfl, hask, hend⟩ := ends_bind.mp h
  cases ends_ask.mp hask
  exact ⟨a, t', rfl, hend⟩

theorem ends_done {d : Handshake R} {r : R} (hq : Reply q = Except IoError Unit)
    (h : (ask q >>= fun a => orIo (hq ▸ a) >>= fun _ => d).Ends t r) :
    ∃ a t', t = [⟨q, a⟩] ++ t' ∧ d.Ends t' r := by
  obtain ⟨_, t', a, rfl, hask, hend⟩ := ends_bind.mp h
  obtain ⟨_, t'', _, rfl, hok, hend'⟩ := ends_bind.mp hend
  obtain ⟨-, rfl⟩ := ends_orIo.mp hok
  cases ends_ask.mp hask
  exact ⟨a, t'', rfl, hend'⟩

theorem ends_settle {options : LinkOptions} {link link' : Established}
    (h : (do
      let unbounded ← ask (.readTimeout none)
      orIo unbounded
      let written ← ask (.writeTimeout options.timeout)
      orIo written
      pure link : Handshake Established).Ends t link') :
    t.Silent := by
  obtain ⟨_, _, rfl, h₁⟩ := ends_done rfl h
  obtain ⟨_, _, rfl, h₂⟩ := ends_done rfl h₁
  obtain ⟨rfl, -⟩ := ends_pure.mp h₂
  exact ⟨rfl, rfl⟩

theorem silent_refuseIf {r : Unit} (h : (refuseIf c status why).Ends t r) : t.Silent := by
  rw [(ends_refuseIf.mp h).2]
  exact ⟨rfl, rfl⟩

theorem silent_hangUpIf {r : Unit} (h : (hangUpIf c e).Ends t r) : t.Silent := by
  rw [(ends_hangUpIf.mp h).2]
  exact ⟨rfl, rfl⟩

theorem silent_queryIf {otherwise r : Reply q} (hq : Transcript.Silent [⟨q, r⟩])
    (h : (queryIf c (ask q) otherwise).Ends t r) : t.Silent := by
  rcases ends_queryIf.mp h with ⟨-, hask⟩ | ⟨-, rfl, -⟩
  · rw [ends_ask.mp hask]
    exact hq
  · exact ⟨rfl, rfl⟩

end Steps

section Ends

variable {hashes : Hashes} {words : ProtocolError → String} {seeds : Wire.Seeded}
  {options : LinkOptions} {t : Transcript}

variable {nonce : Nonce} {r : Unit} {shown : List UInt8}

theorem ends_greeted {decoded : Except ProtocolError Frame} {theirs : Offer}
    (h : (greeted words options decoded).Ends t (nonce, theirs)) :
    ∃ offered, decoded = .ok (.hello options.trust nonce offered) ∧
      theirs = .fromValue offered (options.offer none) ∧ t.Silent := by
  unfold greeted at h
  split at h
  · next trust nonce' offered =>
    obtain ⟨_, _, _, rfl, htrust, h₁⟩ := ends_bind.mp h
    obtain ⟨_, _, _, rfl, hpeer, h₂⟩ := ends_bind.mp h₁
    obtain ⟨_, _, _, rfl, hproved, h₃⟩ := ends_bind.mp h₂
    obtain ⟨_, _, _, rfl, hencrypted, h₄⟩ := ends_bind.mp h₃
    obtain ⟨_, _, _, rfl, hserves, h₅⟩ := ends_bind.mp h₄
    obtain ⟨_, _, _, rfl, hneither, h₆⟩ := ends_bind.mp h₅
    obtain ⟨_, _, _, rfl, hblank, h₇⟩ := ends_bind.mp h₆
    obtain ⟨rfl, heq⟩ := ends_pure.mp h₇
    cases heq
    cases not_not.mp (ends_refuseIf.mp htrust).1
    refine ⟨offered, rfl, rfl, (silent_refuseIf htrust).append ?_⟩
    apply (silent_queryIf ⟨rfl, rfl⟩ hpeer).append
    apply (silent_refuseIf hproved).append
    apply (silent_queryIf ⟨rfl, rfl⟩ hencrypted).append
    apply (silent_refuseIf hserves).append
    apply (silent_refuseIf hneither).append
    apply (silent_refuseIf hblank).append
    exact ⟨rfl, rfl⟩
  · exact absurd h not_ends_refuseLink
  · exact absurd h not_ends_refuseLink

theorem silent_raiseBound (h : (raiseBound options).Ends t r) : t.Silent := by
  unfold raiseBound at h
  split at h
  · obtain ⟨_, _, rfl, hend⟩ := ends_ignored h
    obtain ⟨rfl, -⟩ := ends_pure.mp hend
    exact ⟨rfl, rfl⟩
  · obtain ⟨_, _, rfl, hahead⟩ := ends_ignored h
    obtain ⟨_, _, rfl, hend⟩ := ends_ignored hahead
    obtain ⟨rfl, -⟩ := ends_pure.mp hend
    exact ⟨rfl, rfl⟩

theorem ends_needKey {key : List UInt8} (h : (needKey options).Ends t key) :
    options.key = some key ∧ t = [] := by
  unfold needKey at h
  split at h
  · next key' hkey =>
    obtain ⟨rfl, rfl⟩ := ends_pure.mp h
    exact ⟨hkey, rfl⟩
  · exact absurd h not_ends_fail

theorem ends_proveServer {clientNonce : Nonce}
    (h : (proveServer hashes options clientNonce nonce).Ends t shown) :
    hashes.tcp = true ∧ t = [] ∧ ∃ key, options.key = some key ∧
      shown = proof hashes key SERVER clientNonce nonce := by
  unfold proveServer at h
  split at h
  · next htcp =>
    obtain ⟨_, _, key, rfl, hneed, hend⟩ := ends_bind.mp h
    obtain ⟨rfl, rfl⟩ := ends_pure.mp hend
    obtain ⟨hkey, rfl⟩ := ends_needKey hneed
    exact ⟨htcp, rfl, key, hkey, rfl⟩
  · exact absurd h not_ends_refuseLink

theorem ends_checkClient {clientNonce : Nonce}
    (h : (checkClient hashes seeds options clientNonce nonce).Ends t r) :
    t.drawn = [] ∧ ∃ key answer shown, options.key = some key ∧ t.bodies = [answer] ∧
      Frame.decode seeds answer = .ok (.proof shown) ∧
      proves hashes key CLIENT clientNonce nonce shown = true := by
  obtain ⟨_, _, answer, rfl, hread, h₁⟩ := ends_bind.mp h
  obtain ⟨_, _, proved, rfl, hproved, h₂⟩ := ends_bind.mp h₁
  obtain ⟨_, _, _, rfl, hrefuse, h₃⟩ := ends_bind.mp h₂
  obtain ⟨_, _, rfl, h₄⟩ := ends_ignored h₃
  obtain ⟨rfl, -⟩ := ends_pure.mp h₄
  cases ends_readHandshake hread
  obtain ⟨htrue, rfl⟩ := ends_refuseIf.mp hrefuse
  rw [Bool.not_eq_false] at htrue
  unfold clientProved at hproved
  split at hproved
  · next shown hshown =>
    obtain ⟨_, _, key, rfl, hneed, hend⟩ := ends_bind.mp hproved
    obtain ⟨hkey, rfl⟩ := ends_needKey hneed
    obtain ⟨rfl, hproves⟩ := ends_pure.mp hend
    refine ⟨rfl, key, answer, shown, hkey, rfl, hshown, ?_⟩
    rw [← hproves, htrue]
  · obtain ⟨-, hfalse⟩ := ends_pure.mp hproved
    rw [hfalse] at htrue
    cases htrue

/-- What a server's link rests on. -/
theorem server_ends {link : Established} (h : (server hashes words seeds options).Ends t link) :
    ∃ hello clientNonce offered, t.bodies.head? = some hello ∧
      Frame.decode seeds hello = .ok (.hello options.trust clientNonce offered) ∧
      (∀ token, options.token = some token →
        (Required.new hashes token).admits hashes
          (Offer.fromValue offered (options.offer none)).token = true) ∧
      (provesKey options = true → ∃ key nonce answer shown, options.key = some key ∧
        t.drawn = [nonce] ∧ t.bodies = [hello, answer] ∧
        Frame.decode seeds answer = .ok (.proof shown) ∧
        proves hashes key CLIENT clientNonce nonce shown = true) := by
  obtain ⟨_, _, rfl, h₁⟩ := ends_done rfl h
  obtain ⟨_, _, hello, rfl, hread, h₂⟩ := ends_bind.mp h₁
  obtain ⟨_, _, ⟨clientNonce, theirs⟩, rfl, hgreeted, h₃⟩ := ends_bind.mp h₂
  obtain ⟨_, _, _, rfl, htoken, h₄⟩ := ends_bind.mp h₃
  obtain ⟨_, _, _, rfl, hbound, h₅⟩ := ends_bind.mp h₄
  obtain ⟨tn, _, nonce, rfl, hnonce, h₆⟩ := ends_bind.mp h₅
  obtain ⟨tp, _, shown, rfl, hproof, h₇⟩ := ends_bind.mp h₆
  obtain ⟨_, _, _, rfl, hwelcome, h₈⟩ := ends_bind.mp h₇
  obtain ⟨tc, _, _, rfl, hcheck, h₉⟩ := ends_bind.mp h₈
  obtain ⟨_, _, rfl, h₁₀⟩ := ends_ignored h₉
  cases ends_readHandshake hread
  obtain ⟨offered, hdecode, rfl, hgreet⟩ := ends_greeted hgreeted
  have hraise := silent_raiseBound hbound
  have hsettle := ends_settle h₁₀
  obtain ⟨hadmits, rfl⟩ := ends_refuseIf.mp htoken
  obtain ⟨bytes, -, rfl⟩ := ends_writeFrame hwelcome
  refine ⟨hello, clientNonce, offered, ?_, hdecode, ?_, ?_⟩
  · rw [Transcript.bodies_append, Transcript.bodies_append]
    rfl
  · intro token htoken
    simp only [LinkOptions.required, htoken, Option.map_some, Option.any_some,
      Bool.not_eq_true', Bool.not_eq_false] at hadmits
    exact hadmits
  · intro hproves
    rcases ends_queryIf.mp hproof with ⟨-, hproof⟩ | ⟨hnot, -⟩
    · rcases ends_queryIf.mp hcheck with ⟨-, hcheck⟩ | ⟨hnot, -⟩
      · obtain ⟨htcp, rfl, -⟩ := ends_proveServer hproof
        cases drawn_drawNonce htcp hnonce
        obtain ⟨hdrawn, key, answer, given, hkey, hanswer, hgiven, hchecks⟩ := ends_checkClient hcheck
        refine ⟨key, nonce, answer, given, hkey, ?_, ?_, hgiven, hchecks⟩
        · simp only [Transcript.drawn_append, hgreet.2, hraise.2, hdrawn, hsettle.2]
          rfl
        · simp only [Transcript.bodies_append, hgreet.1, hraise.1, hanswer, hsettle.1]
          rfl
      · exact absurd hproves hnot
    · exact absurd hproves hnot

theorem silent_clientReady (h : (clientReady hashes options).Ends t r) : t.Silent := by
  obtain ⟨tb, _, _, rfl, hbuild, h₁⟩ := ends_bind.mp h
  obtain ⟨_, _, _, rfl, hpeer, h₂⟩ := ends_bind.mp h₁
  obtain ⟨_, _, _, rfl, hsecure, h₃⟩ := ends_bind.mp h₂
  obtain ⟨_, _, _, rfl, hserver, h₄⟩ := ends_bind.mp h₃
  obtain ⟨_, _, _, rfl, hproved, h₅⟩ := ends_bind.mp h₄
  obtain ⟨_, _, _, rfl, hneither, h₆⟩ := ends_bind.mp h₅
  have hnothing : Transcript.Silent tb := by
    rcases ends_queryIf.mp hbuild with ⟨-, hfail⟩ | ⟨-, rfl, -⟩
    · exact absurd hfail not_ends_fail
    · exact ⟨rfl, rfl⟩
  apply hnothing.append
  apply (silent_queryIf ⟨rfl, rfl⟩ hpeer).append
  apply (silent_hangUpIf hsecure).append
  apply (silent_queryIf ⟨rfl, rfl⟩ hserver).append
  apply (silent_hangUpIf hproved).append
  apply (silent_hangUpIf hneither).append
  exact silent_hangUpIf h₆

theorem ends_welcomed {ours theirs : Offer} {decoded : Except ProtocolError Frame}
    (h : (welcomed ours decoded).Ends t (theirs, nonce, shown)) :
    ∃ offered, decoded = .ok (.welcome nonce shown offered) ∧ t = [] := by
  unfold welcomed at h
  split at h
  · next offered =>
    obtain ⟨rfl, heq⟩ := ends_pure.mp h
    cases heq
    exact ⟨offered, rfl, rfl⟩
  · exact absurd h not_ends_fail
  · exact absurd h not_ends_fail
  · exact absurd h not_ends_fail

theorem ends_proveClient {serverNonce : Nonce}
    (h : (proveClient hashes options nonce serverNonce shown).Ends t r) :
    hashes.tcp = true ∧ t.Silent ∧ ∃ key, options.key = some key ∧
      proves hashes key SERVER nonce serverNonce shown = true := by
  obtain ⟨_, _, _, rfl, hbuild, h₁⟩ := ends_bind.mp h
  obtain ⟨htcp, rfl⟩ := ends_hangUpIf.mp hbuild
  rw [Bool.not_eq_false] at htcp
  split at h₁
  · exact absurd h₁ not_ends_hangUp
  · next key hkey =>
    obtain ⟨_, _, _, rfl, hproof, h₂⟩ := ends_bind.mp h₁
    obtain ⟨hproves, rfl⟩ := ends_hangUpIf.mp hproof
    obtain ⟨bytes, -, rfl⟩ := ends_writeFrame h₂
    exact ⟨htcp, ⟨rfl, rfl⟩, key, hkey, not_not.mp hproves⟩

theorem client_ends {link : Established} (h : (client hashes seeds options).Ends t link) :
    ∃ welcome serverNonce shown offered, t.bodies = [welcome] ∧
      Frame.decode seeds welcome = .ok (.welcome serverNonce shown offered) ∧
      (asked options shown = true → ∃ key nonce, options.key = some key ∧ t.drawn = [nonce] ∧
        proves hashes key SERVER nonce serverNonce shown = true) := by
  obtain ⟨_, _, _, rfl, hready, h₁⟩ := ends_bind.mp h
  obtain ⟨_, _, rfl, h₂⟩ := ends_done rfl h₁
  obtain ⟨tn, _, nonce, rfl, hnonce, h₃⟩ := ends_bind.mp h₂
  obtain ⟨_, _, _, rfl, hhello, h₄⟩ := ends_bind.mp h₃
  obtain ⟨_, _, welcome, rfl, hread, h₅⟩ := ends_bind.mp h₄
  obtain ⟨_, _, ⟨theirs, serverNonce, shown⟩, rfl, hwelcome, h₆⟩ := ends_bind.mp h₅
  obtain ⟨tp, _, _, rfl, hproof, h₇⟩ := ends_bind.mp h₆
  obtain ⟨_, _, rfl, h₈⟩ := ends_ignored h₇
  have hsilent := silent_clientReady hready
  have hsettle := ends_settle h₈
  obtain ⟨bytes, -, rfl⟩ := ends_writeFrame hhello
  cases ends_readHandshake hread
  obtain ⟨offered, hdecode, rfl⟩ := ends_welcomed hwelcome
  have hdrew : Transcript.bodies tn = [] := by
    rcases ends_queryIf.mp hnonce with ⟨-, hask⟩ | ⟨-, rfl, -⟩
    · rw [ends_ask.mp hask]
      rfl
    · rfl
  have hproved : Transcript.Silent tp := by
    rcases ends_queryIf.mp hproof with ⟨-, hproof⟩ | ⟨-, rfl, -⟩
    · exact (ends_proveClient hproof).2.1
    · exact ⟨rfl, rfl⟩
  refine ⟨welcome, serverNonce, shown, offered, ?_, hdecode, ?_⟩
  · simp only [Transcript.bodies_append, hsilent.1, hdrew, hproved.1, hsettle.1]
    rfl
  · intro hasked
    rcases ends_queryIf.mp hproof with ⟨-, hproof⟩ | ⟨hnot, -⟩
    · obtain ⟨htcp, -, key, hkey, hproves⟩ := ends_proveClient hproof
      cases drawn_drawNonce htcp hnonce
      refine ⟨key, nonce, hkey, ?_, hproves⟩
      simp only [Transcript.drawn_append, hsilent.2, hproved.2, hsettle.2]
      rfl
    · exact absurd hasked hnot

end Ends

theorem server_ne_client : SERVER ≠ CLIENT := by decide

/-- Where the messages of two proofs are no collision of the keyed hash, a proof is taken for
another only when both have one label. -/
theorem label_eq_of_proves {hashes : Hashes} {key key' label label' : List UInt8}
    {client client' server server' : Nonce} (hlabel : label.length = label'.length)
    (hmac : hashes.mac key (label ++ client.toList ++ server.toList) =
        hashes.mac key' (label' ++ client'.toList ++ server'.toList) →
      label ++ client.toList ++ server.toList = label' ++ client'.toList ++ server'.toList)
    (h : proves hashes key label client server (proof hashes key' label' client' server') = true) :
    label = label' := by
  have hmessage := hmac (List.Vector.eq _ _ (of_decide_eq_true h))
  rw [List.append_assoc, List.append_assoc] at hmessage
  exact (List.append_inj hmessage hlabel).1

theorem foldl_eq_zero (pairs : List (UInt8 × UInt8)) (acc : UInt8) :
    pairs.foldl (fun acc p => acc ||| (p.1 ^^^ p.2)) acc = 0 ↔
      acc = 0 ∧ ∀ p ∈ pairs, p.1 = p.2 := by
  induction pairs generalizing acc with
  | nil => simp
  | cons p pairs ih =>
    rw [List.foldl_cons, ih, UInt8.or_eq_zero_iff, UInt8.xor_eq_zero_iff, List.forall_mem_cons,
      and_assoc]

theorem same_iff {a b : List UInt8} : same a b = true ↔ a = b := by
  simp only [same, Bool.and_eq_true, beq_iff_eq, foldl_eq_zero, true_and]
  constructor
  · rintro ⟨hlen, hpairs⟩
    apply List.ext_getElem hlen
    intro i hi hi'
    have hmem : (a[i], b[i]) ∈ a.zip b := by
      rw [List.mem_iff_getElem]
      exact ⟨i, by simp [hi, hi'], by simp⟩
    exact hpairs _ hmem
  · rintro rfl
    refine ⟨rfl, ?_⟩
    induction a with
    | nil => simp
    | cons x a ih => exact List.forall_mem_cons.mpr ⟨rfl, ih⟩

/-- A token as a server knows it: its digest with `tcp`, the token itself without. -/
def SameToken (hashes : Hashes) (given token : String) : Prop :=
  if hashes.tcp then hashes.digest (asBytes given) = hashes.digest (asBytes token) else given = token

theorem admits_new {hashes : Hashes} {token : String} {given : Option String}
    (h : (Required.new hashes token).admits hashes given = true) :
    ∃ text, given = some text ∧ SameToken hashes text token := by
  unfold Required.admits Required.is Required.new at h
  cases given with
  | none => cases h
  | some text =>
    refine ⟨text, rfl, ?_⟩
    rw [Option.any_some, same_iff] at h
    unfold SameToken
    split at h
    · next htcp =>
      rw [if_pos htcp]
      exact List.Vector.eq _ _ h
    · next htcp =>
      rw [if_neg htcp]
      exact asBytes_inj h

/-- Whatever the peer answers, a server comes to a link only with a client that asked its trust level,
presented its token and, where the key is proved, proved it for both nonces of the session; a client
at the trusted level only with a server that proved it so; and a proof of one end is taken for the
other's only where the two messages collide. -/
theorem link_admission (hashes : Hashes) (words : ProtocolError → String) (seeds : Wire.Seeded)
    (options : LinkOptions) :
    (∀ (t : Transcript) (link : Established), (server hashes words seeds options).Ends t link →
      ∃ hello clientNonce offered, t.bodies.head? = some hello ∧
        Frame.decode seeds hello = .ok (.hello options.trust clientNonce offered) ∧
        (∀ token, options.token = some token → ∃ given,
          (Offer.fromValue offered (options.offer none)).token = some given ∧
            SameToken hashes given token) ∧
        (provesKey options = true → ∃ key nonce answer shown, options.key = some key ∧
          t.drawn = [nonce] ∧ t.bodies = [hello, answer] ∧
          Frame.decode seeds answer = .ok (.proof shown) ∧
          proves hashes key CLIENT clientNonce nonce shown = true)) ∧
    (∀ (t : Transcript) (link : Established), (client hashes seeds options).Ends t link →
      options.trust = .trusted → ∃ key nonce welcome serverNonce shown offered,
        options.key = some key ∧ t.drawn = [nonce] ∧ t.bodies = [welcome] ∧
        Frame.decode seeds welcome = .ok (.welcome serverNonce shown offered) ∧
        proves hashes key SERVER nonce serverNonce shown = true) ∧
    (∀ (key key' : List UInt8) (clientNonce clientNonce' serverNonce serverNonce' : Nonce),
      (hashes.mac key (CLIENT ++ clientNonce.toList ++ serverNonce.toList) =
          hashes.mac key' (SERVER ++ clientNonce'.toList ++ serverNonce'.toList) →
        CLIENT ++ clientNonce.toList ++ serverNonce.toList =
          SERVER ++ clientNonce'.toList ++ serverNonce'.toList) →
      proves hashes key CLIENT clientNonce serverNonce
          (proof hashes key' SERVER clientNonce' serverNonce') = false ∧
        proves hashes key' SERVER clientNonce' serverNonce'
          (proof hashes key CLIENT clientNonce serverNonce) = false) := by
  refine ⟨?_, ?_, ?_⟩
  · intro t link h
    obtain ⟨hello, clientNonce, offered, hhello, hdecode, htoken, hkey⟩ := server_ends h
    exact ⟨hello, clientNonce, offered, hhello, hdecode,
      fun token hsome => admits_new (htoken token hsome), hkey⟩
  · intro t link h htrust
    obtain ⟨welcome, serverNonce, shown, offered, hbodies, hdecode, hkey⟩ := client_ends h
    obtain ⟨key, nonce, hsome, hdrawn, hproves⟩ := hkey (by rw [asked, htrust])
    exact ⟨key, nonce, welcome, serverNonce, shown, offered, hsome, hdrawn, hbodies, hdecode, hproves⟩
  · intro key key' clientNonce clientNonce' serverNonce serverNonce' hmac
    have hlen : SERVER.length = CLIENT.length := by decide
    refine ⟨Bool.eq_false_iff.mpr fun h => ?_, Bool.eq_false_iff.mpr fun h => ?_⟩
    · exact server_ne_client (label_eq_of_proves hlen.symm hmac h).symm
    · exact server_ne_client (label_eq_of_proves hlen (fun heq => (hmac heq.symm).symm) h)

/-- A build with `tcp`: HMAC-SHA256 and SHA-256. -/
def sha2 : Hashes := ⟨true, Sha256.hmac, Sha256.sha256⟩

/-- A server that holds a key of one byte. -/
def keyed : LinkOptions := ⟨.trusted, some [7], none, 0, 0, none, 0⟩

def zeros : Nonce := .replicate 16 0

/-- What that server asks, where the client proves the key. -/
def keyedRun (welcome : List UInt8) : Transcript :=
  [⟨.readTimeout (some 0), .ok ()⟩,
    ⟨.read HANDSHAKE_MAX_FRAME, .ok (some (Frame.hello .trusted zeros .null).body)⟩,
    ⟨.maxFrameAfter 1 0, true⟩, ⟨.nonce, zeros⟩, ⟨.write welcome, .ok ()⟩,
    ⟨.read HANDSHAKE_MAX_FRAME,
      .ok (some (Frame.proof (proof sha2 [7] CLIENT zeros zeros)).body)⟩,
    ⟨.readAhead READ_AHEAD, .ok ()⟩, ⟨.maxFrame 0, ()⟩, ⟨.readTimeout none, .ok ()⟩,
    ⟨.writeTimeout none, .ok ()⟩]

theorem keyedRun_ends {welcome : List UInt8}
    (hwelcome : (Frame.welcome zeros (proof sha2 [7] SERVER zeros zeros)
      (keyed.offer none).toValue).encode [] USIZE_MAX = .ok welcome)
    (words : ProtocolError → String) (seeds : Wire.Seeded) :
    (server sha2 words seeds keyed).Ends (keyedRun welcome)
      ⟨.trusted, .fromValue .null (keyed.offer none)⟩ := by
  have hhello : Frame.decode seeds (Frame.hello .trusted zeros .null).body =
      .ok (.hello .trusted zeros .null) := by
    apply Frame.decode_eq_ok.mpr
    refine ⟨⟨trivial, ?_⟩, rfl⟩
    simp [Countable, Wire.wire]
  have hproof : Frame.decode seeds (Frame.proof (proof sha2 [7] CLIENT zeros zeros)).body =
      .ok (.proof (proof sha2 [7] CLIENT zeros zeros)) := by
    apply Frame.decode_eq_ok.mpr
    refine ⟨?_, rfl⟩
    show List.length _ < _
    rw [proof, List.Vector.toList_length]
    decide
  have hread : ∀ body, readHandshake.Ends [⟨.read HANDSHAKE_MAX_FRAME, .ok (some body)⟩] body :=
    fun body => .ask (.done _)
  have hgreeted : (greeted words keyed (Frame.decode seeds (Frame.hello .trusted zeros .null).body)).Ends
      [] (zeros, .fromValue .null (keyed.offer none)) := by
    rw [hhello]
    exact .done _
  have hwritten : (writeFrame (.welcome zeros (proof sha2 [7] SERVER zeros zeros)
      (keyed.offer none).toValue)).Ends [⟨.write welcome, .ok ()⟩] () := by
    rw [writeFrame, hwelcome]
    exact .ask (.done _)
  have hproved : (clientProved sha2 keyed zeros zeros
      (Frame.decode seeds (Frame.proof (proof sha2 [7] CLIENT zeros zeros)).body)).Ends [] true := by
    rw [hproof]
    have htrue : proves sha2 [7] CLIENT zeros zeros (proof sha2 [7] CLIENT zeros zeros) = true :=
      decide_eq_true rfl
    rw [← htrue]
    exact .done _
  have hcheck : (checkClient sha2 seeds keyed zeros zeros).Ends
      [⟨.read HANDSHAKE_MAX_FRAME,
        .ok (some (Frame.proof (proof sha2 [7] CLIENT zeros zeros)).body)⟩,
        ⟨.readAhead READ_AHEAD, .ok ()⟩] () :=
    (hread _).bind (hproved.bind (.ask (.done _)))
  exact .ask ((hread _).bind (hgreeted.bind (.ask (.ask (hwritten.bind (hcheck.bind
    (.ask (.ask (.ask (.done _))))))))))

theorem length_welcome : (Frame.welcome zeros (proof sha2 [7] SERVER zeros zeros)
    (keyed.offer none).toValue).body.length < 2 ^ 32 := by
  have hzero : plainNumber 0 = .number ⟨"0", by decide⟩ := rfl
  simp only [Frame.body, Frame.spelled, Offer.toValue, LinkOptions.offer, keyed, hzero]
  have hframe : (asBytes "max_frame").length = 9 := by decide
  have hcalls : (asBytes "max_calls").length = 9 := by decide
  have hdigit : (asBytes "0").length = 1 := by decide
  have hproof : (proof sha2 [7] SERVER zeros zeros).length = 32 :=
    List.Vector.toList_length _
  simp [putBytes, Wire.wire, Wire.wireEntries, Wire.putBytes, hframe, hcalls, hdigit, hproof,
    putUint_eq, Wire.putLen_eq, Leb128.encode, MAGIC]

/-- A server that holds a key, and a client that proves it; neither's proof is the other's. -/
theorem link_admission_keyed : (∃ welcome hello clientNonce offered,
    (keyedRun welcome).bodies.head? = some hello ∧
      Frame.decode ⟨1, 2⟩ hello = .ok (.hello .trusted clientNonce offered) ∧
      (∀ token, keyed.token = some token → ∃ given,
        (Offer.fromValue offered (keyed.offer none)).token = some given ∧ SameToken sha2 given token) ∧
      (provesKey keyed = true → ∃ key nonce answer shown, keyed.key = some key ∧
        (keyedRun welcome).drawn = [nonce] ∧ (keyedRun welcome).bodies = [hello, answer] ∧
        Frame.decode ⟨1, 2⟩ answer = .ok (.proof shown) ∧
        proves sha2 key CLIENT clientNonce nonce shown = true)) ∧
    proves sha2 [7] CLIENT zeros zeros (proof sha2 [7] SERVER zeros zeros) = false := by
  have hfits : ¬(USIZE_MAX < (Frame.welcome zeros (proof sha2 [7] SERVER zeros zeros)
      (keyed.offer none).toValue).body.length ∨ 2 ^ 32 - 1 < (Frame.welcome zeros
        (proof sha2 [7] SERVER zeros zeros) (keyed.offer none).toValue).body.length) := by
    have hlen := length_welcome
    rw [USIZE_MAX]
    omega
  have hwelcome := (Frame.encode_eq (.welcome zeros (proof sha2 [7] SERVER zeros zeros)
    (keyed.offer none).toValue) [] USIZE_MAX).trans (if_neg hfits)
  have hadmission := link_admission sha2 (fun _ => "") ⟨1, 2⟩ keyed
  refine ⟨⟨_, hadmission.1 _ _ (keyedRun_ends hwelcome _ _)⟩, (hadmission.2.2 [7] [7] _ _ _ _ ?_).1⟩
  intro hcollision
  revert hcollision
  decide +kernel

end Guatiao.Remote
