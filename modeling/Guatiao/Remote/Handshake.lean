import Guatiao.Lib.Dialog
import Guatiao.Remote.Frame

/-!
# The handshake

A client says HELLO, a server WELCOME, and each proves the key where the trust level calls for it.
Each end is a dialog with its transport, which answers whatever the peer likes.
-/

namespace Guatiao.Remote

open Lib

/-- Sixteen bytes no peer can predict. -/
abbrev Nonce := List.Vector UInt8 16

/-- What the build brings: whether it has `tcp`, the keyed hash over a key and a message, and the hash
a token is compared by. -/
structure Hashes where
  tcp : Bool
  mac : List UInt8 → List UInt8 → List.Vector UInt8 32
  digest : List UInt8 → List.Vector UInt8 32

/-- What a server proves with. -/
def SERVER : List UInt8 := asBytes "guatiao-remote server"

/-- What a client proves with. -/
def CLIENT : List UInt8 := asBytes "guatiao-remote client"

section

variable (hashes : Hashes)

/-- The proof of a key for a label over both nonces. -/
def proof (key label : List UInt8) (client server : Nonce) : List UInt8 :=
  (hashes.mac key (label ++ client.toList ++ server.toList)).toList

/-- Whether some bytes are the proof of a key. -/
def proves (key label : List UInt8) (client server : Nonce) (given : List UInt8) : Bool :=
  (hashes.mac key (label ++ client.toList ++ server.toList)).toList = given

/-- Whether two byte strings are the same, every byte compared whatever they hold. -/
def same (a b : List UInt8) : Bool :=
  a.length == b.length && (a.zip b).foldl (fun acc p => acc ||| (p.1 ^^^ p.2)) 0 == 0

/-- The token a server requires, as it compares a client's with it: its digest with `tcp`, the token
itself without. -/
structure Required where
  held : List UInt8

def Required.new (token : String) : Required :=
  ⟨if hashes.tcp then (hashes.digest (asBytes token)).toList else asBytes token⟩

/-- Whether some bytes are the token required. -/
def Required.is (required : Required) (given : List UInt8) : Bool :=
  same (if hashes.tcp then (hashes.digest given).toList else given) required.held

/-- Whether a client presenting a token is admitted: never one presenting none. -/
def Required.admits (required : Required) (given : Option String) : Bool :=
  given.any fun given => required.is hashes (asBytes given)

end

/-- What counts as white space. -/
def isWhitespace (c : Char) : Bool :=
  let n := c.toNat
  (9 ≤ n && n ≤ 13) || n == 0x20 || n == 0x85 || n == 0xa0 || n == 0x1680 ||
    (0x2000 ≤ n && n ≤ 0x200a) || n == 0x2028 || n == 0x2029 || n == 0x202f || n == 0x205f ||
    n == 0x3000

/-- Whether a token is empty or only white space, which proves nothing. -/
def blank (token : String) : Bool := token.toList.all isWhitespace

/-- What one side offers in its HELLO or WELCOME. -/
structure Offer where
  maxFrame : ℕ
  maxCalls : ℕ
  token : Option String

/-- A number written plainly, which the grammar takes. -/
def plainNumber (n : ℕ) : Value := ((Number.new (toString n)).map Value.number).getD .absent

/-- A number of at most 64 bits written plainly. -/
def readPlain : Value → Option ℕ
  | .number n =>
    let digits := asBytes n.text
    if digits.all isDigit then
      let m := digits.foldl (fun m b => 10 * m + (b.toNat - 0x30)) 0
      if m < 2 ^ 64 then some m else none
    else none
  | _ => none

def Offer.toValue (offer : Offer) : Value :=
  .map ([("max_frame", plainNumber offer.maxFrame), ("max_calls", plainNumber offer.maxCalls)] ++
    (offer.token.map fun token => ("token", .string token)).toList)

/-- Reads an offer; a missing number takes the fallback's. -/
def Offer.fromValue (v : Value) (fallback : Offer) : Offer where
  maxFrame := ((v.get "max_frame").bind readPlain).getD fallback.maxFrame
  maxCalls := ((v.get "max_calls").bind readPlain).getD fallback.maxCalls
  token := (v.get "token").bind fun
    | .string token => some token
    | _ => none

/-- How a link is set up. The token required is the token given, as a server compares it. -/
structure LinkOptions where
  trust : Trust
  key : Option (List UInt8)
  token : Option String
  maxFrame : ℕ
  maxCalls : ℕ
  timeout : Option ℕ
  handshakeTimeout : ℕ

def LinkOptions.required (hashes : Hashes) (options : LinkOptions) : Option Required :=
  options.token.map (Required.new hashes)

def LinkOptions.offer (options : LinkOptions) (token : Option String) : Offer :=
  ⟨options.maxFrame, options.maxCalls, token⟩

/-- Whether this side's handshake proves the pre-shared key: always at the trusted level, and at
server TLS when a key is given. -/
def provesKey (options : LinkOptions) : Bool :=
  match options.trust with
  | .trusted => true
  | .serverTls => options.key.isSome
  | _ => false

/-- Why a transport failed. -/
inductive IoError
  | unexpectedEof
  | other (why : String)

/-- Why a link could not be set up. -/
inductive LinkError
  /-- The transport failed. -/
  | io (e : IoError)
  /-- The peer sent something that is not this protocol. -/
  | protocol (e : ProtocolError)
  /-- The link was refused, with a status and words. -/
  | refused (status : UInt32) (why : String)
  /-- The peer failed this side's trust check, or this build cannot run the level asked. -/
  | trust (why : String)

inductive Question
  /-- The peer's identity as the transport proved it. -/
  | peerId
  /-- Whether what crosses is encrypted. -/
  | encrypted
  | readTimeout (timeout : Option ℕ)
  | writeTimeout (timeout : Option ℕ)
  | maxFrame (bytes : ℕ)
  | maxFrameAfter (messages bytes : ℕ)
  | readAhead (frames : ℕ)
  /-- Sixteen bytes from the random source. -/
  | nonce
  /-- One frame of at most so many bytes; none where the peer closed the connection. -/
  | read (max : ℕ)
  | write (frame : List UInt8)
  | shutdown

/-- What a question is answered with. -/
abbrev Reply : Question → Type
  | .peerId => Option String
  | .encrypted => Bool
  | .readTimeout _ | .writeTimeout _ | .write _ | .readAhead _ => Except IoError Unit
  | .maxFrameAfter _ _ => Bool
  | .nonce => Nonce
  | .read _ => Except IoError (Option (List UInt8))
  | .maxFrame _ | .shutdown => Unit

/-- One end of a handshake. -/
abbrev Handshake (R : Type) := Dialog Question Reply LinkError R

def ask (q : Question) : Handshake (Reply q) := .query q

/-- The link's settled terms. -/
structure Established where
  trust : Trust
  theirs : Offer

def HANDSHAKE_MAX_FRAME : ℕ := 64 <<< 10

/-- Frames a message transport may read ahead once the peer is admitted. -/
def READ_AHEAD : ℕ := 64

def USIZE_MAX : ℕ := 2 ^ 64 - 1

def GUATIAO_ERR_BAD_VALUE : UInt32 := 7

def GUATIAO_ERR_UNSUPPORTED : UInt32 := 13

def BLANK_TOKEN : String := "token is empty or only white space, and proves nothing"

def Trust.name : Trust → String
  | .local => "local"
  | .trusted => "trusted"
  | .secure => "secure"
  | .serverTls => "server-tls"

/-- Goes on where the transport did what was asked. -/
def orIo {R : Type} : Except IoError R → Handshake R
  | .ok r => pure r
  | .error e => .fail (.io e)

def readHandshake : Handshake (List UInt8) := do
  let read ← ask (.read HANDSHAKE_MAX_FRAME)
  match ← orIo read with
  | some body => pure body
  | none => .fail (.io .unexpectedEof)

def writeFrame (frame : Frame) : Handshake Unit :=
  match frame.encode [] USIZE_MAX with
  | .ok bytes => do
    let written ← ask (.write bytes)
    orIo written
  | .error e => .fail (.protocol e)

/-- Says why, whether or not it arrives. -/
def goodbye (status : UInt32) (why : String) : Handshake Unit :=
  match (Frame.goodbye status why).encode [] USIZE_MAX with
  | .ok bytes => do
    let _ ← ask (.write bytes)
  | .error _ => pure ()

def refuseLink {R : Type} (status : UInt32) (why : String) : Handshake R := do
  goodbye status why
  ask .shutdown
  .fail (.refused status why)

def refuseIf (c : Prop) [Decidable c] (status : UInt32) (why : String) : Handshake Unit :=
  if c then refuseLink status why else pure ()

/-- Ends the connection without a word. -/
def hangUp {R : Type} (e : LinkError) : Handshake R := do
  ask .shutdown
  .fail e

def hangUpIf (c : Prop) [Decidable c] (e : LinkError) : Handshake Unit :=
  if c then hangUp e else pure ()

/-- Asks only where the answer matters. -/
def queryIf (c : Prop) [Decidable c] {R : Type} (q : Handshake R) (otherwise : R) : Handshake R :=
  if c then q else pure otherwise

/-- Bytes no peer can predict, where the build can make them. -/
def drawNonce (hashes : Hashes) : Handshake Nonce :=
  queryIf hashes.tcp (ask .nonce) (.replicate 16 0)

section

variable (hashes : Hashes) (words : ProtocolError → String) (seeds : Wire.Seeded)

/-- What a client checks before it says anything. -/
def clientReady (options : LinkOptions) : Handshake Unit := do
  queryIf (options.trust = .trusted ∧ hashes.tcp = false)
    (.fail (.trust "the trusted level needs guatiao-source-remote's `tcp` feature")) ()
  let proved ← queryIf (options.trust = .secure) (ask .peerId) (some "")
  hangUpIf (proved.isNone) (.trust
    "the secure level runs over a transport that proves the peer, `tls://`")
  let proved ← queryIf (options.trust = .serverTls) (ask .peerId) (some "")
  hangUpIf (proved.isNone) (.trust
    "server TLS runs over a transport that proves the server by its certificate")
  hangUpIf (options.trust = .serverTls ∧ options.key.isNone ∧ options.token.isNone) (.trust
    "at server TLS the client proves itself by a key or a token: name one")
  hangUpIf (options.token.any blank) (.trust s!"the {BLANK_TOKEN}")

/-- What a server answered: its offer, its nonce and its proof. -/
def welcomed (ours : Offer) : Except ProtocolError Frame → Handshake (Offer × Nonce × List UInt8)
  | .ok (.welcome nonce shown offered) => pure (.fromValue offered ours, nonce, shown)
  | .ok (.goodbye status message) => .fail (.refused status message)
  | .ok _ => .fail (.protocol (.field 0 "a WELCOME"))
  | .error e => .fail (.protocol e)

/-- Whether a WELCOME asks the client for the key. -/
def asked (options : LinkOptions) (shown : List UInt8) : Bool :=
  match options.trust with
  | .trusted => true
  | .serverTls => !shown.isEmpty
  | _ => false

/-- Checks the server's proof and answers with the client's. -/
def proveClient (options : LinkOptions) (nonce serverNonce : Nonce) (shown : List UInt8) :
    Handshake Unit := do
  hangUpIf (hashes.tcp = false) (.trust "the key proof needs guatiao-source-remote's `tcp` feature")
  match options.key with
  | none => hangUp (.trust
      (if options.trust = .trusted then "the trusted level needs a pre-shared key"
      else "the server proves clients by a pre-shared key, and this client has none"))
  | some key => do
    hangUpIf (¬proves hashes key SERVER nonce serverNonce shown)
      (.trust "the server does not hold this link's key")
    writeFrame (.proof (proof hashes key CLIENT nonce serverNonce))

/-- Sets up the client's end: HELLO, WELCOME and, where the key is asked, both proofs. -/
def client (options : LinkOptions) : Handshake Established := do
  clientReady hashes options
  let bounded ← ask (.readTimeout (some options.handshakeTimeout))
  orIo bounded
  let ours := options.offer options.token
  let nonce ← drawNonce hashes
  writeFrame (.hello options.trust nonce ours.toValue)
  let body ← readHandshake
  let (theirs, serverNonce, shown) ← welcomed ours (Frame.decode seeds body)
  queryIf (asked options shown) (proveClient hashes options nonce serverNonce shown) ()
  let _ ← ask (.readAhead READ_AHEAD)
  let unbounded ← ask (.readTimeout none)
  orIo unbounded
  let written ← ask (.writeTimeout options.timeout)
  orIo written
  pure ⟨options.trust, theirs⟩

/-- What a client said, at this trust level and over a transport that serves it. -/
def greeted (options : LinkOptions) : Except ProtocolError Frame → Handshake (Nonce × Offer)
  | .ok (.hello trust nonce offered) => do
    refuseIf (trust ≠ options.trust) GUATIAO_ERR_UNSUPPORTED
      s!"this listener serves the {options.trust.name} level, not {trust.name}"
    let proved ← queryIf (trust = .secure) (ask .peerId) (some "")
    refuseIf (proved.isNone) GUATIAO_ERR_UNSUPPORTED
      "the secure level runs over a transport that proves the peer, and this one proves none"
    let encrypted ← queryIf (trust = .serverTls) (ask .encrypted) true
    refuseIf (encrypted = false) GUATIAO_ERR_UNSUPPORTED
      "server TLS runs over a transport that encrypts and proves the server, and this one does neither"
    refuseIf (trust = .serverTls ∧ options.key.isNone ∧ options.token.isNone) GUATIAO_ERR_UNSUPPORTED
      "this server proves clients at server TLS by a key or a token, and has neither"
    refuseIf (options.token.any blank) GUATIAO_ERR_UNSUPPORTED s!"this server's {BLANK_TOKEN}"
    pure (nonce, .fromValue offered (options.offer none))
  | .ok _ => refuseLink GUATIAO_ERR_BAD_VALUE "a link starts with HELLO"
  | .error e => refuseLink GUATIAO_ERR_BAD_VALUE (words e)

/-- Raises the bound on what is read: at once, or behind the proof still to be read. -/
def raiseBound (options : LinkOptions) : Handshake Unit :=
  if provesKey options then do
    let _ ← ask (.maxFrameAfter 1 options.maxFrame)
  else do
    ask (.maxFrame options.maxFrame)
    let _ ← ask (.readAhead READ_AHEAD)

def needKey (options : LinkOptions) : Handshake (List UInt8) :=
  match options.key with
  | some key => pure key
  | none => .fail (.trust "the trusted level needs a pre-shared key")

/-- The server's own proof. -/
def proveServer (options : LinkOptions) (clientNonce nonce : Nonce) : Handshake (List UInt8) :=
  if hashes.tcp then do
    let key ← needKey options
    pure (proof hashes key SERVER clientNonce nonce)
  else refuseLink GUATIAO_ERR_UNSUPPORTED "this server cannot run the trusted level"

/-- Whether a frame is the client's proof. -/
def clientProved (options : LinkOptions) (clientNonce nonce : Nonce) :
    Except ProtocolError Frame → Handshake Bool
  | .ok (.proof shown) => do
    let key ← needKey options
    pure (proves hashes key CLIENT clientNonce nonce shown)
  | _ => pure false

/-- Reads the client's proof. -/
def checkClient (options : LinkOptions) (clientNonce nonce : Nonce) : Handshake Unit := do
  let body ← readHandshake
  let proved ← clientProved hashes options clientNonce nonce (Frame.decode seeds body)
  refuseIf (proved = false) GUATIAO_ERR_BAD_VALUE "the client does not hold this link's key"
  let _ ← ask (.readAhead READ_AHEAD)

/-- Sets up the server's end, refusing a client that asks another trust level or fails its check. -/
def server (options : LinkOptions) : Handshake Established := do
  let bounded ← ask (.readTimeout (some options.handshakeTimeout))
  orIo bounded
  let body ← readHandshake
  let (clientNonce, theirs) ← greeted words options (Frame.decode seeds body)
  refuseIf ((options.required hashes).any fun required => !required.admits hashes theirs.token)
    GUATIAO_ERR_BAD_VALUE "the client's token is not this server's"
  raiseBound options
  let nonce ← drawNonce hashes
  let shown ← queryIf (provesKey options) (proveServer hashes options clientNonce nonce) []
  writeFrame (.welcome nonce shown (options.offer none).toValue)
  queryIf (provesKey options) (checkClient hashes seeds options clientNonce nonce) ()
  ask (.maxFrame options.maxFrame)
  let unbounded ← ask (.readTimeout none)
  orIo unbounded
  let written ← ask (.writeTimeout options.timeout)
  orIo written
  pure ⟨options.trust, theirs⟩

end

end Guatiao.Remote
