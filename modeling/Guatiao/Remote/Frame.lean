import Guatiao.Remote.Codec

/-!
# Frames

One frame's body is its type and its fields; on a byte stream its length goes first. What is written
is accepted, and what is accepted is what is written, except that a target's numbering takes a bit of
its id.
-/

namespace Guatiao.Remote

open Lib

/-- The four bytes a handshake starts with. -/
def MAGIC : List UInt8 := [0x47, 0x54, 0x52, 0x4d]

/-- This protocol's version. -/
def VERSION : UInt8 := 1

/-- Frame types. -/
inductive Kind
  | hello | welcome | proof | list | open | close | call | reply | cancel | release | ping | pong
  | goodbye
  deriving DecidableEq

def Kind.byte : Kind → UInt8
  | .hello => 0x01
  | .welcome => 0x02
  | .proof => 0x03
  | .list => 0x04
  | .open => 0x05
  | .close => 0x06
  | .call => 0x10
  | .reply => 0x11
  | .cancel => 0x12
  | .release => 0x13
  | .ping => 0x14
  | .pong => 0x15
  | .goodbye => 0x16

/-- The type a byte names, in this version. -/
def Kind.ofByte? (b : UInt8) : Option Kind :=
  match b.toNat with
  | 0x01 => some .hello
  | 0x02 => some .welcome
  | 0x03 => some .proof
  | 0x04 => some .list
  | 0x05 => some .open
  | 0x06 => some .close
  | 0x10 => some .call
  | 0x11 => some .reply
  | 0x12 => some .cancel
  | 0x13 => some .release
  | 0x14 => some .ping
  | 0x15 => some .pong
  | 0x16 => some .goodbye
  | _ => none

/-- How far a link trusts its peer, chosen by its configuration. -/
inductive Trust
  /-- The same machine. -/
  | local
  /-- A network the owner isolates: a key proved in the handshake. -/
  | trusted
  /-- Any network, mutual TLS. -/
  | secure
  /-- Any network, server TLS. -/
  | serverTls
  deriving DecidableEq

def Trust.byte : Trust → UInt8
  | .local => 0
  | .trusted => 1
  | .secure => 2
  | .serverTls => 3

def Trust.fromByte (b : UInt8) (offset : ℕ) : Except ProtocolError Trust :=
  match b.toNat with
  | 0 => .ok .local
  | 1 => .ok .trusted
  | 2 => .ok .secure
  | 3 => .ok .serverTls
  | _ => .error (.field offset "a trust level")

/-- Who a call is for, in the receiver's own numbering. -/
inductive Target
  /-- A provider's table, by the id the receiver's catalog gave it. -/
  | table (id : UInt64)
  /-- An object the receiver holds and the sender was given. -/
  | object (id : UInt64)
  deriving DecidableEq

def Target.code : Target → UInt64
  | .table id => id <<< 1
  | .object id => id <<< 1 ||| 1

def Target.fromCode (code : UInt64) : Target :=
  if code &&& 1 = 0 then .table (code >>> 1) else .object (code >>> 1)

def Target.id : Target → UInt64
  | .table id => id
  | .object id => id

/-- One frame's body. A call's arguments and a reply's answer stay bytes. -/
inductive Frame
  /-- The client's first frame. -/
  | hello (trust : Trust) (nonce : List.Vector UInt8 16) (options : Value)
  /-- The server's answer. -/
  | welcome (nonce : List.Vector UInt8 16) (proof : List UInt8) (options : Value)
  /-- The client's proof of the key. -/
  | proof (proof : List UInt8)
  /-- Asks the catalog. -/
  | list (call : UInt64)
  /-- Opens a listed library. -/
  | open (call : UInt64) (library stamp : String)
  /-- Lets an opened library go. -/
  | close (library stamp : String)
  | call (call parent : UInt64) (target : Target) (slot : UInt64) (args : List UInt8)
  /-- The answer to a call, a list or an open: status 0 and the answer, or why not. -/
  | reply (call : UInt64) (status : UInt32) (body : List UInt8)
  /-- The caller no longer waits for a call. -/
  | cancel (call : UInt64)
  /-- An object the receiver gave is let go. -/
  | release (object : UInt64)
  | ping (n : UInt64)
  | pong (n : UInt64)
  /-- The link is ending. -/
  | goodbye (status : UInt32) (message : String)

/-- Starts a frame: room for its length. -/
def start (out : List UInt8) (kind : Kind) : List UInt8 := out ++ [0, 0, 0, 0, kind.byte]

/-- Ends a frame started at an offset, whose body goes on for `more` bytes, with its length. -/
def finishWith (out : List UInt8) (offset more max : ℕ) : Except ProtocolError (List UInt8) :=
  let len := out.length - offset - 4 + more
  if max < len ∨ UInt32.size - 1 < len then .error (.tooLarge len max)
  else .ok (out.take offset ++ leBytes 4 len ++ out.drop (offset + 4))

/-- Ends a frame started at an offset with its length. -/
def finish (out : List UInt8) (offset max : ℕ) : Except ProtocolError (List UInt8) :=
  finishWith out offset 0 max

/-- Starts a CALL: everything up to its arguments. -/
def startCall (out : List UInt8) (call parent : UInt64) (target : Target) (slot : UInt64) :
    List UInt8 :=
  start out .call ++ putUint call ++ putUint parent ++ putUint target.code ++ putUint slot

/-- Starts a REPLY: everything up to its body. -/
def startReply (out : List UInt8) (call : UInt64) (status : UInt32) : List UInt8 :=
  start out .reply ++ putUint call ++ putUint status.toUInt64

/-- The frame behind what was written, its length not yet known. -/
def Frame.put (out : List UInt8) : Frame → List UInt8
  | .hello trust nonce options =>
    putValue (start out .hello ++ MAGIC ++ [VERSION] ++ [trust.byte] ++ nonce.toList) options
  | .welcome nonce shown options =>
    putValue (putBytes (start out .welcome ++ MAGIC ++ [VERSION] ++ nonce.toList) shown) options
  | .proof shown => putBytes (start out .proof) shown
  | .list id => start out .list ++ putUint id
  | .open id library stamp => putText (putText (start out .open ++ putUint id) library) stamp
  | .close library stamp => putText (putText (start out .close) library) stamp
  | .call id parent target slot args => startCall out id parent target slot ++ args
  | .reply id status body => startReply out id status ++ body
  | .cancel id => start out .cancel ++ putUint id
  | .release object => start out .release ++ putUint object
  | .ping n => start out .ping ++ putUint n
  | .pong n => start out .pong ++ putUint n
  | .goodbye status message => putText (start out .goodbye ++ putUint status.toUInt64) message

/-- Appends a frame, its length first. -/
def Frame.encode (frame : Frame) (out : List UInt8) (max : ℕ) : Except ProtocolError (List UInt8) :=
  finish (frame.put out) out.length max

namespace Reader

/-- What both frames of a handshake start with. -/
def handshake : Field Unit := fun r => do
  let (magic, r) ← fixed 4 r
  if magic.toList ≠ MAGIC then .error .notThisProtocol
  else
    let (version, r) ← byte r
    if version ≠ VERSION then .error (.version version) else .ok ((), r)

def trust : Field Trust := fun r => do
  let (b, r') ← byte r
  let trust ← Trust.fromByte b r.pos
  .ok (trust, r')

def target : Field Target := fun r => (uint r).map fun p => (.fromCode p.1, p.2)

def status : Field UInt32 := fun r => do
  let (n, r') ← uint r
  if n.toNat < UInt32.size then .ok (n.toUInt32, r') else .error (.field r.pos "a status")

/-- What is left, unread. -/
def remaining : Field (List UInt8) := fun r => .ok (r.rest, ⟨[], r.pos + r.rest.length⟩)

end Reader

open Reader in
/-- The fields of a frame of one type. -/
def Frame.fields (seeds : Wire.Seeded) (r : Reader) : Kind → Except ProtocolError (Frame × Reader)
  | .hello => do
    let (_, r) ← handshake r
    let (trust, r) ← trust r
    let (nonce, r) ← fixed 16 r
    let (options, r) ← value seeds r
    .ok (.hello trust nonce options, r)
  | .welcome => do
    let (_, r) ← handshake r
    let (nonce, r) ← fixed 16 r
    let (shown, r) ← bytes r
    let (options, r) ← value seeds r
    .ok (.welcome nonce shown options, r)
  | .proof => do
    let (shown, r) ← bytes r
    .ok (.proof shown, r)
  | .list => do
    let (id, r) ← uint r
    .ok (.list id, r)
  | .open => do
    let (id, r) ← uint r
    let (library, r) ← text r
    let (stamp, r) ← text r
    .ok (.open id library stamp, r)
  | .close => do
    let (library, r) ← text r
    let (stamp, r) ← text r
    .ok (.close library stamp, r)
  | .call => do
    let (id, r) ← uint r
    let (parent, r) ← uint r
    let (target, r) ← target r
    let (slot, r) ← uint r
    let (args, r) ← remaining r
    .ok (.call id parent target slot args, r)
  | .reply => do
    let (id, r) ← uint r
    let (status, r) ← status r
    let (body, r) ← remaining r
    .ok (.reply id status body, r)
  | .cancel => do
    let (id, r) ← uint r
    .ok (.cancel id, r)
  | .release => do
    let (object, r) ← uint r
    .ok (.release object, r)
  | .ping => do
    let (n, r) ← uint r
    .ok (.ping n, r)
  | .pong => do
    let (n, r) ← uint r
    .ok (.pong n, r)
  | .goodbye => do
    let (status, r) ← status r
    let (message, r) ← text r
    .ok (.goodbye status message, r)

/-- Reads one body. -/
def Frame.decode (seeds : Wire.Seeded) (body : List UInt8) : Except ProtocolError Frame := do
  let (kind, r) ← Reader.byte (.start body)
  match Kind.ofByte? kind with
  | none => .error (.unknownFrame kind)
  | some kind => do
    let (frame, r) ← Frame.fields seeds r kind
    r.finish
    .ok frame

end Guatiao.Remote
