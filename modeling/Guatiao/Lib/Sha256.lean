import Mathlib.Data.Vector.Basic

/-!
# SHA-256, and the keyed hash over it

The hash of FIPS 180-4, block by block, and HMAC with it.
-/

namespace Guatiao.Lib.Sha256

/-- The eight words a block is mixed into. -/
structure State where
  a : UInt32
  b : UInt32
  c : UInt32
  d : UInt32
  e : UInt32
  f : UInt32
  g : UInt32
  h : UInt32

/-- What each round adds. -/
def constants : List UInt32 :=
  [0x428a2f98, 0x71374491, 0xb5c0fbcf, 0xe9b5dba5, 0x3956c25b, 0x59f111f1, 0x923f82a4, 0xab1c5ed5,
    0xd807aa98, 0x12835b01, 0x243185be, 0x550c7dc3, 0x72be5d74, 0x80deb1fe, 0x9bdc06a7, 0xc19bf174,
    0xe49b69c1, 0xefbe4786, 0x0fc19dc6, 0x240ca1cc, 0x2de92c6f, 0x4a7484aa, 0x5cb0a9dc, 0x76f988da,
    0x983e5152, 0xa831c66d, 0xb00327c8, 0xbf597fc7, 0xc6e00bf3, 0xd5a79147, 0x06ca6351, 0x14292967,
    0x27b70a85, 0x2e1b2138, 0x4d2c6dfc, 0x53380d13, 0x650a7354, 0x766a0abb, 0x81c2c92e, 0x92722c85,
    0xa2bfe8a1, 0xa81a664b, 0xc24b8b70, 0xc76c51a3, 0xd192e819, 0xd6990624, 0xf40e3585, 0x106aa070,
    0x19a4c116, 0x1e376c08, 0x2748774c, 0x34b0bcb5, 0x391c0cb3, 0x4ed8aa4a, 0x5b9cca4f, 0x682e6ff3,
    0x748f82ee, 0x78a5636f, 0x84c87814, 0x8cc70208, 0x90befffa, 0xa4506ceb, 0xbef9a3f7, 0xc67178f2]

def initial : State :=
  ⟨0x6a09e667, 0xbb67ae85, 0x3c6ef372, 0xa54ff53a, 0x510e527f, 0x9b05688c, 0x1f83d9ab, 0x5be0cd19⟩

def rotate (x by_ : UInt32) : UInt32 := x >>> by_ ||| x <<< (32 - by_)

/-- One round, with what it adds and its word of the block. -/
def State.round (s : State) (k w : UInt32) : State :=
  let sum := rotate s.e 6 ^^^ rotate s.e 11 ^^^ rotate s.e 25
  let choice := (s.e &&& s.f) ^^^ (~~~s.e &&& s.g)
  let first := s.h + sum + choice + k + w
  let sum := rotate s.a 2 ^^^ rotate s.a 13 ^^^ rotate s.a 22
  let majority := (s.a &&& s.b) ^^^ (s.a &&& s.c) ^^^ (s.b &&& s.c)
  ⟨first + (sum + majority), s.a, s.b, s.c, s.d + first, s.e, s.f, s.g⟩

/-- The word sixteen after the first of some. -/
def next (words : List UInt32) : UInt32 :=
  let early := words.getD 1 0
  let late := words.getD 14 0
  words.getD 0 0 + (rotate early 7 ^^^ rotate early 18 ^^^ early >>> 3) + words.getD 9 0 +
    (rotate late 17 ^^^ rotate late 19 ^^^ late >>> 10)

/-- The rounds left, with the sixteen words that come next. -/
def rounds : List UInt32 → List UInt32 → State → State
  | [], _, s => s
  | k :: ks, words, s => rounds ks (words.tail ++ [next words]) (s.round k (words.getD 0 0))

def State.add (s t : State) : State :=
  ⟨s.a + t.a, s.b + t.b, s.c + t.c, s.d + t.d, s.e + t.e, s.f + t.f, s.g + t.g, s.h + t.h⟩

/-- The words some bytes spell, four by four. -/
def words : List UInt8 → List UInt32
  | a :: b :: c :: d :: rest =>
    (a.toUInt32 <<< 24 ||| b.toUInt32 <<< 16 ||| c.toUInt32 <<< 8 ||| d.toUInt32) :: words rest
  | _ => []

/-- So many blocks of sixteen words mixed in. -/
def blocks : ℕ → List UInt32 → State → State
  | 0, _, s => s
  | n + 1, message, s => blocks n (message.drop 16) (s.add (rounds constants (message.take 16) s))

/-- A message up to whole blocks, its length in bits at their end. -/
def padded (message : List UInt8) : List UInt8 :=
  let bits := 8 * message.length
  message ++ 0x80 :: List.replicate ((119 - message.length % 64) % 64) 0 ++
    (List.range 8).map fun i => .ofNat (bits >>> (8 * (7 - i)))

def bytes (w : UInt32) : List UInt8 := [(w >>> 24).toUInt8, (w >>> 16).toUInt8, (w >>> 8).toUInt8, w.toUInt8]

/-- The hash of a message. -/
def sha256 (message : List UInt8) : List.Vector UInt8 32 :=
  let padded := padded message
  let s := blocks (padded.length / 64) (words padded) initial
  ⟨bytes s.a ++ bytes s.b ++ bytes s.c ++ bytes s.d ++ bytes s.e ++ bytes s.f ++ bytes s.g ++ bytes s.h,
    rfl⟩

/-- HMAC: the hash of a message behind its key, twice. -/
def hmac (key message : List UInt8) : List.Vector UInt8 32 :=
  let key := if 64 < key.length then (sha256 key).toList else key
  let block := key ++ List.replicate (64 - key.length) 0
  sha256 (block.map (· ^^^ 0x5c) ++ (sha256 (block.map (· ^^^ 0x36) ++ message)).toList)

set_option maxRecDepth 8000 in
example : (sha256 [0x61, 0x62, 0x63]).toList.take 4 = [0xba, 0x78, 0x16, 0xbf] := by decide +kernel

end Guatiao.Lib.Sha256
