import Mathlib
import Guatiao.Lib.Chunks
import Guatiao.Value.Convert

/-!
# Base64

Three bytes are written as four characters, and a last piece of one or two bytes is padded. The
reader takes a padded last piece whatever the bits below its last whole byte are.
-/

namespace Guatiao.Serde

open Lib

def ALPHABET : List UInt8 :=
  "ABCDEFGHIJKLMNOPQRSTUVWXYZabcdefghijklmnopqrstuvwxyz0123456789+/".toList.map fun c =>
    UInt8.ofNat c.toNat

/-- The four sextets of three bytes. -/
def sextets (n : ℕ) : List ℕ := [n >>> 18, n >>> 12 &&& 63, n >>> 6 &&& 63, n &&& 63]

/-- What is pushed for one chunk: one byte fills two sextets, two bytes three, and the rest is
padding. -/
def writeChunk (chunk : List UInt8) : List UInt8 :=
  let b := [chunk[0]?.getD 0, chunk[1]?.getD 0, chunk[2]?.getD 0].map UInt8.toNat
  let n := b[0]! <<< 16 ||| b[1]! <<< 8 ||| b[2]!
  (sextets n).zipIdx.map fun (s, i) => if i ≤ chunk.length then ALPHABET[s]! else 0x3d

/-- `base64` -/
def base64 (bytes : List UInt8) : String :=
  .ofList (((chunks 3 bytes).flatMap writeChunk).map fun b => Char.ofNat b.toNat)

def sextet (c : UInt8) : Option ℕ :=
  let c := c.toNat
  if 65 ≤ c ∧ c ≤ 90 then some (c - 65)
  else if 97 ≤ c ∧ c ≤ 122 then some (c - 97 + 26)
  else if 48 ≤ c ∧ c ≤ 57 then some (c - 48 + 52)
  else if c = 43 then some 62
  else if c = 47 then some 63
  else none

/-- A number's four bytes, the highest first. -/
def toBeBytes (n : ℕ) : List UInt8 := [n >>> 24, n >>> 16, n >>> 8, n].map UInt8.ofNat

/-- One character of a chunk, the padding a zero where the chunk is the last. -/
def readSextet (last : Bool) (pad n : ℕ) : UInt8 × ℕ → Option ℕ
  | (c, i) => do
    let s ← (if 4 - pad ≤ i then (if last then some 0 else none) else sextet c)
    some (n <<< 6 ||| s)

/-- One chunk of the reader's loop. -/
def readChunk (last : Bool) (chunk : List UInt8) : Option (List UInt8) :=
  let pad := (chunk.reverse.takeWhile (· == 0x3d)).length
  if 2 < pad then none
  else do
    let n ← chunk.zipIdx.foldlM (readSextet last pad) 0
    some ((toBeBytes n).extract 1 (4 - pad))

/-- The loop over the chunks; one is the last where it begins four before the end. -/
def readChunks (len : ℕ) (out : List UInt8) (read : List (List UInt8 × ℕ)) : Option (List UInt8) :=
  read.foldlM (fun out (chunk, i) => (readChunk (4 * i == len - 4) chunk).map (out ++ ·)) out

/-- `from_base64` -/
def fromBase64 (text : String) : Option (List UInt8) :=
  let bytes := asBytes text
  if bytes.length % 4 ≠ 0 then none
  else readChunks bytes.length [] (chunks 4 bytes).zipIdx

variable {s sb sc : ℕ} {bytes chunk piece : List UInt8}

theorem sextet_alphabet (h : s < 64) : sextet ALPHABET[s]! = some s := by
  have hall : ∀ s : Fin 64, sextet ALPHABET[s.val]! = some s.val := by decide +kernel
  exact hall ⟨s, h⟩

theorem alphabet_sextet {c : UInt8} (h : sextet c = some s) :
    s < 64 ∧ ALPHABET[s]! = c := by
  have hall : ∀ i : Fin 256, ∀ s ∈ sextet (UInt8.ofNat i.val),
      s < 64 ∧ ALPHABET[s]! = UInt8.ofNat i.val := by decide +kernel
  have hc := hall ⟨c.toNat, c.toNat_lt⟩ s
  simp only [UInt8.ofNat_toNat] at hc
  exact hc h

@[simp] theorem sextet_padding : sextet 0x3d = none := by decide

theorem alphabet_ne (h : s < 64) : ALPHABET[s]! ≠ 0x3d := by
  intro heq
  have hs := sextet_alphabet h
  rw [heq, sextet_padding] at hs
  cases hs

theorem alphabet_lt (s : ℕ) : ALPHABET[s]!.toNat < 128 := by
  have hall : ∀ b ∈ ALPHABET, b.toNat < 128 := by decide +kernel
  rcases Nat.lt_or_ge s ALPHABET.length with h | h
  · rw [getElem!_pos ALPHABET s h]
    exact hall _ (List.getElem_mem h)
  · rw [getElem!_neg ALPHABET s (by omega)]
    decide

theorem shiftLeft_or {n w : ℕ} (h : s < 2 ^ w) : n <<< w ||| s = n * 2 ^ w + s := by
  rw [← Nat.shiftLeft_add_eq_or_of_lt h, Nat.shiftLeft_eq]

theorem sextets_eq (n : ℕ) : sextets n = [n / 262144, n / 4096 % 64, n / 64 % 64, n % 64] := by
  have hand (m : ℕ) : m &&& 63 = m % 64 := Nat.and_two_pow_sub_one_eq_mod m 6
  simp [sextets, hand, Nat.shiftRight_eq_div_pow]

theorem joined_eq (x y z : UInt8) :
    x.toNat <<< 16 ||| y.toNat <<< 8 ||| z.toNat = x.toNat * 65536 + y.toNat * 256 + z.toNat := by
  have hy : y.toNat < 2 ^ 8 := y.toNat_lt
  have hz : z.toNat < 2 ^ 8 := z.toNat_lt
  have hhigh : x.toNat <<< 16 ||| y.toNat <<< 8 = (x.toNat <<< 8 ||| y.toNat) <<< 8 := by
    rw [Nat.shiftLeft_or_distrib, ← Nat.shiftLeft_add]
  rw [hhigh, shiftLeft_or hz, shiftLeft_or hy]
  ring

theorem writeChunk_three (x y z : UInt8) :
    writeChunk [x, y, z] = [ALPHABET[x.toNat / 4]!, ALPHABET[x.toNat % 4 * 16 + y.toNat / 16]!,
      ALPHABET[y.toNat % 16 * 4 + z.toNat / 64]!, ALPHABET[z.toNat % 64]!] := by
  have hy := y.toNat_lt
  have hz := z.toNat_lt
  have h0 : (x.toNat * 65536 + y.toNat * 256 + z.toNat) / 262144 = x.toNat / 4 := by omega
  have h1 : (x.toNat * 65536 + y.toNat * 256 + z.toNat) / 4096 % 64 =
      x.toNat % 4 * 16 + y.toNat / 16 := by omega
  have h2 : (x.toNat * 65536 + y.toNat * 256 + z.toNat) / 64 % 64 =
      y.toNat % 16 * 4 + z.toNat / 64 := by omega
  have h3 : (x.toNat * 65536 + y.toNat * 256 + z.toNat) % 64 = z.toNat % 64 := by omega
  simp [writeChunk, joined_eq, sextets_eq, h0, h1, h2, h3, List.zipIdx]

theorem writeChunk_two (x y : UInt8) :
    writeChunk [x, y] = [ALPHABET[x.toNat / 4]!, ALPHABET[x.toNat % 4 * 16 + y.toNat / 16]!,
      ALPHABET[y.toNat % 16 * 4]!, 0x3d] := by
  have hjoined := joined_eq x y 0
  have hy := y.toNat_lt
  have h0 : (x.toNat * 65536 + y.toNat * 256) / 262144 = x.toNat / 4 := by omega
  have h1 : (x.toNat * 65536 + y.toNat * 256) / 4096 % 64 =
      x.toNat % 4 * 16 + y.toNat / 16 := by omega
  have h2 : (x.toNat * 65536 + y.toNat * 256) / 64 % 64 = y.toNat % 16 * 4 := by omega
  simp only [UInt8.toNat_zero, Nat.or_zero, Nat.add_zero] at hjoined
  simp [writeChunk, hjoined, sextets_eq, h0, h1, h2, List.zipIdx]

theorem writeChunk_one (x : UInt8) :
    writeChunk [x] = [ALPHABET[x.toNat / 4]!, ALPHABET[x.toNat % 4 * 16]!, 0x3d, 0x3d] := by
  have hjoined : x.toNat <<< 16 = x.toNat * 65536 := Nat.shiftLeft_eq _ _
  have h0 : x.toNat * 65536 / 262144 = x.toNat / 4 := by omega
  have h1 : x.toNat * 65536 / 4096 % 64 = x.toNat % 4 * 16 := by omega
  simp [writeChunk, hjoined, sextets_eq, h0, h1, List.zipIdx]

/-- The first byte of four sextets. -/
def firstByte (sa sb : ℕ) : UInt8 := .ofNat (sa * 4 + sb / 16)

def secondByte (sb sc : ℕ) : UInt8 := .ofNat (sb % 16 * 16 + sc / 4)

def thirdByte (sc sd : ℕ) : UInt8 := .ofNat (sc % 4 * 64 + sd)

theorem toBeBytes_eq {sa sd : ℕ} (ha : sa < 64) (hb : sb < 64) (hc : sc < 64)
    (hd : sd < 64) : ((((0 <<< 6 ||| sa) <<< 6 ||| sb) <<< 6 ||| sc) <<< 6 ||| sd |> toBeBytes) =
      [0, firstByte sa sb, secondByte sb sc, thirdByte sc sd] := by
  rw [shiftLeft_or (w := 6) hd, shiftLeft_or (w := 6) hc, shiftLeft_or (w := 6) hb,
    shiftLeft_or (w := 6) ha]
  simp only [toBeBytes, Nat.shiftRight_eq_div_pow, List.map_cons, List.map_nil, firstByte,
    secondByte, thirdByte, List.cons.injEq, and_true]
  refine ⟨?_, ?_, ?_, ?_⟩ <;> apply UInt8.toNat_inj.mp <;>
    simp only [UInt8.toNat_ofNat', UInt8.toNat_zero] <;> omega

variable {last : Bool} {a b c d : UInt8}

theorem readChunk_three (h : d ≠ 0x3d) : readChunk last [a, b, c, d] =
    (sextet a).bind fun sa => (sextet b).bind fun sb => (sextet c).bind fun sc =>
      (sextet d).bind fun sd => some [firstByte sa sb, secondByte sb sc, thirdByte sc sd] := by
  rcases ha : sextet a with _ | sa
  · simp [readChunk, List.zipIdx, readSextet, h, ha]
  rcases hb : sextet b with _ | sb
  · simp [readChunk, List.zipIdx, readSextet, h, ha, hb]
  rcases hc : sextet c with _ | sc
  · simp [readChunk, List.zipIdx, readSextet, h, ha, hb, hc]
  rcases hd : sextet d with _ | sd
  · simp [readChunk, List.zipIdx, readSextet, h, ha, hb, hc, hd]
  have hbytes := toBeBytes_eq (alphabet_sextet ha).1 (alphabet_sextet hb).1 (alphabet_sextet hc).1
    (alphabet_sextet hd).1
  simp at hbytes
  simp [readChunk, List.zipIdx, readSextet, h, ha, hb, hc, hd, hbytes]

theorem readChunk_two (h : c ≠ 0x3d) : readChunk true [a, b, c, 0x3d] =
    (sextet a).bind fun sa => (sextet b).bind fun sb => (sextet c).bind fun sc =>
      some [firstByte sa sb, secondByte sb sc] := by
  rcases ha : sextet a with _ | sa
  · simp [readChunk, List.zipIdx, readSextet, h, ha]
  rcases hb : sextet b with _ | sb
  · simp [readChunk, List.zipIdx, readSextet, h, ha, hb]
  rcases hc : sextet c with _ | sc
  · simp [readChunk, List.zipIdx, readSextet, h, ha, hb, hc]
  have hbytes := toBeBytes_eq (alphabet_sextet ha).1 (alphabet_sextet hb).1 (alphabet_sextet hc).1
    (Nat.zero_lt_succ 63)
  simp only [Nat.zero_shiftLeft, Nat.zero_or, Nat.or_zero] at hbytes
  simp [readChunk, List.zipIdx, readSextet, h, ha, hb, hc, hbytes]

theorem readChunk_one (h : b ≠ 0x3d) : readChunk true [a, b, 0x3d, 0x3d] =
    (sextet a).bind fun sa => (sextet b).bind fun sb => some [firstByte sa sb] := by
  rcases ha : sextet a with _ | sa
  · simp [readChunk, List.zipIdx, readSextet, h, ha]
  rcases hb : sextet b with _ | sb
  · simp [readChunk, List.zipIdx, readSextet, h, ha, hb]
  have hbytes := toBeBytes_eq (alphabet_sextet ha).1 (alphabet_sextet hb).1 (Nat.zero_lt_succ 63)
    (Nat.zero_lt_succ 63)
  simp only [Nat.zero_shiftLeft, Nat.zero_or, Nat.or_zero] at hbytes
  simp [readChunk, List.zipIdx, readSextet, h, ha, hb, hbytes]

theorem readChunk_padding : readChunk last [a, 0x3d, 0x3d, 0x3d] = none := by
  by_cases h : a = 0x3d <;> simp [readChunk, h]

theorem readChunk_false : readChunk false [a, b, c, 0x3d] = none := by
  have hlast : ∀ pad n, readSextet false (pad + 1) n (0x3d, 3) = none := by
    intro pad n
    rw [readSextet, if_pos (by omega)]
    rfl
  have hpad : ∃ pad, ([a, b, c, 0x3d].reverse.takeWhile (· == 0x3d)).length = pad + 1 :=
    ⟨([c, b, a].takeWhile (· == 0x3d)).length, by simp⟩
  obtain ⟨pad, hpad⟩ := hpad
  have hsplit : [a, b, c, 0x3d].zipIdx = [a, b, c].zipIdx ++ [((0x3d : UInt8), 3)] := rfl
  rw [readChunk, hpad, hsplit, List.foldlM_append]
  simp [hlast]

/-- A padded chunk that holds a bit below its last whole byte. -/
inductive LooseChunk : List UInt8 → Prop
  | one {a b : UInt8} {s : ℕ} (ha : (sextet a).isSome) (hb : sextet b = some s)
      (hs : s % 16 ≠ 0) : LooseChunk [a, b, 0x3d, 0x3d]
  | two {a b c : UInt8} {s : ℕ} (ha : (sextet a).isSome) (hb : (sextet b).isSome)
      (hc : sextet c = some s) (hs : s % 4 ≠ 0) : LooseChunk [a, b, c, 0x3d]

theorem readChunk_writeChunk_three (x y z : UInt8) :
    readChunk last (writeChunk [x, y, z]) = some [x, y, z] := by
  have hx := x.toNat_lt
  have hy := y.toNat_lt
  have hz := z.toNat_lt
  rw [writeChunk_three, readChunk_three (alphabet_ne (by omega)), sextet_alphabet (by omega),
    sextet_alphabet (by omega), sextet_alphabet (by omega), sextet_alphabet (by omega)]
  simp only [Option.bind_some, firstByte, secondByte, thirdByte, Option.some.injEq,
    List.cons.injEq, and_true]
  refine ⟨?_, ?_, ?_⟩ <;> apply UInt8.toNat_inj.mp <;> simp only [UInt8.toNat_ofNat'] <;> omega

theorem readChunk_writeChunk_two (x y : UInt8) :
    readChunk true (writeChunk [x, y]) = some [x, y] := by
  have hx := x.toNat_lt
  have hy := y.toNat_lt
  rw [writeChunk_two, readChunk_two (alphabet_ne (by omega)), sextet_alphabet (by omega),
    sextet_alphabet (by omega), sextet_alphabet (by omega)]
  simp only [Option.bind_some, firstByte, secondByte, Option.some.injEq, List.cons.injEq, and_true]
  refine ⟨?_, ?_⟩ <;> apply UInt8.toNat_inj.mp <;> simp only [UInt8.toNat_ofNat'] <;> omega

theorem readChunk_writeChunk_one (x : UInt8) :
    readChunk true (writeChunk [x]) = some [x] := by
  have hx := x.toNat_lt
  rw [writeChunk_one, readChunk_one (alphabet_ne (by omega)), sextet_alphabet (by omega),
    sextet_alphabet (by omega)]
  simp only [Option.bind_some, firstByte, Option.some.injEq, List.cons.injEq, and_true]
  apply UInt8.toNat_inj.mp
  simp only [UInt8.toNat_ofNat']
  omega

theorem firstByte_toNat {sa : ℕ} (ha : sa < 64) (hb : sb < 64) :
    (firstByte sa sb).toNat = sa * 4 + sb / 16 := by
  rw [firstByte, UInt8.toNat_ofNat', Nat.mod_eq_of_lt (by omega)]

theorem secondByte_toNat (hc : sc < 64) :
    (secondByte sb sc).toNat = sb % 16 * 16 + sc / 4 := by
  rw [secondByte, UInt8.toNat_ofNat', Nat.mod_eq_of_lt (by omega)]

theorem thirdByte_toNat {sd : ℕ} (hd : sd < 64) :
    (thirdByte sc sd).toNat = sc % 4 * 64 + sd := by
  rw [thirdByte, UInt8.toNat_ofNat', Nat.mod_eq_of_lt (by omega)]

theorem alphabet_inj {t : ℕ} (hs : s < 64) (ht : t < 64) :
    ALPHABET[s]! = ALPHABET[t]! ↔ s = t := by
  refine ⟨fun heq => ?_, fun heq => by rw [heq]⟩
  have hread := sextet_alphabet hs
  rw [heq, sextet_alphabet ht, Option.some.injEq] at hread
  exact hread.symm

theorem writeChunk_readChunk_three (hd : d ≠ 0x3d) (hread : readChunk last [a, b, c, d] = some bytes) :
    bytes.length = 3 ∧ writeChunk bytes = [a, b, c, d] ∧
      ∀ x ∈ [a, b, c, d], (sextet x).isSome := by
  rw [readChunk_three hd] at hread
  simp only [Option.bind_eq_some_iff, Option.some.injEq] at hread
  obtain ⟨sa, ha, sb, hb, sc, hc, sd, hd, rfl⟩ := hread
  have hchars : ∀ x ∈ [a, b, c, d], (sextet x).isSome := by simp [ha, hb, hc, hd]
  obtain ⟨hsa, rfl⟩ := alphabet_sextet ha
  obtain ⟨hsb, rfl⟩ := alphabet_sextet hb
  obtain ⟨hsc, rfl⟩ := alphabet_sextet hc
  obtain ⟨hsd, rfl⟩ := alphabet_sextet hd
  refine ⟨rfl, ?_, hchars⟩
  rw [writeChunk_three, firstByte_toNat hsa hsb, secondByte_toNat hsc, thirdByte_toNat hsd]
  have h0 : (sa * 4 + sb / 16) / 4 = sa := by omega
  have h1 : (sa * 4 + sb / 16) % 4 * 16 + (sb % 16 * 16 + sc / 4) / 16 = sb := by omega
  have h2 : (sb % 16 * 16 + sc / 4) % 16 * 4 + (sc % 4 * 64 + sd) / 64 = sc := by omega
  have h3 : (sc % 4 * 64 + sd) % 64 = sd := by omega
  rw [h0, h1, h2, h3]

theorem writeChunk_readChunk_one (hb : b ≠ 0x3d) (hread : readChunk true [a, b, 0x3d, 0x3d] = some bytes) :
    bytes.length = 1 ∧ (writeChunk bytes = [a, b, 0x3d, 0x3d] ↔ ¬ LooseChunk [a, b, 0x3d, 0x3d]) := by
  rw [readChunk_one hb] at hread
  simp only [Option.bind_eq_some_iff, Option.some.injEq] at hread
  obtain ⟨sa, ha, sb, hb', rfl⟩ := hread
  obtain ⟨hsa, hca⟩ := alphabet_sextet ha
  obtain ⟨hsb, hcb⟩ := alphabet_sextet hb'
  have h0 : (sa * 4 + sb / 16) / 4 = sa := by omega
  refine ⟨rfl, ?_⟩
  rw [writeChunk_one, firstByte_toNat hsa hsb, h0, hca, ← hcb]
  simp only [List.cons.injEq, true_and, and_true]
  rw [alphabet_inj (by omega) hsb, hcb]
  constructor
  · intro heq hloose
    cases hloose with
    | one _ hs hne =>
      rw [hb', Option.some.injEq] at hs
      omega
    | two _ _ hs _ => simp at hs
  · intro hloose
    by_contra hne
    exact hloose (.one (by simp [ha]) hb' (by omega))

theorem writeChunk_readChunk_two (hc : c ≠ 0x3d) (hread : readChunk true [a, b, c, 0x3d] = some bytes) :
    bytes.length = 2 ∧ (writeChunk bytes = [a, b, c, 0x3d] ↔ ¬ LooseChunk [a, b, c, 0x3d]) := by
  rw [readChunk_two hc] at hread
  simp only [Option.bind_eq_some_iff, Option.some.injEq] at hread
  obtain ⟨sa, ha, sb, hb, sc, hc', rfl⟩ := hread
  obtain ⟨hsa, hca⟩ := alphabet_sextet ha
  obtain ⟨hsb, hcb⟩ := alphabet_sextet hb
  obtain ⟨hsc, hcc⟩ := alphabet_sextet hc'
  have h0 : (sa * 4 + sb / 16) / 4 = sa := by omega
  have h1 : (sa * 4 + sb / 16) % 4 * 16 + (sb % 16 * 16 + sc / 4) / 16 = sb := by omega
  refine ⟨rfl, ?_⟩
  rw [writeChunk_two, firstByte_toNat hsa hsb, secondByte_toNat hsc, h0, h1, hca, hcb, ← hcc]
  simp only [List.cons.injEq, true_and, and_true]
  rw [alphabet_inj (by omega) hsc, hcc]
  constructor
  · intro heq hloose
    cases hloose with
    | one _ _ _ => exact hc rfl
    | two _ _ hs hne =>
      rw [hc', Option.some.injEq] at hs
      omega
  · intro hloose
    by_contra hne
    exact hloose (.two (by simp [ha]) (by simp [hb]) hc' (by omega))

theorem writeChunk_readChunk (hread : readChunk true [a, b, c, d] = some bytes) :
    bytes ≠ [] ∧ bytes.length ≤ 3 ∧
      (writeChunk bytes = [a, b, c, d] ↔ ¬ LooseChunk [a, b, c, d]) := by
  by_cases hd : d = 0x3d
  · subst hd
    by_cases hc : c = 0x3d
    · subst hc
      by_cases hb : b = 0x3d
      · subst hb
        rw [readChunk_padding] at hread
        cases hread
      · obtain ⟨hlen, hwrite⟩ := writeChunk_readChunk_one hb hread
        exact ⟨by simp [← List.length_pos_iff, hlen], by omega, hwrite⟩
    · obtain ⟨hlen, hwrite⟩ := writeChunk_readChunk_two hc hread
      exact ⟨by simp [← List.length_pos_iff, hlen], by omega, hwrite⟩
  · obtain ⟨hlen, hwrite, -⟩ := writeChunk_readChunk_three hd hread
    refine ⟨by simp [← List.length_pos_iff, hlen], hlen.le, iff_of_true hwrite ?_⟩
    intro hloose
    cases hloose with
    | one _ _ _ => exact hd rfl
    | two _ _ _ _ => exact hd rfl

theorem LooseChunk.read (h : LooseChunk chunk) :
    chunk.length = 4 ∧ ∃ bytes, readChunk true chunk = some bytes := by
  cases h with
  | one ha hb hs =>
    obtain ⟨sa, ha⟩ := Option.isSome_iff_exists.mp ha
    refine ⟨rfl, ?_⟩
    rw [readChunk_one (fun heq => by simp [heq] at hb), ha, hb]
    exact ⟨_, rfl⟩
  | two ha hb hc hs =>
    obtain ⟨sa, ha⟩ := Option.isSome_iff_exists.mp ha
    obtain ⟨sb, hb⟩ := Option.isSome_iff_exists.mp hb
    refine ⟨rfl, ?_⟩
    rw [readChunk_two (fun heq => by simp [heq] at hc), ha, hb, hc]
    exact ⟨_, rfl⟩

/-- Groups of four characters of the alphabet, and last a loose one. -/
inductive Loose : List UInt8 → Prop
  | last {chunk : List UInt8} (h : LooseChunk chunk) : Loose chunk
  | after {piece rest : List UInt8} (hlen : piece.length = 4)
      (hchars : ∀ c ∈ piece, (sextet c).isSome) (h : Loose rest) : Loose (piece ++ rest)

/-- The bytes of what is written. -/
def written (bytes : List UInt8) : List UInt8 := (chunks 3 bytes).flatMap writeChunk

@[simp] theorem written_nil : written [] = [] := rfl

theorem written_append (hpiece : piece.length = 3) (rest : List UInt8) :
    written (piece ++ rest) = writeChunk piece ++ written rest := by
  simp [written, chunks_append (Nat.zero_lt_succ 2) hpiece]

theorem written_of_length_le (hne : bytes ≠ []) (hle : bytes.length ≤ 3) :
    written bytes = writeChunk bytes := by
  simp [written, chunks_of_length_le hne hle]

theorem readChunks_append {len k : ℕ} {rest out : List UInt8} (hpiece : piece.length = 4)
    (hlen : len = 4 * k + (piece ++ rest).length) :
    readChunks len out ((chunks 4 (piece ++ rest)).zipIdx k) =
      (readChunk rest.isEmpty piece).bind fun bytes =>
        readChunks len (out ++ bytes) ((chunks 4 rest).zipIdx (k + 1)) := by
  have hlast : (4 * k == len - 4) = rest.isEmpty := by
    rw [Bool.eq_iff_iff, beq_iff_eq, List.isEmpty_iff, ← List.length_eq_zero_iff, hlen,
      List.length_append, hpiece]
    omega
  rw [chunks_append (Nat.zero_lt_succ 3) hpiece, List.zipIdx_cons, readChunks, List.foldlM_cons]
  simp only [hlast]
  rcases readChunk rest.isEmpty piece with _ | bytes <;> rfl

theorem readChunk_writeChunk (last : Bool) (hpiece : piece.length = 3) :
    readChunk last (writeChunk piece) = some piece ∧ (writeChunk piece).length = 4 := by
  obtain ⟨x, y, z, rfl⟩ := List.length_eq_three.mp hpiece
  exact ⟨readChunk_writeChunk_three x y z, by simp [writeChunk_three]⟩

theorem readChunk_writeChunk_short (hne : bytes ≠ []) (hlt : bytes.length < 3) :
    readChunk true (writeChunk bytes) = some bytes ∧ (writeChunk bytes).length = 4 := by
  have hpos := List.length_pos_iff.mpr hne
  obtain hone | htwo : bytes.length = 1 ∨ bytes.length = 2 := by omega
  · obtain ⟨x, rfl⟩ := List.length_eq_one_iff.mp hone
    exact ⟨readChunk_writeChunk_one x, by simp [writeChunk_one]⟩
  · obtain ⟨x, y, rfl⟩ := List.length_eq_two.mp htwo
    exact ⟨readChunk_writeChunk_two x y, by simp [writeChunk_two]⟩

theorem readChunks_written (bytes : List UInt8) : ∀ len k out, len = 4 * k + (written bytes).length →
    readChunks len out ((chunks 4 (written bytes)).zipIdx k) = some (out ++ bytes) := by
  induction bytes using chunks_induction (Nat.zero_lt_succ 2) with
  | short bytes hlt =>
    intro len k out hlen
    by_cases hne : bytes = []
    · simp [hne, readChunks]
    · obtain ⟨hread, hfour⟩ := readChunk_writeChunk_short hne hlt
      rw [written_of_length_le hne hlt.le] at hlen ⊢
      rw [← List.append_nil (writeChunk bytes)] at hlen ⊢
      rw [readChunks_append hfour hlen, List.isEmpty_nil, hread]
      simp [readChunks]
  | step piece rest hpiece ih =>
    intro len k out hlen
    obtain ⟨hread, hfour⟩ := readChunk_writeChunk (written rest).isEmpty hpiece
    rw [written_append hpiece] at hlen ⊢
    rw [readChunks_append hfour hlen, hread, Option.bind_some, ih len (k + 1) (out ++ piece),
      List.append_assoc]
    rw [hlen, List.length_append, hfour]
    omega

theorem exists_four (h : chunk.length = 4) :
    ∃ a b c d, chunk = [a, b, c, d] := by
  obtain ⟨a, rest, rfl⟩ := List.exists_cons_of_length_eq_add_one h
  obtain ⟨b, c, d, rfl⟩ := List.length_eq_three.mp (Nat.succ.inj h)
  exact ⟨a, b, c, d, rfl⟩

theorem Loose.four_le {text : List UInt8} (h : Loose text) : 4 ≤ text.length := by
  cases h with
  | last h => exact h.read.1.ge
  | after hlen _ _ =>
    rw [List.length_append]
    omega

theorem loose_iff (hlen : chunk.length = 4) :
    Loose chunk ↔ LooseChunk chunk := by
  refine ⟨fun h => ?_, .last⟩
  cases h with
  | last h => exact h
  | after hpiece _ h =>
    have hrest := h.four_le
    rw [List.length_append] at hlen
    omega

theorem loose_append {rest : List UInt8} (hpiece : piece.length = 4) (hrest : rest ≠ []) :
    Loose (piece ++ rest) ↔ (∀ c ∈ piece, (sextet c).isSome) ∧ Loose rest := by
  refine ⟨fun h => ?_, fun h => .after hpiece h.1 h.2⟩
  generalize htext : piece ++ rest = text at h
  cases h with
  | last h =>
    have hlen := congrArg List.length htext
    have hpos := List.length_pos_iff.mpr hrest
    rw [List.length_append, h.read.1] at hlen
    omega
  | after hpiece' hchars h =>
    obtain ⟨rfl, rfl⟩ := List.append_inj htext (hpiece.trans hpiece'.symm)
    exact ⟨hchars, h⟩

theorem written_readChunks (text : List UInt8) : ∀ len k out got, len = 4 * k + text.length →
    text.length % 4 = 0 → readChunks len out ((chunks 4 text).zipIdx k) = some got →
    ∃ bytes, got = out ++ bytes ∧ (written bytes = text ↔ ¬ Loose text) := by
  induction text using chunks_induction (Nat.zero_lt_succ 3) with
  | short text hlt =>
    intro len k out got hlen hfour hread
    have hnil : text = [] := List.length_eq_zero_iff.mp (by omega)
    subst hnil
    simp only [chunks_nil (Nat.zero_lt_succ 3), List.zipIdx_nil, readChunks, List.foldlM_nil,
      Option.pure_def, Option.some.injEq] at hread
    refine ⟨[], by simp [hread], iff_of_true written_nil fun h => ?_⟩
    exact absurd h.four_le (by simp)
  | step piece rest hpiece ih =>
    intro len k out got hlen hfour hread
    obtain ⟨a, b, c, d, rfl⟩ := exists_four hpiece
    rw [readChunks_append hpiece hlen, Option.bind_eq_some_iff] at hread
    obtain ⟨bytes, hchunk, hread⟩ := hread
    by_cases hrest : rest = []
    · subst hrest
      obtain ⟨hne, hle, hwrite⟩ := writeChunk_readChunk hchunk
      simp only [chunks_nil (Nat.zero_lt_succ 3), List.zipIdx_nil, readChunks, List.foldlM_nil,
        Option.pure_def, Option.some.injEq] at hread
      refine ⟨bytes, hread.symm, ?_⟩
      rw [List.append_nil, written_of_length_le hne hle, hwrite, loose_iff hpiece]
    · rw [List.isEmpty_eq_false_iff.mpr hrest] at hchunk
      have hd : d ≠ 0x3d := by
        intro hd
        rw [hd, readChunk_false] at hchunk
        cases hchunk
      obtain ⟨hthree, hwrite, hchars⟩ := writeChunk_readChunk_three hd hchunk
      rw [List.length_append, hpiece] at hlen hfour
      obtain ⟨more, rfl, hmore⟩ := ih len (k + 1) (out ++ bytes) got (by omega) (by omega) hread
      refine ⟨bytes ++ more, List.append_assoc _ _ _, ?_⟩
      rw [written_append hthree, hwrite, List.append_cancel_left_eq, hmore,
        loose_append hpiece hrest, and_iff_right hchars]

theorem Loose.read {text : List UInt8} (h : Loose text) : text.length % 4 = 0 ∧
    ∀ len k out, len = 4 * k + text.length →
      ∃ got, readChunks len out ((chunks 4 text).zipIdx k) = some got := by
  induction h with
  | @last chunk h =>
    obtain ⟨hfour, bytes, hread⟩ := h.read
    refine ⟨by rw [hfour], fun len k out hlen => ⟨out ++ bytes, ?_⟩⟩
    rw [← List.append_nil chunk] at hlen ⊢
    rw [readChunks_append hfour hlen, List.isEmpty_nil, hread]
    simp [readChunks]
  | @after piece rest hpiece hchars h ih =>
    obtain ⟨hfour, ih⟩ := ih
    have hrest : rest ≠ [] := List.length_pos_iff.mp (by have := h.four_le; omega)
    refine ⟨by rw [List.length_append]; omega, fun len k out hlen => ?_⟩
    obtain ⟨a, b, c, d, rfl⟩ := exists_four hpiece
    simp only [List.mem_cons, List.not_mem_nil, or_false, forall_eq_or_imp, forall_eq,
      Option.isSome_iff_exists] at hchars
    obtain ⟨⟨sa, ha⟩, ⟨sb, hb⟩, ⟨sc, hc⟩, ⟨sd, hd⟩⟩ := hchars
    have hne : d ≠ 0x3d := fun heq => by simp [heq] at hd
    rw [readChunks_append hpiece hlen, readChunk_three hne, ha, hb, hc, hd]
    rw [List.length_append, hpiece] at hlen
    exact ih len (k + 1) _ (by omega)

theorem writeChunk_lt (chunk : List UInt8) : ∀ b ∈ writeChunk chunk, b.toNat < 128 := by
  intro b hb
  obtain ⟨⟨s, i⟩, -, rfl⟩ := List.mem_map.mp hb
  dsimp only
  split
  · exact alphabet_lt s
  · decide

theorem asBytes_base64 (bytes : List UInt8) : asBytes (base64 bytes) = written bytes := by
  apply asBytes_of_ascii
  intro b hb
  obtain ⟨chunk, -, hb⟩ := List.mem_flatMap.mp hb
  exact writeChunk_lt chunk b hb

theorem length_written (bytes : List UInt8) : (written bytes).length % 4 = 0 := by
  induction bytes using chunks_induction (Nat.zero_lt_succ 2) with
  | short bytes hlt =>
    by_cases hne : bytes = []
    · simp [hne]
    · rw [written_of_length_le hne hlt.le, (readChunk_writeChunk_short hne hlt).2]
  | step piece rest hpiece ih =>
    rw [written_append hpiece, List.length_append, (readChunk_writeChunk true hpiece).2]
    omega

theorem fromBase64_base64 (bytes : List UInt8) : fromBase64 (base64 bytes) = some bytes := by
  have hread := readChunks_written bytes (written bytes).length 0 [] (by simp)
  simpa [fromBase64, asBytes_base64, length_written] using hread

theorem base64_fromBase64_iff {text : String}
    (hread : fromBase64 text = some bytes) : base64 bytes = text ↔ ¬ Loose (asBytes text) := by
  simp only [fromBase64] at hread
  split at hread
  · cases hread
  · rename_i hfour
    obtain ⟨got, hgot, hwritten⟩ := written_readChunks (asBytes text) (asBytes text).length 0 []
      bytes (by simp) (by omega) hread
    rw [List.nil_append] at hgot
    rw [hgot, ← hwritten, ← asBytes_base64]
    exact ⟨congrArg asBytes, asBytes_inj⟩

theorem Loose.fromBase64 {text : String} (h : Loose (asBytes text)) :
    ∃ bytes, Serde.fromBase64 text = some bytes := by
  obtain ⟨hfour, hread⟩ := h.read
  obtain ⟨bytes, hread⟩ := hread (asBytes text).length 0 [] (by simp)
  exact ⟨bytes, by simpa [Serde.fromBase64, hfour] using hread⟩

/-- What was written reads back, always; what reads is what would be written for it unless it is
loose. -/
theorem base64_bijection_iff (bytes : List UInt8) (text : String) :
    (fromBase64 (base64 bytes) = some bytes ∧
      ∀ read, fromBase64 text = some read → base64 read = text) ↔ ¬ Loose (asBytes text) := by
  refine ⟨fun h hloose => ?_, fun hstrict => ⟨fromBase64_base64 bytes, fun read hread => ?_⟩⟩
  · obtain ⟨read, hread⟩ := hloose.fromBase64
    exact (base64_fromBase64_iff hread).mp (h.2 read hread) hloose
  · exact (base64_fromBase64_iff hread).mpr hstrict

/-- The last bits of the `h` are read past. -/
theorem not_base64_bijection : ¬ ∀ (bytes : List UInt8) (text : String),
    fromBase64 (base64 bytes) = some bytes ∧
      ∀ read, fromBase64 text = some read → base64 read = text := by
  intro h
  have hread : fromBase64 "Zh==" = some [0x66] := by decide +kernel
  have hwritten : base64 [0x66] ≠ "Zh==" := by decide +kernel
  exact hwritten ((h [] "Zh==").2 [0x66] hread)

end Guatiao.Serde
