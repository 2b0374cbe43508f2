/-!
# Content hashes

A 128-bit hash of a text, the XXH3 function with its default secret and seed zero. Two texts with the
same hash are taken to be the same text, so that a file that was read again without a change can keep
what was computed for it.

The input is cut into four classes by its length in bytes: up to 16, up to 128, up to 240, and longer.
The short classes mix the bytes with fixed parts of the secret; the long one folds stripes of 64 bytes
into eight accumulators and scrambles them after each block of 1024 bytes.
-/

namespace Recheck

/-- A hash as its two 64-bit halves. -/
structure ContentHash where
  low : UInt64
  high : UInt64
deriving DecidableEq, Repr, Inhabited

namespace ContentHash

def prime32x1 : UInt64 := 0x9E3779B1
def prime32x2 : UInt64 := 0x85EBCA77
def prime32x3 : UInt64 := 0xC2B2AE3D
def prime64x1 : UInt64 := 0x9E3779B185EBCA87
def prime64x2 : UInt64 := 0xC2B2AE3D27D4EB4F
def prime64x3 : UInt64 := 0x165667B19E3779F9
def prime64x4 : UInt64 := 0x85EBCA77C2B2AE63
def prime64x5 : UInt64 := 0x27D4EB2F165667C5
def primeMix1 : UInt64 := 0x165667919E3779F9
def primeMix2 : UInt64 := 0x9FB21C651E98DF25

/-- The secret that the input is mixed with. -/
def secret : ByteArray := ⟨#[
  0xb8, 0xfe, 0x6c, 0x39, 0x23, 0xa4, 0x4b, 0xbe, 0x7c, 0x01, 0x81, 0x2c, 0xf7, 0x21, 0xad, 0x1c,
  0xde, 0xd4, 0x6d, 0xe9, 0x83, 0x90, 0x97, 0xdb, 0x72, 0x40, 0xa4, 0xa4, 0xb7, 0xb3, 0x67, 0x1f,
  0xcb, 0x79, 0xe6, 0x4e, 0xcc, 0xc0, 0xe5, 0x78, 0x82, 0x5a, 0xd0, 0x7d, 0xcc, 0xff, 0x72, 0x21,
  0xb8, 0x08, 0x46, 0x74, 0xf7, 0x43, 0x24, 0x8e, 0xe0, 0x35, 0x90, 0xe6, 0x81, 0x3a, 0x26, 0x4c,
  0x3c, 0x28, 0x52, 0xbb, 0x91, 0xc3, 0x00, 0xcb, 0x88, 0xd0, 0x65, 0x8b, 0x1b, 0x53, 0x2e, 0xa3,
  0x71, 0x64, 0x48, 0x97, 0xa2, 0x0d, 0xf9, 0x4e, 0x38, 0x19, 0xef, 0x46, 0xa9, 0xde, 0xac, 0xd8,
  0xa8, 0xfa, 0x76, 0x3f, 0xe3, 0x9c, 0x34, 0x3f, 0xf9, 0xdc, 0xbb, 0xc7, 0xc7, 0x0b, 0x4f, 0x1d,
  0x8a, 0x51, 0xe0, 0x4b, 0xcd, 0xb4, 0x59, 0x31, 0xc8, 0x9f, 0x7e, 0xc9, 0xd9, 0x78, 0x73, 0x64,
  0xea, 0xc5, 0xac, 0x83, 0x34, 0xd3, 0xeb, 0xc3, 0xc5, 0x81, 0xa0, 0xff, 0xfa, 0x13, 0x63, 0xeb,
  0x17, 0x0d, 0xdd, 0x51, 0xb7, 0xf0, 0xda, 0x49, 0xd3, 0x16, 0x55, 0x26, 0x29, 0xd4, 0x68, 0x9e,
  0x2b, 0x16, 0xbe, 0x58, 0x7d, 0x47, 0xa1, 0xfc, 0x8f, 0xf8, 0xb8, 0xd1, 0x7a, 0xd0, 0x31, 0xce,
  0x45, 0xcb, 0x3a, 0x8f, 0x95, 0x16, 0x04, 0x28, 0xaf, 0xd7, 0xfb, 0xca, 0xbb, 0x4b, 0x40, 0x7e]⟩

/-- The byte at a place, zero outside. -/
def byteAt (b : ByteArray) (i : Nat) : UInt64 := (b.data.getD i 0).toUInt64

/-- The 32-bit number at a place, least byte first. -/
def word32 (b : ByteArray) (i : Nat) : UInt64 :=
  byteAt b i ||| (byteAt b (i + 1) <<< 8) ||| (byteAt b (i + 2) <<< 16) ||| (byteAt b (i + 3) <<< 24)

/-- The 64-bit number at a place, least byte first. -/
def word64 (b : ByteArray) (i : Nat) : UInt64 := word32 b i ||| (word32 b (i + 4) <<< 32)

/-- The full product of two 64-bit numbers, low half first. -/
def product (a b : UInt64) : UInt64 × UInt64 :=
  let p := a.toNat * b.toNat
  (p.toUInt64, (p >>> 64).toUInt64)

/-- The two halves of the full product, combined. -/
def foldedProduct (a b : UInt64) : UInt64 :=
  let (lo, hi) := product a b
  lo ^^^ hi

def shiftMix (v : UInt64) (n : UInt64) : UInt64 := v ^^^ (v >>> n)

def swapBytes32 (v : UInt64) : UInt64 :=
  ((v &&& (0xFF : UInt64)) <<< 24) ||| ((v &&& 0xFF00) <<< 8) ||| ((v >>> 8) &&& (0xFF00 : UInt64)) ||| ((v >>> 24) &&& (0xFF : UInt64))

def swapBytes64 (v : UInt64) : UInt64 :=
  (swapBytes32 (v &&& 0xFFFFFFFF) <<< 32) ||| swapBytes32 (v >>> 32)

def rotateLeft32 (v : UInt64) (n : UInt64) : UInt64 :=
  ((v <<< n) ||| (v >>> (32 - n))) &&& 0xFFFFFFFF

/-- The last mixing of the long classes. -/
def avalanche (v : UInt64) : UInt64 :=
  shiftMix (shiftMix v 37 * primeMix1) 32

/-- The last mixing of the shortest class. -/
def avalanche64 (v : UInt64) : UInt64 :=
  let v := shiftMix v 33 * prime64x2
  let v := shiftMix v 29 * prime64x3
  shiftMix v 32

def ofUpTo3 (b : ByteArray) : ContentHash :=
  let len := b.size
  let c1 := byteAt b 0
  let c2 := byteAt b (len / 2)
  let c3 := byteAt b (len - 1)
  let lo := (c1 <<< 16) ||| (c2 <<< 24) ||| c3 ||| (len.toUInt64 <<< 8)
  let hi := rotateLeft32 (swapBytes32 lo) 13
  let keyLo := word32 secret 0 ^^^ word32 secret 4
  let keyHi := word32 secret 8 ^^^ word32 secret 12
  ⟨avalanche64 (lo ^^^ keyLo), avalanche64 (hi ^^^ keyHi)⟩

def ofUpTo8 (b : ByteArray) : ContentHash :=
  let len := b.size
  let lo := word32 b 0
  let hi := word32 b (len - 4)
  let input := lo + (hi <<< 32)
  let keyed := input ^^^ (word64 secret 16 ^^^ word64 secret 24)
  let (mlo, mhi) := product keyed (prime64x1 + (len.toUInt64 <<< 2))
  let mhi := mhi + (mlo <<< 1)
  let mlo := mlo ^^^ (mhi >>> 3)
  let mlo := shiftMix (shiftMix mlo 35 * primeMix2) 28
  ⟨mlo, avalanche mhi⟩

def ofUpTo16 (b : ByteArray) : ContentHash :=
  let len := b.size
  let flipLo := word64 secret 32 ^^^ word64 secret 40
  let flipHi := word64 secret 48 ^^^ word64 secret 56
  let inLo := word64 b 0
  let inHi := word64 b (len - 8)
  let (mlo, mhi) := product (inLo ^^^ inHi ^^^ flipLo) prime64x1
  let mlo := mlo + ((len - 1).toUInt64 <<< 54)
  let inHi := inHi ^^^ flipHi
  let mhi := mhi + (inHi + (inHi &&& 0xFFFFFFFF) * (prime32x2 - 1))
  let mlo := mlo ^^^ swapBytes64 mhi
  let (hlo, hhi) := product mlo prime64x2
  let hhi := hhi + mhi * prime64x2
  ⟨avalanche hlo, avalanche hhi⟩

def mix16 (b : ByteArray) (i : Nat) (k : Nat) : UInt64 :=
  foldedProduct (word64 b i ^^^ word64 secret k) (word64 b (i + 8) ^^^ word64 secret (k + 8))

/-- Mixes two runs of 16 bytes into a pair of accumulators. -/
def mix32 (acc : UInt64 × UInt64) (b : ByteArray) (i j k : Nat) : UInt64 × UInt64 :=
  let lo := (acc.1 + mix16 b i k) ^^^ (word64 b j + word64 b (j + 8))
  let hi := (acc.2 + mix16 b j (k + 16)) ^^^ (word64 b i + word64 b (i + 8))
  (lo, hi)

def finishMiddle (acc : UInt64 × UInt64) (len : Nat) : ContentHash :=
  let lo := acc.1 + acc.2
  let hi := acc.1 * prime64x1 + acc.2 * prime64x4 + len.toUInt64 * prime64x2
  ⟨avalanche lo, 0 - avalanche hi⟩

def ofUpTo128 (b : ByteArray) : ContentHash :=
  let len := b.size
  let acc := (len.toUInt64 * prime64x1, (0 : UInt64))
  let rounds := (len - 1) / 32
  let acc := (List.range (rounds + 1)).reverse.foldl
    (fun acc i => mix32 acc b (16 * i) (len - 16 * (i + 1)) (32 * i)) acc
  finishMiddle acc len

def ofUpTo240 (b : ByteArray) : ContentHash :=
  let len := b.size
  let acc := (len.toUInt64 * prime64x1, (0 : UInt64))
  let acc := (List.range 4).foldl (fun acc i => mix32 acc b (32 * i) (32 * i + 16) (32 * i)) acc
  let acc := (avalanche acc.1, avalanche acc.2)
  let acc := (List.range (len / 32 - 4)).foldl
    (fun acc i => mix32 acc b (32 * (i + 4)) (32 * (i + 4) + 16) (3 + 32 * i)) acc
  -- The last 32 bytes, the second half first.
  let acc := mix32 acc b (len - 16) (len - 32) (136 - 17 - 16)
  finishMiddle acc len

/-- Adds a stripe of 64 bytes at `i`, keyed by the secret at `k`. -/
def accumulate (acc : Array UInt64) (b : ByteArray) (i k : Nat) : Array UInt64 :=
  (List.range 8).foldl (fun acc lane =>
    let value := word64 b (i + 8 * lane)
    let keyed := value ^^^ word64 secret (k + 8 * lane)
    let other := if lane % 2 = 0 then lane + 1 else lane - 1
    let acc := acc.setIfInBounds other (acc.getD other 0 + value)
    acc.setIfInBounds lane (acc.getD lane 0 + (keyed &&& (0xFFFFFFFF : UInt64)) * (keyed >>> 32))) acc

def scramble (acc : Array UInt64) : Array UInt64 :=
  (List.range 8).foldl (fun acc lane =>
    let v := acc.getD lane 0
    let v := (shiftMix v 47 ^^^ word64 secret (128 + 8 * lane)) * prime32x1
    acc.setIfInBounds lane v) acc

def mergeAccumulators (acc : Array UInt64) (k : Nat) (start : UInt64) : UInt64 :=
  let sum := (List.range 4).foldl (fun sum i =>
    sum + foldedProduct (acc.getD (2 * i) 0 ^^^ word64 secret (k + 16 * i))
      (acc.getD (2 * i + 1) 0 ^^^ word64 secret (k + 16 * i + 8))) start
  avalanche sum

def ofLong (b : ByteArray) : ContentHash :=
  let len := b.size
  let acc : Array UInt64 := #[prime32x3, prime64x1, prime64x2, prime64x3, prime64x4, prime32x2,
    prime64x5, prime32x1]
  let blocks := (len - 1) / 1024
  let stripe (start : Nat) (acc : Array UInt64) (n : Nat) : Array UInt64 :=
    (List.range n).foldl (fun acc i => accumulate acc b (start + 64 * i) (8 * i)) acc
  let acc := (List.range blocks).foldl (fun acc i => scramble (stripe (1024 * i) acc 16)) acc
  let acc := stripe (1024 * blocks) acc ((len - 1 - 1024 * blocks) / 64)
  let acc := accumulate acc b (len - 64) (192 - 64 - 7)
  ⟨mergeAccumulators acc 11 (len.toUInt64 * prime64x1),
    mergeAccumulators acc (192 - 64 - 11) (0 - (len.toUInt64 * prime64x2) - 1)⟩

/-- The hash of some bytes. -/
def ofBytes (b : ByteArray) : ContentHash :=
  if b.size = 0 then
    ⟨avalanche64 (word64 secret 64 ^^^ word64 secret 72), avalanche64 (word64 secret 80 ^^^ word64 secret 88)⟩
  else if b.size ≤ 3 then ofUpTo3 b
  else if b.size ≤ 8 then ofUpTo8 b
  else if b.size ≤ 16 then ofUpTo16 b
  else if b.size ≤ 128 then ofUpTo128 b
  else if b.size ≤ 240 then ofUpTo240 b
  else ofLong b

def ofText (s : String) : ContentHash := ofBytes s.toUTF8

/-- The bytes of a half, least first. -/
def bytesOf (v : UInt64) : List Nat :=
  (List.range 8).map fun i => (v.toNat >>> (8 * i)) % 256

def hexByte (n : Nat) : String :=
  let digit (d : Nat) : Char := if d < 10 then Char.ofNat (48 + d) else Char.ofNat (87 + d)
  String.ofList [digit (n / 16), digit (n % 16)]

/-- The sixteen bytes in hexadecimal, least byte first. -/
def render (h : ContentHash) : String :=
  String.join ((bytesOf h.low ++ bytesOf h.high).map hexByte)

/-- A short form for people: the first three bytes. -/
def renderShort (h : ContentHash) : String :=
  "ContentHash(" ++ String.join (((bytesOf h.low).take 3).map hexByte) ++ "..)"

end ContentHash

end Recheck
