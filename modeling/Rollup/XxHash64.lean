import Rollup.Bytes

/-!
# XXH64

The 64-bit hash that names the bucket of a group.  All arithmetic wraps.  Whole stripes of 32 bytes
go through four lanes; the rest is taken in words of eight, four and one bytes.
-/

namespace Rollup.XxHash64

def prime1 : UInt64 := 0x9E3779B185EBCA87
def prime2 : UInt64 := 0xC2B2AE3D27D4EB4F
def prime3 : UInt64 := 0x165667B19E3779F9
def prime4 : UInt64 := 0x85EBCA77C2B2AE63
def prime5 : UInt64 := 0x27D4EB2F165667C5

/-- Turns a word left by `n` bits, `0 < n < 64`. -/
def rotateLeft (x : UInt64) (n : UInt64) : UInt64 := (x <<< n) ||| (x >>> (64 - n))

/-- The little-endian word in the first `width` bytes. -/
def word (width : Nat) (bytes : Bytes) : UInt64 :=
  (Bytes.ofLittleEndian (bytes.take width)).toUInt64

/-- Takes a word into a lane. -/
def round (lane input : UInt64) : UInt64 := rotateLeft (lane + input * prime2) 31 * prime1

structure Lanes where
  a : UInt64
  b : UInt64
  c : UInt64
  d : UInt64

def Lanes.start (seed : UInt64) : Lanes :=
  ⟨seed + prime1 + prime2, seed + prime2, seed, seed - prime1⟩

/-- Takes in the first 32 bytes. -/
def Lanes.stripe (l : Lanes) (bytes : Bytes) : Lanes :=
  ⟨round l.a (word 8 bytes), round l.b (word 8 (bytes.drop 8)),
    round l.c (word 8 (bytes.drop 16)), round l.d (word 8 (bytes.drop 24))⟩

/-- Takes in `n` stripes, and returns the bytes behind them. -/
def Lanes.stripes : Nat → Lanes → Bytes → Lanes × Bytes
  | 0, l, bytes => (l, bytes)
  | n + 1, l, bytes => stripes n (l.stripe bytes) (bytes.drop 32)

def mergeLane (hash lane : UInt64) : UInt64 := (hash ^^^ round 0 lane) * prime1 + prime4

/-- The four lanes as one word. -/
def Lanes.merge (l : Lanes) : UInt64 :=
  let sum := rotateLeft l.a 1 + rotateLeft l.b 7 + rotateLeft l.c 12 + rotateLeft l.d 18
  mergeLane (mergeLane (mergeLane (mergeLane sum l.a) l.b) l.c) l.d

/-- Takes in `n` words of eight bytes, and returns the bytes behind them. -/
def longWords : Nat → UInt64 → Bytes → UInt64 × Bytes
  | 0, hash, bytes => (hash, bytes)
  | n + 1, hash, bytes =>
    let next := rotateLeft (hash ^^^ round 0 (word 8 bytes)) 27 * prime1 + prime4
    longWords n next (bytes.drop 8)

/-- Takes in a word of four bytes if there is one. -/
def shortWord (hash : UInt64) (bytes : Bytes) : UInt64 × Bytes :=
  if 4 ≤ bytes.length then
    (rotateLeft (hash ^^^ (word 4 bytes * prime1)) 23 * prime2 + prime3, bytes.drop 4)
  else (hash, bytes)

def singleByte (hash : UInt64) (byte : UInt8) : UInt64 :=
  rotateLeft (hash ^^^ (byte.toUInt64 * prime5)) 11 * prime1

/-- Spreads every bit over the whole word. -/
def avalanche (hash : UInt64) : UInt64 :=
  let h := (hash ^^^ (hash >>> 33)) * prime2
  let h := (h ^^^ (h >>> 29)) * prime3
  h ^^^ (h >>> 32)

/-- The hash of a byte string. -/
def hash (seed : UInt64) (bytes : Bytes) : UInt64 :=
  let length := bytes.length
  let (start, rest) :=
    if 32 ≤ length then
      let (lanes, rest) := (Lanes.start seed).stripes (length / 32) bytes
      (lanes.merge, rest)
    else (seed + prime5, bytes)
  let (long, rest) := longWords (rest.length / 8) (start + length.toUInt64) rest
  let (short, rest) := shortWord long rest
  avalanche (rest.foldl singleByte short)

/-- The hash of nothing. -/
example : hash 0 [] = 0xEF46DB3751D8E999 := by decide +kernel

end Rollup.XxHash64
