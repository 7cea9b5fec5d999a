import TreeBytecode.Wire.Word

namespace TreeBytecode.Stream.Zstandard

open Wire

namespace Checksum

def prime1 : UInt64 := 0x9e3779b185ebca87
def prime2 : UInt64 := 0xc2b2ae3d27d4eb4f
def prime3 : UInt64 := 0x165667b19e3779f9
def prime4 : UInt64 := 0x85ebca77c2b2ae63
def prime5 : UInt64 := 0x27d4eb2f165667c5

def rotate (x n : UInt64) : UInt64 := x <<< n ||| x >>> (64 - n)

def number (width : Nat) (bytes : Bytes) : UInt64 := UInt64.ofNat (ofBytes (bytes.take width))

def round (lane input : UInt64) : UInt64 := rotate (lane + input * prime2) 31 * prime1

structure Lanes where
  a : UInt64
  b : UInt64
  c : UInt64
  d : UInt64

def Lanes.start : Lanes := ⟨prime1 + prime2, prime2, 0, 0 - prime1⟩

def Lanes.take (l : Lanes) (stripe : Bytes) : Lanes where
  a := round l.a (number 8 stripe)
  b := round l.b (number 8 (stripe.drop 8))
  c := round l.c (number 8 (stripe.drop 16))
  d := round l.d (number 8 (stripe.drop 24))

def Lanes.merge (l : Lanes) : UInt64 :=
  let sum := rotate l.a 1 + rotate l.b 7 + rotate l.c 12 + rotate l.d 18
  [l.a, l.b, l.c, l.d].foldl (fun h lane ↦ (h ^^^ round 0 lane) * prime1 + prime4) sum

def stripes : (count : Nat) → Lanes → Bytes → Lanes
  | 0, l, _ => l
  | count + 1, l, bytes => stripes count (l.take bytes) (bytes.drop 32)

def words : (count : Nat) → UInt64 → Bytes → UInt64
  | 0, h, _ => h
  | count + 1, h, bytes =>
    words count (rotate (h ^^^ round 0 (number 8 bytes)) 27 * prime1 + prime4) (bytes.drop 8)

def halfWord (h : UInt64) (bytes : Bytes) : UInt64 :=
  rotate (h ^^^ number 4 bytes * prime1) 23 * prime2 + prime3

def single (h : UInt64) (b : UInt8) : UInt64 := rotate (h ^^^ b.toUInt64 * prime5) 11 * prime1

def remainder (h : UInt64) (bytes : Bytes) : UInt64 :=
  let h := words (bytes.length / 8) h bytes
  let bytes := bytes.drop (bytes.length / 8 * 8)
  if 4 ≤ bytes.length then (bytes.drop 4).foldl single (halfWord h bytes)
  else bytes.foldl single h

def avalanche (h : UInt64) : UInt64 :=
  let h := (h ^^^ h >>> 33) * prime2
  let h := (h ^^^ h >>> 29) * prime3
  h ^^^ h >>> 32

def hash (bytes : Bytes) : UInt64 :=
  let count := bytes.length / 32
  let lanes := if count = 0 then prime5 else (stripes count .start bytes).merge
  avalanche (remainder (lanes + UInt64.ofNat bytes.length) (bytes.drop (32 * count)))

end Checksum

def checksum (content : Bytes) : Bytes := word 4 (Checksum.hash content).toNat

@[simp] theorem length_checksum (content : Bytes) : (checksum content).length = 4 :=
  length_word 4 _

end TreeBytecode.Stream.Zstandard
