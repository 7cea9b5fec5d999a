import TreeBytecode.Stream.Zstandard.Checksum
import TreeBytecode.Stream.Zstandard.Frame

namespace TreeBytecode.Stream.Zstandard

open Wire

def earlierFormat? : Bytes → Option Nat
  | b :: bytes =>
    if 0x24 ≤ b ∧ b ≤ 0x27 ∧ bytes = magic.drop 1 then some (b.toNat - 0x20) else none
  | [] => none

structure EarlierHeader where
  format : Nat
  /-- The size of the buffer for input. -/
  input : Nat
  /-- The size of the buffer for output. -/
  output : Nat
  /-- The room that the buffer for output keeps for the next block. -/
  span : Nat
  hasChecksum : Bool
deriving DecidableEq, Inhabited

namespace EarlierHeader

def maxWindow : Nat := 0x8000000

def overrun : Nat := 16

def ofWindowOnly (format window : Nat) : EarlierHeader :=
  ⟨format, maxBlock, window, maxBlock, false⟩

def ofWindow (format window : Nat) (hasChecksum : Bool) : EarlierHeader :=
  let block := min window maxBlock
  ⟨format, block, window + block + overrun, block, hasChecksum⟩

def parseOldest (format : Nat) (descriptor : UInt8) (bytes : Bytes) : Part EarlierHeader :=
  if 16 ≤ descriptor.toNat then .corrupt
  else .whole (ofWindowOnly format (1 <<< (descriptor.toNat + 11))) bytes

def parseOlder (format : Nat) (descriptor : UInt8) (bytes : Bytes) : Part EarlierHeader :=
  let width := match descriptor.toNat / 64 with
    | 0 => 0
    | 1 => 1
    | 2 => 2
    | _ => 8
  if bytes.length < width then .cut
  else if descriptor &&& 0x20 ≠ 0 then .corrupt
  else .whole (ofWindow format (1 <<< (descriptor.toNat % 16 + 12)) false) (bytes.drop width)

def parseLast (format : Nat) (descriptor : UInt8) (bytes : Bytes) : Part EarlierHeader :=
  match frameHeader descriptor bytes with
  | .cut => .cut
  | .corrupt => .corrupt
  | .whole h rest =>
    let window := h.windowSize % UInt32.size
    if h.dictionary ≠ 0 ∨ maxWindow < window then .corrupt
    else .whole (ofWindow format (max window minWindow) h.hasChecksum) rest

def parse (format : Nat) : Bytes → Part EarlierHeader
  | [] => .corrupt
  | descriptor :: bytes =>
    if format ≤ 5 then parseOldest format descriptor bytes
    else if format = 6 then parseOlder format descriptor bytes
    else parseLast format descriptor bytes

end EarlierHeader

structure EarlierFrame where
  header : EarlierHeader
  /-- What its blocks made so far. -/
  content : Bytes
  /-- Where the next block goes in the buffer for output. -/
  position : Nat
deriving DecidableEq, Inhabited

def EarlierFrame.push (f : EarlierFrame) (output : Nat) (block : Bytes) : EarlierFrame :=
  let position := f.position + block.length
  { f with
    content := f.content ++ block
    position := if output < position + f.header.span then 0 else position }

inductive EarlierBlock
  | stored (size : Nat)
  /-- Entropy coded or repeated, which is not taken for sound; `width` bytes stand behind it. -/
  | refused (width : Nat)
  /-- The end of the frame, with a checksum of 22 bits. -/
  | ended (sum : Nat)
deriving DecidableEq, Inhabited

namespace EarlierBlock

def parse (a b c : UInt8) : EarlierBlock :=
  let low := c.toNat + 256 * b.toNat
  let size := low + 65536 * (a.toNat % 8)
  match a.toNat / 64 with
  | 0 => .refused size
  | 1 => .stored size
  | 2 => .refused 1
  | _ => .ended (low + 65536 * (a.toNat % 64))

def width : EarlierBlock → Nat
  | .stored size => size
  | .refused width => width
  | .ended _ => 0

def closes (hasChecksum : Bool) (content : Bytes) : EarlierBlock → Bool
  | .ended sum => !hasChecksum || ((Checksum.hash content >>> 11).toNat % 0x400000 == sum)
  | _ => true

end EarlierBlock

end TreeBytecode.Stream.Zstandard
