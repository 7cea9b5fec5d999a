import TreeBytecode.Wire.Word

namespace TreeBytecode.Stream.Zstandard

open Wire

def magic : Bytes := [0x28, 0xb5, 0x2f, 0xfd]

def maxBlock : Nat := 0x20000

def minWindow : Nat := 0x400

/-- Reading a part of a stream: it is there, cut short, or not what it should be. -/
inductive Part (α : Type)
  | whole (value : α) (rest : Bytes)
  | cut
  | corrupt

structure FrameHeader where
  /-- The length of the content, if the header announces it. -/
  contentSize : Option Nat
  windowSize : Nat
  dictionary : Nat
  hasChecksum : Bool
deriving DecidableEq, Inhabited

def FrameHeader.maxBlock (h : FrameHeader) : Nat := min h.windowSize Zstandard.maxBlock

structure FieldWidths where
  window : Nat
  dictionary : Nat
  contentSize : Nat

def FieldWidths.sum (w : FieldWidths) : Nat := w.window + w.dictionary + w.contentSize

def isSingle (descriptor : UInt8) : Bool := descriptor &&& 0x20 ≠ 0

def fieldWidths (descriptor : UInt8) : FieldWidths where
  window := if isSingle descriptor then 0 else 1
  dictionary := match descriptor.toNat % 4 with
    | 0 => 0
    | 1 => 1
    | 2 => 2
    | _ => 4
  contentSize := match descriptor.toNat / 64 with
    | 0 => if isSingle descriptor then 1 else 0
    | 1 => 2
    | 2 => 4
    | _ => 8

def sizeOf? (field : Bytes) : Option Nat :=
  match field.length with
  | 0 => none
  | 2 => some (256 + ofBytes field)
  | _ => some (ofBytes field)

def windowSize? (code : Nat) : Option Nat :=
  let base := 1 <<< (code / 8 + 10)
  if 31 < code / 8 + 10 then none else some (base + base / 8 * (code % 8))

def frameHeader (descriptor : UInt8) (bytes : Bytes) : Part FrameHeader :=
  let widths := fieldWidths descriptor
  if bytes.length < widths.sum then .cut
  else if descriptor &&& 0x08 ≠ 0 then .corrupt
  else
    let afterWindow := bytes.drop widths.window
    let afterDictionary := afterWindow.drop widths.dictionary
    let size := sizeOf? (afterDictionary.take widths.contentSize)
    let window :=
      if isSingle descriptor then size else windowSize? (ofBytes (bytes.take widths.window))
    match window with
    | none => .corrupt
    | some window =>
      let header : FrameHeader :=
        { contentSize := size.filter (· ≠ UInt64.size - 1)
          windowSize := window
          dictionary := ofBytes (afterWindow.take widths.dictionary)
          hasChecksum := descriptor &&& 0x04 ≠ 0 }
      .whole header (bytes.drop widths.sum)

inductive BlockKind
  | stored
  | repeated
  /-- Entropy coded; no such block is taken for sound. -/
  | coded
deriving DecidableEq, Inhabited

structure BlockHeader where
  last : Bool
  kind : BlockKind
  size : Nat
deriving DecidableEq, Inhabited

namespace BlockKind

def code : BlockKind → Nat
  | .stored => 0
  | .repeated => 1
  | .coded => 2

def ofCode? : Nat → Option BlockKind
  | 0 => some .stored
  | 1 => some .repeated
  | 2 => some .coded
  | _ => none

@[simp] theorem ofCode?_code (k : BlockKind) : ofCode? k.code = some k := by
  cases k <;> rfl

end BlockKind

namespace BlockHeader

def bytes (h : BlockHeader) : Bytes :=
  word 3 ((if h.last then 1 else 0) + 2 * h.kind.code + 8 * h.size)

def width (b : BlockHeader) : Nat :=
  match b.kind with
  | .stored | .coded => b.size
  | .repeated => 1

def yield (b : BlockHeader) (taken : Nat) : Nat :=
  match b.kind with
  | .stored => taken
  | .repeated => taken * b.size
  | .coded => 0

def content (b : BlockHeader) (taken : Bytes) : Bytes :=
  match b.kind with
  | .stored => taken
  | .repeated => taken.flatMap (List.replicate b.size)
  | .coded => []

theorem length_content (b : BlockHeader) (taken : Bytes) :
    (b.content taken).length = b.yield taken.length := by
  obtain ⟨last, kind, size⟩ := b
  cases kind
  · rfl
  · induction taken with
    | nil => simp [content, yield]
    | cons a taken ih => simp_all [content, yield, Nat.succ_mul, Nat.add_comm]
  · rfl

end BlockHeader

def blockHeader (bytes : Bytes) : Part BlockHeader :=
  let n := ofBytes (bytes.take 3)
  if bytes.length < 3 then .cut
  else match BlockKind.ofCode? (n / 2 % 4) with
    | some kind => .whole ⟨n % 2 = 1, kind, n / 8⟩ (bytes.drop 3)
    | none => .corrupt

def blocks : (fuel : Nat) → Bytes → Part (List (BlockHeader × Bytes))
  | 0, _ => .cut
  | fuel + 1, bytes =>
    match blockHeader bytes with
    | .cut => .cut
    | .corrupt => .corrupt
    | .whole b rest =>
      let block := (b, rest.take b.width)
      if rest.length < b.width then .cut
      else if b.last then .whole [block] (rest.drop b.width)
      else match blocks fuel (rest.drop b.width) with
        | .whole more rest => .whole (block :: more) rest
        | .cut => .cut
        | .corrupt => .corrupt

end TreeBytecode.Stream.Zstandard
