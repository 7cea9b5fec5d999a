import TreeBytecode.Stream.Source
import TreeBytecode.Stream.Zstandard.Opening

namespace TreeBytecode.Stream.Zstandard

open Wire

structure Buffers where
  input : Nat
  output : Nat
deriving DecidableEq, Inhabited

/-- Buffers for a frame: both are made anew if one of them is too small. -/
def Buffers.fit (b : Buffers) (input output : Nat) : Buffers :=
  if b.input < input ∨ b.output < output then ⟨input, output⟩ else b

def maxWindow : Nat := 0x8000001

def overrun : Nat := 64

namespace FrameHeader

def window (h : FrameHeader) : Nat := max h.windowSize minWindow

def inputSize (h : FrameHeader) : Nat := max h.maxBlock 4

def outputSize (h : FrameHeader) : Nat :=
  let room := h.window + 2 * min (min h.window Zstandard.maxBlock) h.maxBlock + overrun
  match h.contentSize with
  | none => room
  | some size => min size room

def allows (h : FrameHeader) (size : Nat) : Bool := h.contentSize.all (· == size)

end FrameHeader

structure OpenFrame where
  header : FrameHeader
  /-- What its blocks made so far. -/
  content : Bytes
  /-- Where the next block goes in the buffer for output. -/
  position : Nat
  /-- After the last block, only the checksum is missing. -/
  sealed : Bool
deriving DecidableEq, Inhabited

def OpenFrame.push (f : OpenFrame) (output : Nat) (block : Bytes) : OpenFrame :=
  let position := f.position + block.length
  let wraps := f.header.contentSize.all (output < ·) && output < position + f.header.maxBlock
  { f with
    content := f.content ++ block
    position := if block ≠ [] ∧ wraps then 0 else position }

inductive CurrentFrame
  | present (frame : OpenFrame)
  | earlier (frame : EarlierFrame)
deriving DecidableEq, Inhabited

/-- A packed stream in the middle of reading. -/
structure Unpacker where
  input : Bytes
  /-- What comes after the input, if that is not a clean end. -/
  fault? : Option Fault
  /-- The input ends here without fault only after a whole frame. -/
  finished : Bool
  frame? : Option CurrentFrame
  buffers : Buffers
  /-- The last earlier format that was met, with buffers of its own. -/
  earlier : Nat × Buffers
deriving DecidableEq, Inhabited

namespace Unpacker

def start (input : Bytes) (fault? : Option Fault) : Unpacker where
  input := input
  fault? := fault?
  finished := false
  frame? := none
  buffers := ⟨0, 0⟩
  earlier := (0, ⟨0, 0⟩)

def starved (u : Unpacker) : Unpacker := { u with input := [], finished := false }

def leave (u : Unpacker) (rest : Bytes) : Unpacker :=
  { u with input := rest, finished := true, frame? := none }

def stay (u : Unpacker) (f : CurrentFrame) (rest : Bytes) : Unpacker :=
  { u with input := rest, finished := false, frame? := some f }

def endFault? (u : Unpacker) : Option Fault :=
  match u.fault? with
  | some fault => some fault
  | none => if u.finished then none else some .unexpectedEnd

def trailer (h : FrameHeader) (bytes : Bytes) : Part Bytes :=
  let width := if h.hasChecksum then 4 else 0
  if bytes.length < width then .cut else .whole (bytes.take width) (bytes.drop width)

def wholeContent (h : FrameHeader) (bs : List (BlockHeader × Bytes)) (closing : Bytes) :
    Option Bytes :=
  let content := bs.flatMap fun b ↦ b.1.content b.2
  let sound := bs.all (·.1.kind ≠ .coded) && h.dictionary == 0 && h.allows content.length &&
    (!h.hasChecksum || closing == checksum content)
  if sound then some content else none

/-- Unpacks blocks until more than the request was given, the frame is over, or the input is taken.
Nothing comes of corrupt blocks, or of those before them. -/
def unpackBlocks (request : Nat) :
    (fuel : Nat) → (given : Bytes) → OpenFrame → Unpacker → Option (Bytes × Unpacker)
  | 0, given, f, u => some (given, u.stay (.present f) u.input)
  | fuel + 1, given, f, u =>
    if request < given.length then some (given, u.stay (.present f) u.input)
    else if f.sealed then
      if u.input.length < 4 then some (given, u.starved)
      else if u.input.take 4 = checksum f.content then some (given, u.leave (u.input.drop 4))
      else none
    else match blockHeader u.input with
      | .cut => some (given, u.starved)
      | .corrupt => none
      | .whole b rest =>
        let taken := rest.take b.width
        let behind := rest.drop b.width
        let block := b.content taken
        let next := { f.push u.buffers.output block with sealed := b.last }
        if f.header.maxBlock < max b.width (b.yield taken.length) then none
        else if u.buffers.output < f.position + b.yield taken.length then none
        else if taken.length < b.width then some (given ++ block, u.starved)
        else if b.width ≠ 0 ∧ b.kind = .coded then none
        else if b.width ≠ 0 ∧ b.last ∧ !f.header.allows next.content.length then none
        else if b.last ∧ !f.header.hasChecksum then some (given ++ block, u.leave behind)
        else unpackBlocks request fuel (given ++ block) next { u with input := behind }

def unpackStepwise (request : Nat) (h : FrameHeader) (rest : Bytes) (u : Unpacker) :
    Option (Bytes × Unpacker) :=
  if h.dictionary ≠ 0 ∨ maxWindow < h.window then none
  else
    unpackBlocks request (rest.length + 1) [] ⟨h, [], 0, false⟩
      { u with input := rest, buffers := u.buffers.fit h.inputSize h.outputSize }

/-- Unpacks blocks of an earlier frame, which must be there as a whole; those that wait for the
rest must fit their buffer. A block with nothing in it ends the frame, too. -/
def unpackEarlierBlocks (request : Nat) :
    (fuel : Nat) → (given : Bytes) → EarlierFrame → Unpacker → Option (Bytes × Unpacker)
  | 0, given, f, u => some (given, u.stay (.earlier f) u.input)
  | fuel + 1, given, f, u =>
    if request < given.length then some (given, u.stay (.earlier f) u.input)
    else match u.input with
      | a :: b :: c :: rest =>
        let block := EarlierBlock.parse a b c
        let taken := rest.take block.width
        if block.width = 0 then
          if block.closes f.header.hasChecksum f.content then some (given, u.leave rest) else none
        else if taken.length < block.width then
          if taken ≠ [] ∧ u.earlier.2.input < block.width then none else some (given, u.starved)
        else if block ≠ .stored taken.length then none
        else if u.earlier.2.output < f.position + taken.length then none
        else
          unpackEarlierBlocks request fuel (given ++ taken) (f.push u.earlier.2.output taken)
            { u with input := rest.drop block.width }
      | _ => some (given, u.starved)

/-- Begins an earlier frame. Its format keeps its buffers and only makes them larger; another
format makes its own. -/
def unpackEarlier (request : Nat) (h : EarlierHeader) (rest : Bytes) (u : Unpacker) :
    Option (Bytes × Unpacker) :=
  let kept := if u.earlier.1 = h.format then u.earlier.2 else ⟨0, 0⟩
  unpackEarlierBlocks request (rest.length + 1) [] ⟨h, [], 0⟩
    { u with
      input := rest
      earlier := (h.format, ⟨max kept.input h.input, max kept.output h.output⟩) }

/-- One run over input that is not empty. There is none if the input is corrupt. -/
def run (request : Nat) (u : Unpacker) : Option (Bytes × Unpacker) :=
  match u.frame? with
  | some (.present f) => unpackBlocks request (u.input.length + 1) [] f u
  | some (.earlier f) => unpackEarlierBlocks request (u.input.length + 1) [] f u
  | none =>
    match opening u.input with
    | .cut => some ([], u.starved)
    | .corrupt => none
    | .whole (.skipped size) rest =>
      let u := { u with buffers := u.buffers.fit 4 (min size (minWindow + overrun)) }
      if rest.length < size then some ([], u.starved) else some ([], u.leave (rest.drop size))
    | .whole (.earlier h) rest => u.unpackEarlier request h rest
    | .whole (.frame h) rest =>
      if h.contentSize.any (· ≤ request) then
        match blocks rest.length rest with
        | .whole bs behind =>
          match trailer h behind with
          | .whole closing behind =>
            (wholeContent h bs closing).map fun content ↦ (content, u.leave behind)
          | _ => u.unpackStepwise request h rest
        | _ => u.unpackStepwise request h rest
      else u.unpackStepwise request h rest

/-- Runs until there are bytes; without any, tells in what fault the stream ends, if it is one.
Each run takes some of the `fuel`. -/
def pull (request : Nat) : (fuel : Nat) → Unpacker → Except (Option Fault) (Bytes × Unpacker)
  | 0, u => .error u.endFault?
  | fuel + 1, u =>
    if u.input = [] then .error u.endFault?
    else match u.run request with
      | none => .error (some .other)
      | some ([], u) => u.pull request fuel
      | some (bytes, u) => .ok (bytes, u)

def remaining : (fuel : Nat) → Unpacker → Source
  | 0, u => .stop u.endFault?
  | fuel + 1, u =>
    .more
      (fun request ↦
        match u.pull request (u.input.length + 1) with
        | .ok (bytes, _) => bytes
        | .error _ => [])
      (fun request ↦
        match u.pull request (u.input.length + 1) with
        | .ok (_, u) => remaining fuel u
        | .error fault? => .stop fault?)

def source (input : Bytes) (fault? : Option Fault) : Source :=
  remaining (input.length + 1) (start input fault?)

end Unpacker

end TreeBytecode.Stream.Zstandard
