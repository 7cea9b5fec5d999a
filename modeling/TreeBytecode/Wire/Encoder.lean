import TreeBytecode.StringTable
import TreeBytecode.Wire.Field
import TreeBytecode.Wire.Step

namespace TreeBytecode.Wire

/-- An output, which accepts `room` more bytes or any number of them. -/
structure Sink where
  room : Option Nat
  written : Array UInt8

namespace Sink

def empty (room : Option Nat) : Sink := ⟨room, #[]⟩

def bytes (s : Sink) : Bytes := s.written.toList

def accept (s : Sink) (bs : Bytes) : Bool × Sink :=
  match s.room with
  | none => (true, ⟨none, s.written ++ bs⟩)
  | some n => (bs.length ≤ n, ⟨some (n - bs.length), s.written ++ bs.take n⟩)

end Sink

/-- An output in the middle of writing: `offset` counts what was written without fault. -/
structure Encoder where
  sink : Sink
  offset : Nat
  frames : List Tag
  table : StringTable

namespace Encoder

def start (sink : Sink) (table : StringTable) : Encoder := ⟨sink, 0, [], table⟩

def location (e : Encoder) : Location := ⟨e.frames.head?, e.offset⟩

def enter (t : Tag) (e : Encoder) : Encoder := { e with frames := t :: e.frames }

def leave (e : Encoder) : Encoder := { e with frames := e.frames.tail }

def refuse (r : Refusal) : Step Encoder Unit := fun e ↦ (.error (.unsupported r e.location), e)

def emit (bs : Bytes) : Step Encoder Unit := fun e ↦
  match e.sink.accept bs with
  | (true, sink) => (.ok (), { e with sink := sink, offset := e.offset + bs.length })
  | (false, sink) => (.error (.device .full), { e with sink := sink })

/-- The string is in the table before its id is written, even if there is no room for the id. -/
def emitText (s : String) : Step Encoder Unit := fun e ↦
  emit (word 4 (e.table.intern s).1.toNat) { e with table := (e.table.intern s).2 }

/-- The greatest length or count, which is a signed number on the wire. -/
def maxCount : Nat := 0x7fffffff

def emitCount (n : Nat) : Step Encoder Unit :=
  if n ≤ maxCount then emit (word 4 n) else refuse (.tooLong n)

mutual

/-- A frame that fails inside stays open. -/
def put : Field → Step Encoder Unit
  | .raw bs => emit bs
  | .count n => emitCount n
  | .text s => emitText s
  | .refusal r => refuse r
  | .frame t payload => do
    emit [t.code]
    Step.modify (enter t)
    putAll payload
    Step.modify leave

def putAll : List Field → Step Encoder Unit
  | [] => pure ()
  | f :: fs => do
    put f
    putAll fs

end

end Encoder

end TreeBytecode.Wire
