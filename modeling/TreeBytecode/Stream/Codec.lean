import TreeBytecode.Stream.Source

namespace TreeBytecode.Stream

open Wire

/-- A way to pack streams, which may spend more or less effort on a stream. -/
structure Codec where
  pack : (level : Int32) → Bytes → Bytes
  /-- What is sent of a stream that is given up before it is finished. -/
  unfinished : (level : Int32) → Bytes → Bytes
  /-- Reads a packed stream, after which may come a fault. -/
  unpack : Bytes → Option Fault → Source

/-- Whatever is packed comes out again. -/
def Codec.ReadsBack (z : Codec) : Prop :=
  ∀ level content, (z.unpack (z.pack level content) none).Gives content

end TreeBytecode.Stream
