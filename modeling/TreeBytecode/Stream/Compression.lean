import TreeBytecode.Stream.Codec
import TreeBytecode.Wire.Plan

namespace TreeBytecode

open Wire

/-- Streams are packed as a whole or not at all; what is written and read is the same. -/
inductive Compression
  | none
  | zstd (level : Int32)
deriving DecidableEq, Inhabited

namespace Compression

variable (z : Stream.Codec)

def pack : Compression → Bytes → Bytes
  | .none, content => content
  | .zstd level, content => z.pack level content

/-- What a writer leaves that is not finished. -/
def unfinished : Compression → Bytes → Bytes
  | .none, content => content
  | .zstd level, content => z.unfinished level content

def open_ (c : Compression) (bytes : Bytes) (fault? : Option Fault) : Cursor :=
  match c with
  | .none => .start bytes (.ofFault? fault?)
  | .zstd _ => .start [] (.packed (z.unpack bytes fault?))

end Compression

end TreeBytecode
