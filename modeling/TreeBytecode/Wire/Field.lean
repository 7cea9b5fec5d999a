import TreeBytecode.Wire.Failure
import TreeBytecode.Wire.Word

namespace TreeBytecode.Wire

inductive Field
  | raw (bytes : Bytes)
  /-- A length or a count, which is a signed number on the wire. -/
  | count (n : Nat)
  /-- A string, of which the id is written. -/
  | text (s : String)
  /-- A tag and its payload, inside a frame of their own. -/
  | frame (tag : Tag) (payload : List Field)
  /-- A value without written form stands here. -/
  | refusal (r : Refusal)

namespace Field

def u8 (v : UInt8) : Field := .raw [v]
def u16 (v : UInt16) : Field := .raw (word 2 v.toNat)
def u32 (v : UInt32) : Field := .raw (word 4 v.toNat)
def u64 (v : UInt64) : Field := .raw (word 8 v.toNat)
def i32 (v : Int32) : Field := .u32 v.toUInt32

def tag (t : Tag) : Field := .raw [t.code]

def array (frames : List Field) : List Field := .count frames.length :: frames

def strings (ss : List String) : List Field := array (ss.map fun s ↦ .frame .string [.text s])

def names (ss : List String) : List Field :=
  .count ss.length :: ss.flatMap fun s ↦ [.tag .string, .text s]

end Field

end TreeBytecode.Wire
