import TreeBytecode.Stream.Codec
import TreeBytecode.Stream.Zstandard.Unpacker

namespace TreeBytecode.Stream.Zstandard

open Wire

/-- The beginning of the frame: a window of two mebibytes, and nothing else. -/
def head : Bytes := magic ++ [0x00, 0x58]

def storedBlock (last : Bool) (content : Bytes) : Bytes :=
  BlockHeader.bytes ⟨last, .stored, content.length⟩ ++ content

def storedBlocks : (fuel : Nat) → Bytes → Bytes
  | 0, _ => []
  | fuel + 1, content =>
    if content = [] then []
    else storedBlock false (content.take maxBlock) ++ storedBlocks fuel (content.drop maxBlock)

/-- What a writer has sent when all of the content is sent and nothing is closed. -/
def flushed (content : Bytes) : Bytes := head ++ storedBlocks content.length content

def closing : Bytes := storedBlock true []

/-- A codec that spends no effort: a stream is one frame of stored blocks. -/
def storing : Codec where
  pack _ content := flushed content ++ closing
  unfinished _ _ := []
  unpack := Unpacker.source

end TreeBytecode.Stream.Zstandard
