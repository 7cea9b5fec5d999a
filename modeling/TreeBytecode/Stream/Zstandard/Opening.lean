import TreeBytecode.Stream.Zstandard.Earlier

namespace TreeBytecode.Stream.Zstandard

open Wire

/-- What begins with a magic. -/
inductive Opening
  | frame (header : FrameHeader)
  | earlier (header : EarlierHeader)
  /-- So many bytes that have no meaning. -/
  | skipped (size : Nat)
deriving DecidableEq

def opensSkipped : Bytes → Bool
  | [] => true
  | b :: bytes => b &&& 0xf0 == 0x50 && bytes.isPrefixOf [0x2a, 0x4d, 0x18]

def opening (bytes : Bytes) : Part Opening :=
  if (bytes.take 4).isPrefixOf magic then
    match bytes.drop 4 with
    | [] => .cut
    | descriptor :: rest =>
      match frameHeader descriptor rest with
      | .whole header rest => .whole (.frame header) rest
      | .cut => .cut
      | .corrupt => .corrupt
  else if opensSkipped (bytes.take 4) then
    if bytes.length < 8 then .cut
    else .whole (.skipped (ofBytes ((bytes.drop 4).take 4))) (bytes.drop 8)
  else match earlierFormat? (bytes.take 4) with
    | none => .corrupt
    | some format =>
      match EarlierHeader.parse format (bytes.drop 4) with
      | .whole header rest => .whole (.earlier header) rest
      | .cut => .cut
      | .corrupt => .corrupt

end TreeBytecode.Stream.Zstandard
