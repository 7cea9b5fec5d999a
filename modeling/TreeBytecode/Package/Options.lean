import TreeBytecode.Decoder
import TreeBytecode.Stream.Compression

namespace TreeBytecode

open Wire

/-- Which artifacts share a string table. -/
inductive StringScope
  | package
  | class_
deriving DecidableEq, Inhabited

structure PackageOptions where
  /-- The version to write; artifacts that are read name theirs. -/
  version : FormatVersion
  compression : Compression
  scope : StringScope
  maxDepth : Nat
deriving DecidableEq

def PackageOptions.default : PackageOptions :=
  ⟨.current, .none, .package, Decoder.defaultMaxDepth⟩

instance : Inhabited PackageOptions := ⟨.default⟩

end TreeBytecode
