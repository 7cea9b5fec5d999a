namespace TreeBytecode.Wire

structure FormatVersion where
  major : UInt16
  minor : UInt16
deriving DecidableEq, Inhabited

namespace FormatVersion

def v0_10 : FormatVersion := ⟨0, 10⟩
def v0_11 : FormatVersion := ⟨0, 11⟩
def current : FormatVersion := v0_11

def text (v : FormatVersion) : String := v.major.toNat.repr ++ "." ++ v.minor.toNat.repr

def compare (v w : FormatVersion) : Ordering :=
  (Ord.compare v.major w.major).then (Ord.compare v.minor w.minor)

end FormatVersion

inductive Layout
  /-- A method is a constructor exactly if it has the name set aside for constructors. -/
  | reservedName
  /-- Each method ends with a byte that says whether it is a constructor. -/
  | kindMarker
deriving DecidableEq, Inhabited

end TreeBytecode.Wire
