import TreeBytecode.Text.Quoted

namespace TreeBytecode

/-- A set of modifier bits; bits without a name are kept. -/
structure Modifiers where
  bits : UInt32
deriving DecidableEq, Inhabited

namespace Modifiers

def none : Modifiers := ⟨0⟩

def named : List (Modifiers × String) := [
  (⟨0x00001000⟩, "public"), (⟨0x00002000⟩, "internal"), (⟨0x00004000⟩, "protected"),
  (⟨0x00008000⟩, "private"), (⟨0x00100000⟩, "static"), (⟨0x00400000⟩, "abstract"),
  (⟨0x00800000⟩, "final"), (⟨0x01000000⟩, "native"), (⟨0x02000000⟩, "synchronized")]

def contains (m n : Modifiers) : Bool := m.bits &&& n.bits == n.bits

def isEmpty (m : Modifiers) : Bool := m.bits == 0

instance : Union Modifiers := ⟨fun m n ↦ ⟨m.bits ||| n.bits⟩⟩

def names (m : Modifiers) : List String :=
  (named.filter fun entry ↦ m.contains entry.1).map Prod.snd

def isPublic (m : Modifiers) : Bool := m.contains ⟨0x00001000⟩
def isStatic (m : Modifiers) : Bool := m.contains ⟨0x00100000⟩
def isAbstract (m : Modifiers) : Bool := m.contains ⟨0x00400000⟩
def isFinal (m : Modifiers) : Bool := m.contains ⟨0x00800000⟩

def label (m : Modifiers) : String := " ".intercalate m.names

def describe (m : Modifiers) : String := "Modifiers(" ++ Text.hex 8 m.bits.toNat ++ ")"

end Modifiers

inductive MemberKind
  | method | property | nested
deriving DecidableEq, Inhabited

namespace MemberKind

def code : MemberKind → UInt8
  | .method => 1
  | .property => 2
  | .nested => 4

def ofCode? : UInt8 → Option MemberKind
  | 1 => some .method
  | 2 => some .property
  | 4 => some .nested
  | _ => none

def name : MemberKind → String
  | .method => "Method"
  | .property => "Property"
  | .nested => "Class"

@[simp] theorem ofCode?_code (k : MemberKind) : ofCode? k.code = some k := by
  cases k <;> rfl

end MemberKind

inductive ClassKind
  | unknown | plain | enumeration | interface | annotationKind
deriving DecidableEq, Inhabited

namespace ClassKind

def code : ClassKind → UInt8
  | .unknown => 0
  | .plain => 1
  | .enumeration => 2
  | .interface => 3
  | .annotationKind => 4

def ofCode? : UInt8 → Option ClassKind
  | 0 => some .unknown
  | 1 => some .plain
  | 2 => some .enumeration
  | 3 => some .interface
  | 4 => some .annotationKind
  | _ => Option.none

def name : ClassKind → String
  | .unknown => "Unknown"
  | .plain => "Class"
  | .enumeration => "Enum"
  | .interface => "Interface"
  | .annotationKind => "Annotation"

def keyword : ClassKind → String
  | .unknown => "<unknown>"
  | .plain => "class"
  | .enumeration => "enum"
  | .interface => "interface"
  | .annotationKind => "annotation"

@[simp] theorem ofCode?_code (k : ClassKind) : ofCode? k.code = some k := by
  cases k <;> rfl

end ClassKind

end TreeBytecode
