import TreeBytecode.Wire.Node
import TreeBytecode.Wire.Version

namespace TreeBytecode.Wire

structure Location where
  frame : Option Tag
  offset : Nat
deriving DecidableEq, Inhabited

def Location.outside : Location := ⟨none, 0⟩

def Location.text (at_ : Location) : String :=
  match at_.frame with
  | some t => "in " ++ t.name ++ " frame at byte " ++ at_.offset.repr
  | none => "at byte " ++ at_.offset.repr

inductive Defect
  | unknownTag (code : Nat)
  | unexpectedFrame (expected : Expectation) (found : Tag)
  | negativeLength (value : Int)
  | strayBits (mask : String) (bits : UInt8)
  | wrongMember (found : UInt8) (expected : MemberKind)
  | unknownClassKind (code : UInt8)
  | unknownContext (code : UInt8)
  | unknownMarker (code : UInt8)
  | invalidText
  | missingNewline
  | duplicateEntry (entry : String)
  | other (detail : String)
deriving DecidableEq, Inhabited

def Defect.text : Defect → String
  | .unknownTag code => "unknown element tag " ++ code.repr
  | .unexpectedFrame expected found =>
    "expected " ++ expected.name ++ " frame, found " ++ found.name
  | .negativeLength value => "negative length " ++ value.repr
  | .strayBits mask bits => "unknown " ++ mask ++ " bits " ++ Text.hex 2 bits.toNat
  | .wrongMember found expected =>
    "member kind " ++ found.toNat.repr ++ " where " ++ expected.name ++ " (" ++
      expected.code.toNat.repr ++ ") was expected"
  | .unknownClassKind code => "unknown class kind " ++ code.toNat.repr
  | .unknownContext code => "unknown variable context " ++ code.toNat.repr
  | .unknownMarker code => "unknown method kind marker " ++ code.toNat.repr
  | .invalidText => "string entry is not valid UTF-8"
  | .missingNewline => "missing newline marker"
  | .duplicateEntry entry => "duplicate string entry " ++ Text.quote entry
  | .other detail => detail

inductive Refusal
  | synthetic (name : String)
  | misnamedConstructor (name : String)
  | reservedName
  | tooLong (length : Nat)
  | unusableFileName (name : String)
  | other (detail : String)
deriving DecidableEq, Inhabited

def Refusal.text : Refusal → String
  | .synthetic name => "synthetic method `" ++ name ++ "` is never persisted"
  | .misnamedConstructor name =>
    "constructor `" ++ name ++ "` must be named `" ++ constructorName ++ "` in this format version"
  | .reservedName =>
    "plain method cannot use the reserved name `" ++ constructorName ++ "` in this format version"
  | .tooLong length => "length " ++ length.repr ++ " exceeds i32::MAX"
  | .unusableFileName name => "class name " ++ Text.quote name ++ " cannot be used as a file name"
  | .other detail => detail

inductive Symbol
  | stringId (id : Nat)
  | typeName (name : String)
deriving DecidableEq, Inhabited

def Symbol.text : Symbol → String
  | .stringId id => "string id " ++ id.repr
  | .typeName name => "type `" ++ name ++ "`"

/-- Faults of what lies beneath a stream: a file, a device, a packed stream. -/
inductive Fault
  | notFound | isDirectory | notDirectory | alreadyExists
  /-- A path that no file system takes. -/
  | unusablePath
  | nameTooLong
  | full | unexpectedEnd | other
deriving DecidableEq, Inhabited

inductive Failure
  | malformed (defect : Defect) (place : Location)
  /-- The frame asked for is of another type. -/
  | typeMismatch (expected : Expectation) (found : Tag) (place : Location)
  | truncated (wanted : Nat) (place : Location)
  | unresolved (symbol : Symbol) (place : Location)
  | unsupported (refusal : Refusal) (place : Location)
  | unsupportedVersion (version : FormatVersion)
  | invalidMagic
  | tooDeep (limit : Nat) (place : Location)
  | device (fault : Fault)
deriving DecidableEq, Inhabited

namespace Failure

def place? : Failure → Option Location
  | .malformed _ p | .typeMismatch _ _ p | .truncated _ p | .unresolved _ p | .unsupported _ p
  | .tooDeep _ p => some p
  | .unsupportedVersion _ | .invalidMagic | .device _ => none

def message : Failure → String
  | .malformed defect p => "structural mismatch: " ++ defect.text ++ " (" ++ p.text ++ ")"
  | .typeMismatch expected found p =>
    "type mismatch: expected " ++ expected.name ++ ", found " ++ found.name ++ " (" ++ p.text ++ ")"
  | .truncated wanted p =>
    "truncated stream: ended while reading " ++ wanted.repr ++ " bytes (" ++ p.text ++ ")"
  | .unresolved symbol p => "unresolved symbol: " ++ symbol.text ++ " (" ++ p.text ++ ")"
  | .unsupported refusal p => "unsupported node: " ++ refusal.text ++ " (" ++ p.text ++ ")"
  | .unsupportedVersion version => "unsupported format version " ++ version.text
  | .invalidMagic => "invalid magic: expected KBC\\0"
  | .tooDeep limit p =>
    "recursion limit of " ++ limit.repr ++ " nested frames exceeded (" ++ p.text ++ ")"
  | .device _ => "io error"

end Failure

end TreeBytecode.Wire
