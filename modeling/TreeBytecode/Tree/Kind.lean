import TreeBytecode.Text.Quoted

namespace TreeBytecode

/-- The names that an open family of 32-bit values gives to some of them. -/
structure Vocabulary where
  title : String
  names : List (UInt32 × String)

namespace Vocabulary

def name? (v : Vocabulary) (bits : UInt32) : Option String := v.names.lookup bits

def label (v : Vocabulary) (bits : UInt32) : String :=
  (v.name? bits).getD (Text.hex 8 bits.toNat)

def describe (v : Vocabulary) (bits : UInt32) : String :=
  match v.name? bits with
  | some name => v.title ++ "::" ++ name
  | none => v.title ++ "(" ++ Text.hex 8 bits.toNat ++ ")"

end Vocabulary

structure StatementKind where
  bits : UInt32
deriving DecidableEq, Inhabited

namespace StatementKind

def vocabulary : Vocabulary where
  title := "StatementKind"
  names := [
    (0x00, "Undefined"), (0x10, "Expression"), (0x30, "Declaration"), (0x100, "Setter"),
    (0x70, "Pipe"), (0x80, "Code"), (0x11, "Operator"), (0x12, "Provider"), (0x76, "Consumer"),
    (0x78, "Emitter"), (0x7f, "Lambda")]

def expression : StatementKind := ⟨0x10⟩
def operator : StatementKind := ⟨0x11⟩
def provider : StatementKind := ⟨0x12⟩

def isExpression (k : StatementKind) : Bool := k.bits &&& expression.bits != 0

def label (k : StatementKind) : String := vocabulary.label k.bits

end StatementKind

structure BytecodeKind where
  bits : UInt32
deriving DecidableEq, Inhabited

namespace BytecodeKind

def vocabulary : Vocabulary where
  title := "BytecodeKind"
  names := [
    (0xffffffff, "Undefined"), (0x00000001, "Declaration"), (0x00000002, "Assignment"),
    (0x00000004, "Expression"), (0x00000008, "Statement"), (0x0000000f, "Operator"),
    (0x00000014, "Parentheses"), (0x00000021, "DeclarationNumeric"),
    (0x00000041, "DeclarationString"), (0x00000081, "DeclarationByte"),
    (0x000000f1, "DeclarationVariable"), (0x00000104, "LiteralNumeric"),
    (0x00000204, "LiteralString"), (0x00000404, "LiteralTrue"), (0x00000804, "LiteralFalse"),
    (0x0f000004, "LiteralRange"), (0x00000f04, "ExpressionVariable"),
    (0x00001004, "NullFallback"), (0x00002008, "StmtMark"), (0x00004008, "StmtJump"),
    (0x00110008, "StmtIf"), (0x00120008, "StmtCond"), (0x00140008, "StmtElse"),
    (0x00210008, "StmtDo"), (0x00220008, "StmtWhile"), (0x00240008, "StmtTry"),
    (0x00280008, "StmtCatch"), (0x00180008, "StmtFinally"), (0x00410008, "StmtFor"),
    (0x00420008, "StmtForEach"), (0x00440008, "StmtSwitch"), (0x00480008, "StmtCase"),
    (0x00800004, "Cast"), (0x00810004, "Instanceof"), (0x00820000, "Indexer"),
    (0x00840004, "TupularExpression"), (0x00880004, "ArrayConstructor"),
    (0x01000000, "ParameterExpression"), (0x02000000, "StdioExpression"),
    (0x12000000, "EndlExpression"), (0x04000000, "TypeExpression"),
    (0x08000000, "ConstructorCall"), (0x20000004, "Call"), (0x40000008, "Throw"),
    (0x80000008, "Return"), (0xf0000004, "Null")]

def undefined : BytecodeKind := ⟨0xffffffff⟩
def statement : BytecodeKind := ⟨0x8⟩
def operator : BytecodeKind := ⟨0xf⟩
def expressionVariable : BytecodeKind := ⟨0xf04⟩

/-- The statement bit is set; the undefined kind has all bits and is none. -/
def isStatement (k : BytecodeKind) : Bool :=
  k != undefined && k.bits &&& statement.bits != 0

def label (k : BytecodeKind) : String := vocabulary.label k.bits

end BytecodeKind

structure Operator where
  bits : UInt32
deriving DecidableEq, Inhabited

namespace Operator

def vocabulary : Vocabulary where
  title := "Operator"
  names := (0, "Unknown") :: [
    "IncrementRead", "DecrementRead", "ReadIncrement", "ReadDecrement", "LogicNot",
    "ArithmeticNot", "Plus", "Minus", "Multiply", "Divide", "Modulus", "Pow", "Equals",
    "NotEquals", "Greater", "GreaterEq", "Lesser", "LesserEq", "BitAnd", "BitOr", "LogicAnd",
    "LogicOr", "LShift", "RShift", "ULShift", "URShift", "NullFallback"].mapIdx
      fun i name ↦ (1 <<< UInt32.ofNat (i + 1), name)

def binaryFlag : UInt32 := 0x40000000

def toPayload (o : Operator) : UInt64 := o.bits.toUInt64

def ofPayload (raw : UInt64) : Operator := ⟨raw.toUInt32⟩

end Operator

inductive VariableContext
  | localName | thisObject | superObject | property | absolute
deriving DecidableEq, Inhabited

namespace VariableContext

def code : VariableContext → UInt8
  | .localName => 0
  | .thisObject => 1
  | .superObject => 2
  | .property => 3
  | .absolute => 4

def ofCode? : UInt8 → Option VariableContext
  | 0 => some .localName
  | 1 => some .thisObject
  | 2 => some .superObject
  | 3 => some .property
  | 4 => some .absolute
  | _ => none

def name : VariableContext → String
  | .localName => "local"
  | .thisObject => "this"
  | .superObject => "super"
  | .property => "property"
  | .absolute => "absolute"

@[simp] theorem ofCode?_code (c : VariableContext) : ofCode? c.code = some c := by
  cases c <;> rfl

end VariableContext

end TreeBytecode
