namespace TreeBytecode.Wire

inductive Tag
  | byte | int32 | uint32 | uint64 | string
  | classDef | method | parameter | property | position | codeBlock | statement | component
deriving DecidableEq, Inhabited

namespace Tag

def all : List Tag := [.byte, .int32, .uint32, .uint64, .string, .classDef, .method, .parameter,
  .property, .position, .codeBlock, .statement, .component]

def code : Tag → UInt8
  | .byte => 0
  | .int32 => 1
  | .uint32 => 2
  | .uint64 => 3
  | .string => 4
  | .classDef => 5
  | .method => 6
  | .parameter => 7
  | .property => 8
  | .position => 9
  | .codeBlock => 10
  | .statement => 11
  | .component => 12

def ofCode? (n : Nat) : Option Tag := all[n]?

def name : Tag → String
  | .byte => "Byte"
  | .int32 => "Int32"
  | .uint32 => "UInt32"
  | .uint64 => "UInt64"
  | .string => "String"
  | .classDef => "Class"
  | .method => "Method"
  | .parameter => "MethodParameter"
  | .property => "Property"
  | .position => "SourcePosition"
  | .codeBlock => "CodeBlock"
  | .statement => "Statement"
  | .component => "Component"

def isLiteral : Tag → Bool
  | .byte | .int32 | .uint32 | .uint64 | .string => true
  | _ => false

@[simp] theorem ofCode?_code (t : Tag) : ofCode? t.code.toNat = some t := by
  cases t <;> rfl

theorem code_of_ofCode? {n : Nat} {t : Tag} (h : ofCode? n = some t) : t.code.toNat = n := by
  have hn : n < 13 := (List.getElem?_eq_some_iff.1 h).1
  have : ∀ n : Fin 13, ∀ t ∈ ofCode? n, t.code.toNat = n := by decide
  exact this ⟨n, hn⟩ t h

end Tag

end TreeBytecode.Wire
