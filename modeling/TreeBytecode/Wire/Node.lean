import TreeBytecode.Tree.Declaration
import TreeBytecode.Wire.Tag

namespace TreeBytecode

open Wire (Tag)

inductive Node
  | byte (value : UInt8)
  | int32 (value : Int32)
  | uint32 (value : UInt32)
  | uint64 (value : UInt64)
  | string (value : String)
  | classDef (value : Class)
  | method (value : Method)
  | parameter (value : Parameter)
  | property (value : Property)
  | position (value : Position)
  | codeBlock (value : CodeBlock)
  | statement (value : Statement)
  | component (value : Component)

namespace Node

def tag : Node → Tag
  | .byte _ => .byte
  | .int32 _ => .int32
  | .uint32 _ => .uint32
  | .uint64 _ => .uint64
  | .string _ => .string
  | .classDef _ => .classDef
  | .method _ => .method
  | .parameter _ => .parameter
  | .property _ => .property
  | .position _ => .position
  | .codeBlock _ => .codeBlock
  | .statement _ => .statement
  | .component _ => .component

/-- The node as it comes back from storage. -/
def persisted : Node → Node
  | .classDef c => .classDef c.persisted
  | n => n

/-- Equal up to what is not persisted of classes. -/
def same : Node → Node → Bool
  | .byte a, .byte b => a == b
  | .int32 a, .int32 b => a == b
  | .uint32 a, .uint32 b => a == b
  | .uint64 a, .uint64 b => a == b
  | .string a, .string b => a == b
  | .classDef a, .classDef b => a.same b
  | .method a, .method b => a == b
  | .parameter a, .parameter b => a == b
  | .property a, .property b => a == b
  | .position a, .position b => a == b
  | .codeBlock a, .codeBlock b => a == b
  | .statement a, .statement b => a == b
  | .component a, .component b => a == b
  | _, _ => false

instance : BEq Node := ⟨same⟩

@[simp] theorem tag_persisted (n : Node) : n.persisted.tag = n.tag := by
  cases n <;> rfl

theorem same_iff_persisted_eq (m n : Node) : m.same n = true ↔ m.persisted = n.persisted := by
  cases m <;> cases n <;> simp [same, persisted, Class.same_iff_persisted_eq]

end Node

def ClassMember.toNode : ClassMember → Node
  | .method m => .method m
  | .property p => .property p
  | .nested c => .classDef c

namespace Wire

/-- What a reader asks for: a frame of one tag, a member of a class, or anything. -/
inductive Expectation
  | only (tag : Tag)
  | member
  | any
deriving DecidableEq, Inhabited

namespace Expectation

def accepts : Expectation → Tag → Bool
  | .only t, u => t == u
  | .member, u => u == .method || u == .property || u == .classDef
  | .any, _ => true

def name : Expectation → String
  | .only t => t.name
  | .member => "Method, Property or Class"
  | .any => "any node"

@[reducible] def Content : Expectation → Type
  | .only .byte => UInt8
  | .only .int32 => Int32
  | .only .uint32 => UInt32
  | .only .uint64 => UInt64
  | .only .string => String
  | .only .classDef => Class
  | .only .method => Method
  | .only .parameter => Parameter
  | .only .property => Property
  | .only .position => Position
  | .only .codeBlock => CodeBlock
  | .only .statement => Statement
  | .only .component => Component
  | .member => ClassMember
  | .any => Node

def toNode : (e : Expectation) → e.Content → Node
  | .only .byte, v => .byte v
  | .only .int32, v => .int32 v
  | .only .uint32, v => .uint32 v
  | .only .uint64, v => .uint64 v
  | .only .string, v => .string v
  | .only .classDef, v => .classDef v
  | .only .method, v => .method v
  | .only .parameter, v => .parameter v
  | .only .property, v => .property v
  | .only .position, v => .position v
  | .only .codeBlock, v => .codeBlock v
  | .only .statement, v => .statement v
  | .only .component, v => .component v
  | .member, v => v.toNode
  | .any, v => v

def ofNode? : (e : Expectation) → Node → Option e.Content
  | .any, n => some n
  | .member, .method m => some (.method m)
  | .member, .property p => some (.property p)
  | .member, .classDef c => some (.nested c)
  | .only .byte, .byte v => some v
  | .only .int32, .int32 v => some v
  | .only .uint32, .uint32 v => some v
  | .only .uint64, .uint64 v => some v
  | .only .string, .string v => some v
  | .only .classDef, .classDef v => some v
  | .only .method, .method v => some v
  | .only .parameter, .parameter v => some v
  | .only .property, .property v => some v
  | .only .position, .position v => some v
  | .only .codeBlock, .codeBlock v => some v
  | .only .statement, .statement v => some v
  | .only .component, .component v => some v
  | _, _ => none

theorem isSome_ofNode? (e : Expectation) (n : Node) : (e.ofNode? n).isSome = e.accepts n.tag := by
  rcases e with t | _ | _
  · cases t <;> cases n <;> rfl
  · cases n <;> rfl
  · rfl

theorem ofNode?_eq_some_iff {e : Expectation} {n : Node} {v : e.Content} :
    e.ofNode? n = some v ↔ n = e.toNode v := by
  rcases e with t | _ | _
  · cases t <;> cases n <;> simp [ofNode?, toNode, eq_comm]
  · cases n <;> cases v <;> simp [ofNode?, toNode, ClassMember.toNode, eq_comm]
  · simp [ofNode?, toNode]

end Expectation

end Wire

end TreeBytecode
