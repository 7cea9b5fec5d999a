import TreeBytecode.Payload.Slot

namespace TreeBytecode

open Wire

namespace Position

def fields (p : Position) : List Field := [.i32 p.line, .i32 p.column]

def frame (p : Position) : Field := .frame .position p.fields

def plan : Plan Position := return { line := ← .i32, column := ← .i32 }

end Position

def Statement.slots : List (Slot Statement) := [
  { bit := 0x01
    expected := .only .codeBlock
    child := Statement.finallyBlock
    fill := fun b s ↦ { s with finallyBlock := some b } }]

def Component.slots : List (Slot Component) := [
  { bit := 0x01
    expected := .only .statement
    child := Component.subStatement
    fill := fun s c ↦ { c with subStatement := some s } },
  { bit := 0x02
    expected := .only .statement
    child := Component.altStatement
    fill := fun s c ↦ { c with altStatement := some s } },
  { bit := 0x04
    expected := .only .component
    child := Component.subComponent
    fill := fun d c ↦ { c with subComponent := some d } },
  { bit := 0x08
    expected := .only .component
    child := Component.altComponent
    fill := fun d c ↦ { c with altComponent := some d } },
  { bit := 0x10
    expected := .only .component
    child := Component.postComponent
    fill := fun d c ↦ { c with postComponent := some d } },
  { bit := 0x20
    expected := .only .codeBlock
    child := Component.innerCode
    fill := fun b c ↦ { c with innerCode := some b } }]

mutual

def Statement.fields : Statement → List Field
  | s@⟨kind, code, arg, target, components, finallyBlock⟩ =>
    [.u32 kind.bits, .u32 code.bits, .text arg, .text target.name] ++
      Field.array (componentFrames components) ++ [.u8 (Slot.presence Statement.slots s)] ++
      blockFrame? finallyBlock

def Component.fields : Component → List Field
  | c@⟨kind, code, context, raw, arg, args, position, s₁, s₂, c₁, c₂, c₃, block⟩ =>
    [.u32 kind.bits, .u32 code.bits, .u8 context.code, .u64 raw, .text arg] ++
      Field.strings args ++ [position.frame, .u8 (Slot.presence Component.slots c)] ++
      statementFrame? s₁ ++ statementFrame? s₂ ++ componentFrame? c₁ ++ componentFrame? c₂ ++
      componentFrame? c₃ ++ blockFrame? block

def componentFrames : List Component → List Field
  | [] => []
  | c :: cs => .frame .component c.fields :: componentFrames cs

def statementFrames : List Statement → List Field
  | [] => []
  | s :: ss => .frame .statement s.fields :: statementFrames ss

def statementFrame? : Option Statement → List Field
  | none => []
  | some s => [.frame .statement s.fields]

def componentFrame? : Option Component → List Field
  | none => []
  | some c => [.frame .component c.fields]

def blockFrame? : Option (List Statement) → List Field
  | none => []
  | some b => [.frame .codeBlock (Field.array (statementFrames b))]

end

namespace CodeBlock

def fields (b : CodeBlock) : List Field := Field.array (statementFrames b)

def frame (b : CodeBlock) : Field := .frame .codeBlock (fields b)

end CodeBlock

def Statement.plan : Plan Statement := do
  let kind ← .u32
  let code ← .u32
  let arg ← .text
  let target ← .typeName
  let components ← .array (.only .component)
  let mask ← .mask (Slot.bits slots) "statement presence"
  Slot.readPresent mask slots
    { kind := ⟨kind⟩, code := ⟨code⟩, arg, target, components, finallyBlock := none }

def VariableContext.plan : Plan VariableContext := .checked .u8 fun code ↦
  match ofCode? code with
  | some context => .ok context
  | none => .error (.unknownContext code)

def Component.plan : Plan Component := do
  let kind ← .u32
  let code ← .u32
  let context ← VariableContext.plan
  let raw ← .u64
  let arg ← .text
  let args ← .array (.only .string)
  let position ← .child (.only .position)
  let mask ← .mask (Slot.bits slots) "component presence"
  Slot.readPresent mask slots
    { Component.bare ⟨kind⟩ ⟨code⟩ with context, raw, arg, args, position }

def CodeBlock.plan : Plan CodeBlock := .array (.only .statement)

theorem componentFrames_eq (cs : List Component) :
    componentFrames cs = cs.map fun c ↦ .frame .component c.fields := by
  induction cs with
  | nil => simp [componentFrames]
  | cons c cs ih => simp [componentFrames, ih]

theorem statementFrames_eq (ss : List Statement) :
    statementFrames ss = ss.map fun s ↦ .frame .statement s.fields := by
  induction ss with
  | nil => simp [statementFrames]
  | cons s ss ih => simp [statementFrames, ih]

end TreeBytecode
