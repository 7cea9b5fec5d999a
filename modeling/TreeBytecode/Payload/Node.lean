import TreeBytecode.Payload.Declaration

namespace TreeBytecode

open Wire

namespace Node

def fields (layout : Layout) : Node → List Field
  | .byte v => [.u8 v]
  | .int32 v => [.i32 v]
  | .uint32 v => [.u32 v]
  | .uint64 v => [.u64 v]
  | .string s => [.text s]
  | .classDef c => c.fields layout
  | .method m => m.fields layout
  | .parameter p => p.fields
  | .property p => p.fields
  | .position p => p.fields
  | .codeBlock b => CodeBlock.fields b
  | .statement s => s.fields
  | .component c => c.fields

def frame (layout : Layout) (n : Node) : Field := .frame n.tag (n.fields layout)

def plan (layout : Layout) : Tag → Plan Node
  | .byte => .byte <$> .u8
  | .int32 => .int32 <$> .i32
  | .uint32 => .uint32 <$> .u32
  | .uint64 => .uint64 <$> .u64
  | .string => .string <$> .text
  | .classDef => .classDef <$> Class.plan
  | .method => .method <$> Method.plan layout
  | .parameter => .parameter <$> Parameter.plan
  | .property => .property <$> Property.plan
  | .position => .position <$> Position.plan
  | .codeBlock => .codeBlock <$> CodeBlock.plan
  | .statement => .statement <$> Statement.plan
  | .component => .component <$> Component.plan

end Node

theorem ClassMember.frame_eq (layout : Layout) (m : ClassMember) :
    m.frame layout = m.toNode.frame layout := by
  cases m <;> simp [ClassMember.frame, toNode, Node.frame, Node.fields, Node.tag]

variable (layout : Layout)

theorem blockFrame?_eq (o : Option CodeBlock) :
    blockFrame? o = (o.map (Node.frame layout ∘ .codeBlock)).toList := by
  cases o <;> simp [blockFrame?, Node.frame, Node.fields, Node.tag, CodeBlock.fields]

theorem statementFrame?_eq (o : Option Statement) :
    statementFrame? o = (o.map (Node.frame layout ∘ .statement)).toList := by
  cases o <;> simp [statementFrame?, Node.frame, Node.fields, Node.tag]

theorem componentFrame?_eq (o : Option Component) :
    componentFrame? o = (o.map (Node.frame layout ∘ .component)).toList := by
  cases o <;> simp [componentFrame?, Node.frame, Node.fields, Node.tag]

theorem Slot.children_nil {α : Type} (a : α) : children ([] : List (Slot α)) a = [] := rfl

theorem Slot.children_cons {α : Type} (s : Slot α) (slots : List (Slot α)) (a : α) :
    children (s :: slots) a =
      ((s.child a).map s.expected.toNode).toList ++ children slots a := by
  simp only [children, List.filterMap_cons]
  cases s.child a <;> rfl

theorem Statement.fields_eq (s : Statement) :
    s.fields = [.u32 s.kind.bits, .u32 s.code.bits, .text s.arg, .text s.target.name] ++
      Field.array (componentFrames s.components) ++ [.u8 (Slot.presence slots s)] ++
      (Slot.children slots s).map (Node.frame layout) := by
  cases s
  simp [fields, slots, Slot.children_cons, Slot.children_nil, blockFrame?_eq layout,
    Function.comp_def, Option.toList_map, Expectation.toNode]

theorem Component.fields_eq (c : Component) :
    c.fields = [.u32 c.kind.bits, .u32 c.code.bits, .u8 c.context.code, .u64 c.raw, .text c.arg] ++
      Field.strings c.args ++ [c.position.frame, .u8 (Slot.presence slots c)] ++
      (Slot.children slots c).map (Node.frame layout) := by
  cases c
  simp [fields, slots, Slot.children_cons, Slot.children_nil, blockFrame?_eq layout,
    statementFrame?_eq layout, componentFrame?_eq layout, Function.comp_def, Option.toList_map,
    Expectation.toNode]

theorem Property.fields_eq (p : Property) :
    p.fields = [.u8 MemberKind.property.code, .u32 p.modifiers.bits, .text p.name,
        .text p.returnType.name, p.position.frame, .u8 p.state] ++
      (Slot.children slots p).map (Node.frame layout) := by
  cases p
  simp [fields, slots, Slot.children_cons, Slot.children_nil, blockFrame?_eq layout,
    Function.comp_def, Option.toList_map, Expectation.toNode]

end TreeBytecode
