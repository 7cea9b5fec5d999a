import TreeBytecode.Payload.Code

namespace TreeBytecode

open Wire

def MemberKind.plan (kind : MemberKind) : Plan Unit := .checked .u8 fun code ↦
  if code = kind.code then .ok () else .error (.wrongMember code kind)

namespace Parameter

def fields (p : Parameter) : List Field := [.text p.type.name, .text p.name]

def plan : Plan Parameter := return { type := ← .typeName, name := ← .text }

end Parameter

namespace Property

def gettableBit : UInt8 := 0x01
def settableBit : UInt8 := 0x02
def initializableBit : UInt8 := 0x04

def capabilityBits : UInt8 := gettableBit ||| settableBit ||| initializableBit

def slots : List (Slot Property) := [
  { bit := 0x08
    expected := .only .codeBlock
    child := Property.getter
    fill := fun b p ↦ { p with getter := some b } },
  { bit := 0x10
    expected := .only .codeBlock
    child := Property.setter
    fill := fun b p ↦ { p with setter := some b } },
  { bit := 0x20
    expected := .only .codeBlock
    child := Property.initializer
    fill := fun b p ↦ { p with initializer := some b } }]

/-- Capabilities in the low bits, bodies above them. -/
def state (p : Property) : UInt8 :=
  Slot.presence slots p ||| (if p.gettable then gettableBit else 0) |||
    (if p.settable then settableBit else 0) ||| (if p.initializable then initializableBit else 0)

def fields (p : Property) : List Field :=
  [.u8 MemberKind.property.code, .u32 p.modifiers.bits, .text p.name, .text p.returnType.name,
    p.position.frame, .u8 p.state] ++
    blockFrame? p.getter ++ blockFrame? p.setter ++ blockFrame? p.initializer

def plan : Plan Property := do
  MemberKind.property.plan
  let modifiers ← .u32
  let name ← .text
  let returnType ← .typeName
  let position ← .child (.only .position)
  let state ← .mask (capabilityBits ||| Slot.bits slots) "property state"
  Slot.readPresent state slots
    { modifiers := ⟨modifiers⟩, name, returnType, position
      gettable := state &&& gettableBit != 0
      settable := state &&& settableBit != 0
      initializable := state &&& initializableBit != 0
      getter := none
      setter := none
      initializer := none }

end Property

namespace Method

def plainMarker : UInt8 := 0
def constructorMarker : UInt8 := 1

def ending : Layout → Method → List Field
  | .kindMarker, m =>
    match m.kind with
    | .plain => [.u8 plainMarker]
    | .constructor calls => .u8 constructorMarker :: Field.array (componentFrames calls)
  | .reservedName, m =>
    match m.kind with
    | .plain => if m.name = constructorName then [.refusal .reservedName] else []
    | .constructor calls =>
      if m.name = constructorName then Field.array (componentFrames calls)
      else [.refusal (.misnamedConstructor m.name)]

def fields (layout : Layout) (m : Method) : List Field :=
  if m.synthetic then [.refusal (.synthetic m.name)]
  else
    [.u8 MemberKind.method.code, .u32 m.modifiers.bits, .text m.name, .text m.returnType.name,
      m.position.frame] ++
      Field.array (m.parameters.map fun p ↦ .frame .parameter p.fields) ++
      [CodeBlock.frame m.body] ++ m.ending layout

def constructorPlan : Plan MethodKind := .constructor <$> .array (.only .component)

def markerPlan : Plan Bool := .checked .u8 fun code ↦
  if code = plainMarker then .ok false
  else if code = constructorMarker then .ok true
  else .error (.unknownMarker code)

def kindPlan (layout : Layout) (name : String) : Plan MethodKind :=
  match layout with
  | .kindMarker => do if ← markerPlan then constructorPlan else return .plain
  | .reservedName => if name = constructorName then constructorPlan else return .plain

def plan (layout : Layout) : Plan Method := do
  MemberKind.method.plan
  let modifiers ← .u32
  let name ← .text
  let returnType ← .typeName
  let position ← .child (.only .position)
  let parameters ← .array (.only .parameter)
  let body ← .child (.only .codeBlock)
  let kind ← kindPlan layout name
  return { modifiers := ⟨modifiers⟩, name, returnType, position, parameters, body, kind
           synthetic := false }

end Method

mutual

def Class.fields (layout : Layout) : Class → List Field
  | ⟨kind, modifiers, name, imports, superclasses, interfaces, members, typeParameters, _⟩ =>
    [.u8 MemberKind.nested.code, .u8 kind.code, .u32 modifiers.bits, .text name] ++
      Field.strings imports ++ Field.names (superclasses.map TypeRef.name) ++
      Field.names (interfaces.map TypeRef.name) ++ Field.array (memberFrames layout members) ++
      Field.strings typeParameters

def ClassMember.frame (layout : Layout) : ClassMember → Field
  | .method m => .frame .method (m.fields layout)
  | .property p => .frame .property p.fields
  | .nested c => .frame .classDef (c.fields layout)

def memberFrames (layout : Layout) : List ClassMember → List Field
  | [] => []
  | m :: ms => if m.isSynthetic then memberFrames layout ms
    else m.frame layout :: memberFrames layout ms

end

def ClassKind.plan : Plan ClassKind := .checked .u8 fun code ↦
  match ofCode? code with
  | some kind => .ok kind
  | none => .error (.unknownClassKind code)

def Class.plan : Plan Class := do
  MemberKind.nested.plan
  let kind ← ClassKind.plan
  let modifiers ← .u32
  let name ← .text
  let imports ← .array (.only .string)
  let superclasses ← .typeNames
  let interfaces ← .typeNames
  let members ← .array .member
  let typeParameters ← .array (.only .string)
  return { kind, modifiers := ⟨modifiers⟩, name, imports, superclasses, interfaces, members
           typeParameters, index := some (memberIndex members) }

theorem memberFrames_eq (layout : Layout) (ms : List ClassMember) :
    memberFrames layout ms = (declared ms).map (ClassMember.frame layout) := by
  induction ms with
  | nil => simp [memberFrames, declared]
  | cons m ms ih => cases h : m.isSynthetic <;> simp_all [memberFrames, declared]

end TreeBytecode
