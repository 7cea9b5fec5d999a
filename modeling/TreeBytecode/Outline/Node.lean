import TreeBytecode.Outline
import TreeBytecode.StringTable
import TreeBytecode.Wire.Node

namespace TreeBytecode

namespace Span

def plain (text : String) : Span := ⟨.plain, text⟩
def name (text : String) : Span := ⟨.name, text⟩
def literal (text : String) : Span := ⟨.literal, text⟩
def structural (text : String) : Span := ⟨.structural, text⟩

end Span

def Outline.leaf (head : List Span) : Outline := ⟨head, []⟩

def Position.label (p : Position) : String := "@" ++ p.line.toInt.repr ++ ":" ++ p.column.toInt.repr

def Modifiers.lead (m : Modifiers) : String := if m.isEmpty then "" else m.label ++ " "

def argumentSpans (arg : String) : List Span :=
  if arg.isEmpty then [] else [.plain " ", .literal (Text.quote arg)]

mutual

def Statement.outline (label : String) : Statement → Outline
  | ⟨kind, code, arg, target, components, finallyBlock⟩ =>
    { head := [.structural label, .plain (kind.label ++ "/" ++ code.label ++ " -> "),
        .name target.name] ++ argumentSpans arg
      entries := componentOutlines "" components ++ blockOutline? "finally:" finallyBlock }

def Component.outline (label : String) : Component → Outline
  | ⟨kind, code, context, raw, arg, args, position, s₁, s₂, c₁, c₂, c₃, block⟩ =>
    { head :=
        [.structural label, .plain (kind.label ++ "/" ++ code.label ++ " " ++ context.name)] ++
        (if raw = 0 then [] else [.plain " ", .literal ("raw=" ++ Text.hex 0 raw.toNat)]) ++
        argumentSpans arg ++
        (if args.isEmpty then [] else
          [.plain " (", .literal (", ".intercalate (args.map Text.quote)), .plain ")"]) ++
        (if position = .origin then [] else [.plain " ", .structural position.label])
      entries := statementOutline? "sub-statement: " s₁ ++ statementOutline? "alt-statement: " s₂ ++
        componentOutline? "sub: " c₁ ++ componentOutline? "alt: " c₂ ++
        componentOutline? "post: " c₃ ++ blockOutline? "inner:" block }

def componentOutlines (label : String) : List Component → List Outline
  | [] => []
  | c :: cs => c.outline label :: componentOutlines label cs

def statementOutlines : List Statement → List Outline
  | [] => []
  | s :: ss => s.outline "" :: statementOutlines ss

def statementOutline? (label : String) : Option Statement → List Outline
  | none => []
  | some s => [s.outline label]

def componentOutline? (label : String) : Option Component → List Outline
  | none => []
  | some c => [c.outline label]

def blockOutline? (heading : String) : Option (List Statement) → List Outline
  | none => []
  | some b => [⟨[.structural heading], statementOutlines b⟩]

end

def Parameter.spans (p : Parameter) : List Span := [.name p.type.name, .plain (" " ++ p.name)]

def Method.outline (m : Method) : Outline where
  head := [.structural (if m.isConstructor then "constructor" else "method"),
      .plain (" " ++ m.modifiers.lead), .name m.name, .plain "("] ++
    [.plain ", "].intercalate (m.parameters.map Parameter.spans) ++
    [.plain ") -> ", .name m.returnType.name, .plain " ", .structural m.position.label]
  entries := componentOutlines "super: " m.superCalls ++ statementOutlines m.body

def Property.capabilities (p : Property) : List String :=
  [(p.gettable, "get"), (p.settable, "set"), (p.initializable, "init")].filterMap
    fun (on, word) ↦ if on then some word else none

def Property.outline (p : Property) : Outline where
  head := [.structural "property", .plain (" " ++ p.modifiers.lead), .name p.name, .plain ": ",
    .name p.returnType.name, .plain (" \x7b" ++ " ".intercalate p.capabilities ++ "\x7d "),
    .structural p.position.label]
  entries := blockOutline? "get:" p.getter ++ blockOutline? "set:" p.setter ++
    blockOutline? "init:" p.initializer

mutual

def Class.outline : Class → Outline
  | ⟨kind, modifiers, className, imports, superclasses, interfaces, members, typeParameters, _⟩ =>
    { head := [.structural kind.keyword, .plain (" " ++ modifiers.lead), .name className]
      entries :=
        imports.map (fun s ↦ .leaf [.structural "import", .plain " ", .literal s]) ++
        typeParameters.map (fun s ↦ .leaf [.structural "type-param", .plain " ", .name s]) ++
        superclasses.map (fun t ↦ .leaf [.structural "extends", .plain " ", .name t.name]) ++
        interfaces.map (fun t ↦ .leaf [.structural "implements", .plain " ", .name t.name]) ++
        memberOutlines members }

def ClassMember.outline : ClassMember → Outline
  | .method m => m.outline
  | .property p => p.outline
  | .nested c => c.outline

def memberOutlines : List ClassMember → List Outline
  | [] => []
  | m :: ms => if m.isSynthetic then memberOutlines ms else m.outline :: memberOutlines ms

end

def literalOutline (word value : String) : Outline :=
  .leaf [.structural word, .plain " ", .literal value]

def Node.outline : Node → Outline
  | .byte v => literalOutline "byte" v.toNat.repr
  | .int32 v => literalOutline "int32" v.toInt.repr
  | .uint32 v => literalOutline "uint32" v.toNat.repr
  | .uint64 v => literalOutline "uint64" v.toNat.repr
  | .string s => literalOutline "string" (Text.quote s)
  | .classDef c => c.outline
  | .method m => m.outline
  | .parameter p => .leaf ([.structural "parameter", .plain " "] ++ p.spans)
  | .property p => p.outline
  | .position p => .leaf [.structural "position", .plain " ", .plain p.label]
  | .codeBlock b => ⟨[.structural "block"], statementOutlines b⟩
  | .statement s => s.outline ""
  | .component c => c.outline ""

def Node.dump (n : Node) (p : Palette) : String := (n.outline.print p .start).out

namespace StringTable

def digitCount (n : Nat) : Nat := if n < 10 then 1 else digitCount (n / 10) + 1

def idWidth (t : StringTable) : Nat := digitCount (t.size - 1)

def paddedId (width id : Nat) : String :=
  let digits := Nat.toDigits 10 id
  String.ofList (List.replicate (width - digits.length) '0' ++ digits)

def dump (t : StringTable) : String :=
  "[strings]\n" ++ String.join (t.entries.map fun (n, s) ↦
    "S" ++ paddedId t.idWidth (UInt32.ofNat n).toNat ++ " " ++ Text.quote s ++ "\n")

end StringTable

end TreeBytecode
