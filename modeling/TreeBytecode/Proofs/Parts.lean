import Mathlib.Data.List.Basic
import TreeBytecode.Outline.Node
import TreeBytecode.Proofs.Nesting

namespace TreeBytecode

open Wire

/-- What a statement or a component is to the part above it. -/
inductive Role
  | item | superCall | subStatement | altStatement | subComponent | altComponent | postComponent
deriving DecidableEq

def Role.label : Role → String
  | .item => ""
  | .superCall => "super: "
  | .subStatement => "sub-statement: "
  | .altStatement => "alt-statement: "
  | .subComponent => "sub: "
  | .altComponent => "alt: "
  | .postComponent => "post: "

inductive Heading
  | getter | setter | initializer | finallyBlock | innerCode
deriving DecidableEq

def Heading.label : Heading → String
  | .getter => "get:"
  | .setter => "set:"
  | .initializer => "init:"
  | .finallyBlock => "finally:"
  | .innerCode => "inner:"

inductive Part
  | root (n : Node)
  | importing (name : String)
  | typeParameter (name : String)
  | superclass (t : TypeRef)
  | interface (t : TypeRef)
  | member (m : ClassMember)
  | statement (role : Role) (s : Statement)
  | component (role : Role) (c : Component)
  | block (heading : Heading) (b : CodeBlock)

def Node.parts : Node → List Part
  | .classDef c =>
    c.imports.map .importing ++ c.typeParameters.map .typeParameter ++
      c.superclasses.map .superclass ++ c.interfaces.map .interface ++
      c.declaredMembers.map .member
  | .method m => m.superCalls.map (.component .superCall) ++ m.body.map (.statement .item)
  | .property p =>
    (p.getter.map (.block .getter)).toList ++ (p.setter.map (.block .setter)).toList ++
      (p.initializer.map (.block .initializer)).toList
  | .codeBlock b => b.map (.statement .item)
  | .statement s =>
    s.components.map (.component .item) ++ (s.finallyBlock.map (.block .finallyBlock)).toList
  | .component c =>
    (c.subStatement.map (.statement .subStatement)).toList ++
      (c.altStatement.map (.statement .altStatement)).toList ++
      (c.subComponent.map (.component .subComponent)).toList ++
      (c.altComponent.map (.component .altComponent)).toList ++
      (c.postComponent.map (.component .postComponent)).toList ++
      (c.innerCode.map (.block .innerCode)).toList
  | .byte _ | .int32 _ | .uint32 _ | .uint64 _ | .string _ | .parameter _ | .position _ => []

namespace Part

def node? : Part → Option Node
  | .root n => some n
  | .member m => some m.toNode
  | .statement _ s => some (.statement s)
  | .component _ c => some (.component c)
  | .block _ b => some (.codeBlock b)
  | .importing _ | .typeParameter _ | .superclass _ | .interface _ => none

def below (p : Part) : List Part := p.node?.elim [] Node.parts

/-- The statements of a method stand two frames below it, all other parts one. -/
theorem sizeOf_lt_of_mem_parts {n m : Node} {q : Part} (h : q ∈ n.parts) (hm : q.node? = some m) :
    sizeOf m < sizeOf n := by
  have hembedded {k : Node} (hk : m ∈ k.embedded) : sizeOf m < sizeOf k :=
    Node.sizeOf_lt_of_mem_embedded hk
  cases n with
  | classDef c =>
    simp only [Node.parts, List.mem_append, List.mem_map, or_assoc] at h
    obtain ⟨s, -, rfl⟩ | ⟨s, -, rfl⟩ | ⟨t, -, rfl⟩ | ⟨t, -, rfl⟩ | ⟨d, hd, rfl⟩ := h
    · cases hm
    · cases hm
    · cases hm
    · cases hm
    · obtain rfl := Option.some.inj hm
      exact hembedded (Node.mem_embedded_classDef.2 (.inr (.inr (.inr (.inl ⟨d, hd, rfl⟩)))))
  | method d =>
    simp only [Node.parts, List.mem_append, List.mem_map] at h
    obtain ⟨c, hc, rfl⟩ | ⟨s, hs, rfl⟩ := h
    · obtain rfl := Option.some.inj hm
      exact hembedded (Node.mem_embedded_method.2 (by simp [hc]))
    · obtain rfl := Option.some.inj hm
      have hbody : sizeOf (Node.codeBlock d.body) < sizeOf (Node.method d) :=
        Node.sizeOf_lt_of_mem_embedded (Node.mem_embedded_method.2 (by simp))
      exact Nat.lt_trans (hembedded (Node.mem_embedded_codeBlock.2 ⟨s, hs, rfl⟩)) hbody
  | property p =>
    simp only [Node.parts, List.mem_append, Option.mem_toList, Option.map_eq_some_iff,
      or_assoc] at h
    apply hembedded
    obtain ⟨b, hb, rfl⟩ | ⟨b, hb, rfl⟩ | ⟨b, hb, rfl⟩ := h <;> obtain rfl := Option.some.inj hm <;>
      exact Node.mem_embedded_property.2 (by simp [hb])
  | codeBlock b =>
    obtain ⟨s, hs, rfl⟩ := List.mem_map.1 h
    obtain rfl := Option.some.inj hm
    exact hembedded (Node.mem_embedded_codeBlock.2 ⟨s, hs, rfl⟩)
  | statement s =>
    simp only [Node.parts, List.mem_append, List.mem_map, Option.mem_toList,
      Option.map_eq_some_iff] at h
    apply hembedded
    obtain ⟨c, hc, rfl⟩ | ⟨b, hb, rfl⟩ := h <;> obtain rfl := Option.some.inj hm
    · exact Node.mem_embedded_statement.2 (.inl ⟨c, hc, rfl⟩)
    · exact Node.mem_embedded_statement.2 (.inr ⟨b, hb, rfl⟩)
  | component c =>
    simp only [Node.parts, List.mem_append, Option.mem_toList, Option.map_eq_some_iff,
      or_assoc] at h
    apply hembedded
    obtain ⟨s, hs, rfl⟩ | ⟨s, hs, rfl⟩ | ⟨d, hs, rfl⟩ | ⟨d, hs, rfl⟩ | ⟨d, hs, rfl⟩ |
        ⟨b, hs, rfl⟩ := h <;> obtain rfl := Option.some.inj hm <;>
      exact Node.mem_embedded_component.2 (by simp [hs])
  | byte | int32 | uint32 | uint64 | string | parameter | position =>
    exact absurd h List.not_mem_nil

noncomputable def weight (p : Part) : Nat := p.node?.elim 0 sizeOf

theorem weight_lt_of_mem_below {p q : Part} (h : q ∈ p.below) : q.weight < p.weight := by
  unfold below at h
  unfold weight
  cases hp : p.node? with
  | none =>
    rw [hp] at h
    exact absurd h List.not_mem_nil
  | some n =>
    rw [hp] at h
    cases hq : q.node? with
    | none =>
      have hpos : 0 < sizeOf n := by cases n <;> simp +arith
      exact hpos
    | some m => exact sizeOf_lt_of_mem_parts h hq

def walk (depth : Nat) (p : Part) : List (Nat × Part) :=
  (depth, p) :: p.below.attach.flatMap fun q ↦ q.1.walk (depth + 1)
termination_by p.weight
decreasing_by exact weight_lt_of_mem_below q.2

theorem walk_eq (depth : Nat) (p : Part) :
    p.walk depth = (depth, p) :: p.below.flatMap (walk (depth + 1)) := by
  rw [walk, List.flatMap_subtype (g := walk (depth + 1)) (fun _ _ ↦ rfl), List.unattach_attach]

theorem induction {P : Part → Prop} (step : ∀ p : Part, (∀ q ∈ p.below, P q) → P p) (p : Part) :
    P p :=
  step p fun q _ ↦ induction step q
termination_by p.weight
decreasing_by exact weight_lt_of_mem_below ‹_›

def outline : Part → Outline
  | .root n => n.outline
  | .importing s => .leaf [.structural "import", .plain " ", .literal s]
  | .typeParameter s => .leaf [.structural "type-param", .plain " ", .name s]
  | .superclass t => .leaf [.structural "extends", .plain " ", .name t.name]
  | .interface t => .leaf [.structural "implements", .plain " ", .name t.name]
  | .member m => m.outline
  | .statement role s => s.outline role.label
  | .component role c => c.outline role.label
  | .block heading b => ⟨[.structural heading.label], statementOutlines b⟩

end Part

theorem componentOutlines_eq (role : Role) (cs : List Component) :
    componentOutlines role.label cs = (cs.map (.component role)).map Part.outline := by
  induction cs with
  | nil => rfl
  | cons c cs ih => rw [componentOutlines, ih]; rfl

theorem statementOutlines_eq (ss : List Statement) :
    statementOutlines ss = (ss.map (.statement .item)).map Part.outline := by
  induction ss with
  | nil => rfl
  | cons s ss ih => rw [statementOutlines, ih]; rfl

theorem memberOutlines_eq (ms : List ClassMember) :
    memberOutlines ms = ((declared ms).map .member).map Part.outline := by
  induction ms with
  | nil => rfl
  | cons m ms ih =>
    rw [memberOutlines, declared, List.filter_cons]
    cases m.isSynthetic with
    | false => simpa [declared, Part.outline] using ih
    | true => simpa [declared] using ih

theorem statementOutline?_eq (role : Role) (o : Option Statement) :
    statementOutline? role.label o = (o.map (.statement role)).toList.map Part.outline := by
  cases o <;> rfl

theorem componentOutline?_eq (role : Role) (o : Option Component) :
    componentOutline? role.label o = (o.map (.component role)).toList.map Part.outline := by
  cases o <;> rfl

theorem blockOutline?_eq (heading : Heading) (o : Option CodeBlock) :
    blockOutline? heading.label o = (o.map (.block heading)).toList.map Part.outline := by
  cases o <;> rfl

theorem Node.entries_outline (n : Node) : n.outline.entries = n.parts.map Part.outline := by
  cases n with
  | classDef c =>
    obtain ⟨kind, modifiers, name, imports, supers, interfaces, members, parameters, index⟩ := c
    simp only [outline, Class.outline, parts, Class.declaredMembers, memberOutlines_eq,
      List.map_append, List.map_map]
    rfl
  | method m =>
    rw [parts, List.map_append, ← componentOutlines_eq, ← statementOutlines_eq]
    rfl
  | property p =>
    rw [parts, List.map_append, List.map_append, ← blockOutline?_eq, ← blockOutline?_eq,
      ← blockOutline?_eq]
    rfl
  | codeBlock b => exact statementOutlines_eq b
  | statement s =>
    obtain ⟨kind, code, arg, target, components, finallyBlock⟩ := s
    rw [parts, List.map_append, ← componentOutlines_eq, ← blockOutline?_eq]
    rfl
  | component c =>
    obtain ⟨kind, code, context, raw, arg, args, place, s₁, s₂, c₁, c₂, c₃, block⟩ := c
    simp only [parts, List.map_append, ← statementOutline?_eq, ← componentOutline?_eq,
      ← blockOutline?_eq]
    rfl
  | byte | int32 | uint32 | uint64 | string | parameter | position => rfl

namespace Part

/-- What a part has below it does not depend on what it is to the part above. -/
theorem entries_outline (p : Part) : p.outline.entries = p.below.map outline := by
  cases p with
  | root n => exact n.entries_outline
  | member m =>
    have hnode : m.outline = m.toNode.outline := by cases m <;> rfl
    rw [outline, hnode]
    exact m.toNode.entries_outline
  | statement role s =>
    have hlabel : (s.outline role.label).entries = (s.outline "").entries := by cases s; rfl
    exact hlabel.trans (Node.statement s).entries_outline
  | component role c =>
    have hlabel : (c.outline role.label).entries = (c.outline "").entries := by cases c; rfl
    exact hlabel.trans (Node.component c).entries_outline
  | block heading b => exact (Node.codeBlock b).entries_outline
  | importing | typeParameter | superclass | interface => rfl

end Part

theorem Outline.linesOfAll_eq (depth : Nat) (os : List Outline) :
    linesOfAll depth os = os.flatMap (lines depth) := by
  induction os with
  | nil => rfl
  | cons o os ih => rw [linesOfAll, ih, List.flatMap_cons]

theorem Outline.lines_eq (depth : Nat) (o : Outline) :
    o.lines depth = (depth, o.head) :: o.entries.flatMap (lines (depth + 1)) := by
  obtain ⟨head, entries⟩ := o
  rw [lines, linesOfAll_eq]

theorem Part.lines_outline (depth : Nat) (p : Part) :
    p.outline.lines depth = (p.walk depth).map fun e ↦ (e.1, e.2.outline.head) := by
  induction p using induction generalizing depth with
  | step p ih =>
    rw [Outline.lines_eq, p.entries_outline, walk_eq, List.map_cons, List.flatMap_map,
      List.map_flatMap]
    exact congrArg _ (List.flatMap_congr fun q hq ↦ ih q hq (depth + 1))

namespace Node

def walk (n : Node) : List (Nat × Part) := (Part.root n).walk 0

/-- The lines are those of the walk, in its order. -/
theorem toList_dump (n : Node) (p : Palette) : (n.dump p).toList =
    n.walk.flatMap fun e ↦ (Outline.renderLine p (e.1, e.2.outline.head)).toList := by
  have hlines : n.outline.lines 0 = n.walk.map fun e ↦ (e.1, e.2.outline.head) :=
    (Part.root n).lines_outline 0
  rw [dump, Outline.print_start, Outline.render, hlines, String.toList_join, List.map_map,
    List.flatMap_map]
  rfl

end Node

end TreeBytecode
