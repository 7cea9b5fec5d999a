import TreeBytecode.Payload.Node

namespace TreeBytecode

open Wire

namespace Node

def embedded : Node → List Node
  | .classDef c =>
    c.imports.map .string ++ c.superclasses.map (fun r ↦ .string r.name) ++
      c.interfaces.map (fun r ↦ .string r.name) ++ c.declaredMembers.map ClassMember.toNode ++
      c.typeParameters.map .string
  | .method m =>
    .position m.position :: m.parameters.map .parameter ++
      .codeBlock m.body :: m.superCalls.map .component
  | .property p => .position p.position :: Slot.children Property.slots p
  | .codeBlock b => b.map .statement
  | .statement s => s.components.map .component ++ Slot.children Statement.slots s
  | .component c => c.args.map .string ++ .position c.position :: Slot.children Component.slots c
  | .byte _ | .int32 _ | .uint32 _ | .uint64 _ | .string _ | .parameter _ | .position _ => []

section Members

variable {m : Node}

theorem mem_embedded_classDef {c : Class} : m ∈ (classDef c).embedded ↔
    (∃ s ∈ c.imports, string s = m) ∨ (∃ r ∈ c.superclasses, string r.name = m) ∨
      (∃ r ∈ c.interfaces, string r.name = m) ∨ (∃ d ∈ c.declaredMembers, d.toNode = m) ∨
      ∃ s ∈ c.typeParameters, string s = m := by
  simp only [embedded, List.mem_append, List.mem_map, or_assoc]

theorem mem_embedded_method {d : Method} : m ∈ (method d).embedded ↔
    m = position d.position ∨ (∃ p ∈ d.parameters, parameter p = m) ∨ m = codeBlock d.body ∨
      ∃ c ∈ d.superCalls, component c = m := by
  simp only [embedded, List.cons_append, List.mem_cons, List.mem_append, List.mem_map]

theorem mem_embedded_property {p : Property} : m ∈ (property p).embedded ↔
    m = position p.position ∨ (∃ b, p.getter = some b ∧ codeBlock b = m) ∨
      (∃ b, p.setter = some b ∧ codeBlock b = m) ∨
      ∃ b, p.initializer = some b ∧ codeBlock b = m := by
  simp only [embedded, Property.slots, Slot.children_cons, Slot.children_nil, List.mem_cons,
    List.mem_append, Option.mem_toList, Option.map_eq_some_iff, Expectation.toNode,
    List.not_mem_nil, or_false]

theorem mem_embedded_codeBlock {b : CodeBlock} :
    m ∈ (codeBlock b).embedded ↔ ∃ s ∈ b, statement s = m := List.mem_map

theorem mem_embedded_statement {s : Statement} : m ∈ (statement s).embedded ↔
    (∃ c ∈ s.components, component c = m) ∨
      ∃ b, s.finallyBlock = some b ∧ codeBlock b = m := by
  simp only [embedded, Statement.slots, Slot.children_cons, Slot.children_nil, List.mem_map,
    List.mem_append, Option.mem_toList, Option.map_eq_some_iff, Expectation.toNode,
    List.not_mem_nil, or_false]

theorem mem_embedded_component {c : Component} : m ∈ (component c).embedded ↔
    (∃ s ∈ c.args, string s = m) ∨ m = position c.position ∨
      (∃ s, c.subStatement = some s ∧ statement s = m) ∨
      (∃ s, c.altStatement = some s ∧ statement s = m) ∨
      (∃ d, c.subComponent = some d ∧ component d = m) ∨
      (∃ d, c.altComponent = some d ∧ component d = m) ∨
      (∃ d, c.postComponent = some d ∧ component d = m) ∨
      ∃ b, c.innerCode = some b ∧ codeBlock b = m := by
  simp only [embedded, Component.slots, Slot.children_cons, Slot.children_nil, List.mem_cons,
    List.mem_map, List.mem_append, Option.mem_toList, Option.map_eq_some_iff,
    Expectation.toNode, List.not_mem_nil, or_false]

end Members

theorem sizeOf_string_lt {r : TypeRef} {rs : List TypeRef} (h : r ∈ rs) :
    sizeOf (Node.string r.name) < 1 + sizeOf rs := by
  have := List.sizeOf_lt_of_mem h
  cases r
  simp only [string.sizeOf_spec, TypeRef.mk.sizeOf_spec] at this ⊢
  omega

theorem sizeOf_member_lt {m : ClassMember} {ms : List ClassMember} (h : m ∈ declared ms) :
    sizeOf m.toNode < 1 + sizeOf ms := by
  have := List.sizeOf_lt_of_mem (List.mem_filter.1 h).1
  cases m <;>
    simp only [ClassMember.toNode, method.sizeOf_spec, property.sizeOf_spec, classDef.sizeOf_spec,
      ClassMember.method.sizeOf_spec, ClassMember.property.sizeOf_spec,
      ClassMember.nested.sizeOf_spec] at this ⊢ <;> omega

theorem sizeOf_superCall_lt {m : Method} {c : Component} (h : c ∈ m.superCalls) :
    sizeOf c < sizeOf m.kind := by
  obtain ⟨modifiers, name, type, place, parameters, body, _ | calls, synthetic⟩ := m
  · exact absurd h List.not_mem_nil
  · have : sizeOf c < sizeOf calls := List.sizeOf_lt_of_mem h
    simp only [MethodKind.constructor.sizeOf_spec]
    omega

theorem sizeOf_lt_classDef {c : Class} {m : Node} (h : m ∈ (classDef c).embedded) :
    sizeOf m < sizeOf (classDef c) := by
  obtain ⟨kind, modifiers, name, imports, supers, interfaces, members, parameters, index⟩ := c
  simp only [classDef.sizeOf_spec, Class.mk.sizeOf_spec]
  obtain ⟨s, hs, rfl⟩ | ⟨r, hr, rfl⟩ | ⟨r, hr, rfl⟩ | ⟨d, hd, rfl⟩ | ⟨s, hs, rfl⟩ :=
    mem_embedded_classDef.1 h
  · have : sizeOf s < sizeOf imports := List.sizeOf_lt_of_mem hs
    simp only [string.sizeOf_spec]
    omega
  · have : sizeOf (string r.name) < 1 + sizeOf supers := sizeOf_string_lt hr
    omega
  · have : sizeOf (string r.name) < 1 + sizeOf interfaces := sizeOf_string_lt hr
    omega
  · have : sizeOf d.toNode < 1 + sizeOf members := sizeOf_member_lt hd
    omega
  · have : sizeOf s < sizeOf parameters := List.sizeOf_lt_of_mem hs
    simp only [string.sizeOf_spec]
    omega

theorem sizeOf_lt_method {d : Method} {m : Node} (h : m ∈ (method d).embedded) :
    sizeOf m < sizeOf (method d) := by
  have hcall {c : Component} (hc : c ∈ d.superCalls) : sizeOf c < sizeOf d.kind :=
    sizeOf_superCall_lt hc
  obtain ⟨modifiers, name, type, place, parameters, body, kind, synthetic⟩ := d
  simp only [method.sizeOf_spec, Method.mk.sizeOf_spec]
  obtain rfl | ⟨p, hp, rfl⟩ | rfl | ⟨c, hc, rfl⟩ := mem_embedded_method.1 h
  · simp only [position.sizeOf_spec]
    omega
  · have : sizeOf p < sizeOf parameters := List.sizeOf_lt_of_mem hp
    simp only [parameter.sizeOf_spec]
    omega
  · simp only [codeBlock.sizeOf_spec]
    omega
  · have := hcall hc
    simp only [component.sizeOf_spec] at this ⊢
    omega

theorem sizeOf_lt_property {p : Property} {m : Node} (h : m ∈ (property p).embedded) :
    sizeOf m < sizeOf (property p) := by
  obtain ⟨modifiers, name, type, place, g, s, i, getter, setter, initializer⟩ := p
  simp only [property.sizeOf_spec, Property.mk.sizeOf_spec]
  obtain rfl | ⟨b, rfl, rfl⟩ | ⟨b, rfl, rfl⟩ | ⟨b, rfl, rfl⟩ := mem_embedded_property.1 h
  · simp only [position.sizeOf_spec]
    omega
  all_goals
    simp only [codeBlock.sizeOf_spec, Option.some.sizeOf_spec]
    omega

theorem sizeOf_lt_statement {s : Statement} {m : Node} (h : m ∈ (statement s).embedded) :
    sizeOf m < sizeOf (statement s) := by
  obtain ⟨kind, code, arg, target, components, block⟩ := s
  simp only [statement.sizeOf_spec, Statement.mk.sizeOf_spec]
  obtain ⟨c, hc, rfl⟩ | ⟨b, rfl, rfl⟩ := mem_embedded_statement.1 h
  · have : sizeOf c < sizeOf components := List.sizeOf_lt_of_mem hc
    simp only [component.sizeOf_spec]
    omega
  · simp only [codeBlock.sizeOf_spec, Option.some.sizeOf_spec]
    omega

theorem sizeOf_lt_component {c : Component} {m : Node} (h : m ∈ (component c).embedded) :
    sizeOf m < sizeOf (component c) := by
  obtain ⟨kind, code, context, raw, arg, args, place, s₁, s₂, c₁, c₂, c₃, block⟩ := c
  simp only [component.sizeOf_spec, Component.mk.sizeOf_spec]
  obtain ⟨s, hs, rfl⟩ | rfl | ⟨s, rfl, rfl⟩ | ⟨s, rfl, rfl⟩ | ⟨d, rfl, rfl⟩ | ⟨d, rfl, rfl⟩ |
    ⟨d, rfl, rfl⟩ | ⟨b, rfl, rfl⟩ := mem_embedded_component.1 h
  · have : sizeOf s < sizeOf args := List.sizeOf_lt_of_mem hs
    simp only [string.sizeOf_spec]
    omega
  · simp only [position.sizeOf_spec]
    omega
  all_goals
    simp only [statement.sizeOf_spec, component.sizeOf_spec, codeBlock.sizeOf_spec,
      Option.some.sizeOf_spec]
    omega

theorem sizeOf_lt_of_mem_embedded {m n : Node} (h : m ∈ n.embedded) : sizeOf m < sizeOf n := by
  cases n with
  | classDef c => exact sizeOf_lt_classDef h
  | method d => exact sizeOf_lt_method h
  | property p => exact sizeOf_lt_property h
  | codeBlock b =>
    obtain ⟨s, hs, rfl⟩ := mem_embedded_codeBlock.1 h
    have := List.sizeOf_lt_of_mem hs
    simp only [statement.sizeOf_spec, codeBlock.sizeOf_spec]
    omega
  | statement s => exact sizeOf_lt_statement h
  | component c => exact sizeOf_lt_component h
  | byte | int32 | uint32 | uint64 | string | parameter | position =>
    exact absurd h List.not_mem_nil

def frames (n : Node) : List Node := n :: n.embedded.attach.flatMap fun m ↦ m.1.frames
termination_by sizeOf n
decreasing_by exact sizeOf_lt_of_mem_embedded m.2

def depth (n : Node) : Nat := 1 + (n.embedded.attach.map fun m ↦ m.1.depth).foldr max 0
termination_by sizeOf n
decreasing_by exact sizeOf_lt_of_mem_embedded m.2

theorem frames_eq (n : Node) : n.frames = n :: n.embedded.flatMap frames := by
  rw [frames, List.flatMap_subtype (g := frames) (fun _ _ ↦ rfl), List.unattach_attach]

theorem depth_eq (n : Node) : n.depth = 1 + (n.embedded.map depth).foldr max 0 := by
  rw [depth, List.map_subtype (g := depth) (fun _ _ ↦ rfl), List.unattach_attach]

/-- Induction on a node: what holds of all nodes directly inside it holds of the node. -/
theorem induction {P : Node → Prop} (step : ∀ n : Node, (∀ m ∈ n.embedded, P m) → P n)
    (n : Node) : P n :=
  step n fun m _ ↦ induction step m
termination_by sizeOf n
decreasing_by exact sizeOf_lt_of_mem_embedded ‹_›

theorem forall_frames {P : Node → Prop} {n : Node} :
    (∀ m ∈ n.frames, P m) ↔ P n ∧ ∀ m ∈ n.embedded, ∀ k ∈ m.frames, P k := by
  simp only [frames_eq n, List.forall_mem_cons, List.mem_flatMap, forall_exists_index, and_imp]
  exact and_congr_right fun _ ↦ ⟨fun h m hm k ↦ h k m hm, fun h k m hm ↦ h m hm k⟩

theorem foldr_max_le {ks : List Nat} {d : Nat} : ks.foldr max 0 ≤ d ↔ ∀ k ∈ ks, k ≤ d := by
  induction ks with
  | nil => simp
  | cons k ks ih => rw [List.foldr_cons, Nat.max_le, ih, List.forall_mem_cons]

theorem depth_le_succ_iff {n : Node} {d : Nat} :
    n.depth ≤ d + 1 ↔ ∀ m ∈ n.embedded, m.depth ≤ d := by
  have h : n.depth ≤ d + 1 ↔ (n.embedded.map depth).foldr max 0 ≤ d := by
    rw [depth_eq]
    omega
  rw [h, foldr_max_le, List.forall_mem_map]

theorem depth_pos (n : Node) : 0 < n.depth := by
  rw [depth_eq]
  omega

def isPlaceholder : Node → Bool
  | .method m => m.synthetic
  | _ => false

def ownTypes : Node → List TypeRef
  | .classDef c => c.superclasses ++ c.interfaces
  | .method m => [m.returnType]
  | .parameter p => [p.type]
  | .property p => [p.returnType]
  | .statement s => [s.target]
  | .byte _ | .int32 _ | .uint32 _ | .uint64 _ | .string _ | .position _ | .codeBlock _
  | .component _ => []

def typeRefs (n : Node) : List TypeRef := n.frames.flatMap ownTypes

def ownCounts : Node → List Nat
  | .classDef c => [c.imports.length, c.superclasses.length, c.interfaces.length,
      c.declaredMembers.length, c.typeParameters.length]
  | .method m => [m.parameters.length, m.superCalls.length]
  | .codeBlock b => [b.length]
  | .statement s => [s.components.length]
  | .component c => [c.args.length]
  | .byte _ | .int32 _ | .uint32 _ | .uint64 _ | .string _ | .parameter _ | .property _
  | .position _ => []

def counts (n : Node) : List Nat := n.frames.flatMap ownCounts

def method? : Node → Option Method
  | .method m => some m
  | _ => none

def methods (n : Node) : List Method := n.frames.filterMap method?

theorem isPlaceholder_toNode (m : ClassMember) : m.toNode.isPlaceholder = m.isSynthetic := by
  cases m <;> rfl

theorem isPlaceholder_of_mem_embedded {m n : Node} (h : m ∈ n.embedded) :
    m.isPlaceholder = false := by
  cases n with
  | classDef c =>
    obtain ⟨s, -, rfl⟩ | ⟨r, -, rfl⟩ | ⟨r, -, rfl⟩ | ⟨d, hd, rfl⟩ | ⟨s, -, rfl⟩ :=
      mem_embedded_classDef.1 h
    · rfl
    · rfl
    · rfl
    · simpa only [isPlaceholder_toNode, Bool.not_eq_true'] using (List.mem_filter.1 hd).2
    · rfl
  | method d =>
    obtain rfl | ⟨p, -, rfl⟩ | rfl | ⟨c, -, rfl⟩ := mem_embedded_method.1 h <;> rfl
  | property p =>
    obtain rfl | ⟨b, -, rfl⟩ | ⟨b, -, rfl⟩ | ⟨b, -, rfl⟩ := mem_embedded_property.1 h <;> rfl
  | codeBlock b =>
    obtain ⟨s, -, rfl⟩ := mem_embedded_codeBlock.1 h
    rfl
  | statement s =>
    obtain ⟨c, -, rfl⟩ | ⟨b, -, rfl⟩ := mem_embedded_statement.1 h <;> rfl
  | component c =>
    obtain ⟨s, -, rfl⟩ | rfl | ⟨s, -, rfl⟩ | ⟨s, -, rfl⟩ | ⟨d, -, rfl⟩ | ⟨d, -, rfl⟩ |
      ⟨d, -, rfl⟩ | ⟨b, -, rfl⟩ := mem_embedded_component.1 h <;> rfl
  | byte | int32 | uint32 | uint64 | string | parameter | position =>
    exact absurd h List.not_mem_nil

/-- Only the node itself can be a placeholder, for those inside it have no frames. -/
theorem isPlaceholder_of_mem_frames {m n : Node} (h : m ∈ n.frames)
    (hn : n.isPlaceholder = false) : m.isPlaceholder = false := by
  induction n using induction with
  | step n ih =>
    rw [frames_eq, List.mem_cons, List.mem_flatMap] at h
    obtain rfl | ⟨k, hk, hmk⟩ := h
    · exact hn
    · exact ih k hk hmk (isPlaceholder_of_mem_embedded hk)

end Node

end TreeBytecode
