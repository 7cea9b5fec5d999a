import TreeBytecode.Proofs.Levels

namespace TreeBytecode

open Wire

namespace Piece

variable {S : Node → Bytes → Prop} {layout : Layout} {ps : List Piece} {bs : Bytes}

theorem two_mul_length_le_widths
    (h : ∀ m, .inner m ∈ ps → 2 * m.frames.length ≤ m.width layout) :
    2 * ((nodes ps).flatMap Node.frames).length ≤ widths layout ps := by
  induction ps with
  | nil => exact Nat.zero_le _
  | cons p ps ih =>
    have hps := ih fun m hm ↦ h m (.tail p hm)
    rw [widths_cons]
    cases p with
    | own count =>
      rw [nodes]
      omega
    | inner m =>
      have hm := h m (.head ps)
      rw [nodes, List.flatMap_cons, List.length_append, width]
      omega

theorem Row.infix_of_mem (h : Row S ps bs) {m : Node} (hm : .inner m ∈ ps) :
    ∃ cs, cs <:+: bs ∧ S m cs := by
  induction h with
  | nil => cases hm
  | @own count ps bs cs hl _ ih =>
    obtain ⟨ds, hds, hS⟩ := ih (List.mem_of_ne_of_mem (by simp) hm)
    exact ⟨ds, hds.trans (List.suffix_append bs cs).isInfix, hS⟩
  | @inner m' ps bs cs hin _ ih =>
    rcases List.mem_cons.1 hm with heq | hm
    · obtain rfl : m = m' := inner.inj heq
      exact ⟨bs, (List.prefix_append bs cs).isInfix, hin⟩
    · obtain ⟨ds, hds, hS⟩ := ih hm
      exact ⟨ds, hds.trans (List.suffix_append bs cs).isInfix, hS⟩

end Piece

namespace Node

variable {layout : Layout}

theorem mem_frames_of_mem_embedded {m n : Node} (h : m ∈ n.embedded) : m ∈ n.frames := by
  have hm : m ∈ m.frames := by
    rw [frames_eq]
    exact .head _
  rw [frames_eq]
  exact .tail _ (List.mem_flatMap.2 ⟨m, h, hm⟩)

/-- Every payload begins with a piece of the node itself, which is not empty. -/
theorem pieces_eq_cons (layout : Layout) (n : Node) :
    ∃ k ps, n.pieces layout = .own (k + 1) :: ps := by
  cases n <;> exact ⟨_, _, rfl⟩

theorem two_mul_length_frames_le (layout : Layout) (n : Node) :
    2 * n.frames.length ≤ n.width layout := by
  induction n using induction with
  | step n ih =>
    obtain ⟨k, ps, hps⟩ := n.pieces_eq_cons layout
    have hnodes : Piece.nodes ps = n.embedded := by
      have hall : Piece.nodes (n.pieces layout) = n.embedded := nodes_pieces n
      rwa [hps, Piece.nodes] at hall
    have hwidths : 2 * ((Piece.nodes ps).flatMap frames).length ≤ Piece.widths layout ps := by
      apply Piece.two_mul_length_le_widths
      intro m hm
      apply ih
      rw [← hnodes]
      exact Piece.mem_nodes_iff.2 hm
    rw [hnodes] at hwidths
    rw [frames_eq, List.length_cons, width_eq, hps, Piece.widths_cons, Piece.width]
    omega

end Node

namespace Decoder

variable {d : Decoder} {levels : Nat} {e : Expectation} {bs : Bytes} {v : e.Content}

theorem two_mul_length_frames_le (h : d.Accepts levels e bs v) :
    2 * (e.toNode v).frames.length ≤ bs.length := by
  rw [length_of_accepts h]
  exact Node.two_mul_length_frames_le d.layout _

theorem two_le_length (h : d.Accepts levels e bs v) : 2 ≤ bs.length := by
  have := two_mul_length_frames_le h
  rw [Node.frames_eq, List.length_cons] at this
  omega

/-- The bytes of a frame at any level are among those of the outermost one. -/
theorem frames_of_accepts (h : d.Accepts levels e bs v) {m : Node}
    (hm : m ∈ (e.toNode v).frames) : ∃ cs below, cs <:+: bs ∧ d.Frames below m cs := by
  induction levels generalizing e bs v with
  | zero => exact h.elim
  | succ levels ih =>
    rw [Node.frames_eq, List.mem_cons, List.mem_flatMap] at hm
    obtain rfl | ⟨k, hk, hmk⟩ := hm
    · exact ⟨bs, levels + 1, List.infix_rfl, e, v, rfl, h⟩
    · obtain ⟨payload, rfl, hrow⟩ := row_of_accepts h
      obtain ⟨cs, hcs, e', v', rfl, hv'⟩ := hrow.infix_of_mem (Node.mem_pieces_iff.2 hk)
      obtain ⟨ds, below, hds, hframes⟩ := ih hv' hmk
      exact ⟨ds, below, hds.trans (hcs.trans (List.suffix_cons _ payload).isInfix), hframes⟩

end Decoder

namespace Wire.Field

variable {t : StringTable} {bs : Bytes}

theorem mul_length_le_of_allBytes? {α : Type} {f : α → Field} {as : List α} {k : Nat}
    (h : ∀ a ∈ as, ∀ b, (f a).bytes? t = some b → k ≤ b.length)
    (hb : allBytes? t (as.map f) = some bs) : k * as.length ≤ bs.length := by
  induction as generalizing bs with
  | nil => exact Nat.zero_le _
  | cons a as ih =>
    obtain ⟨b₁, b₂, h₁, h₂, rfl⟩ := allBytes?_cons.1 hb
    obtain ⟨ha, has⟩ := List.forall_mem_cons.1 h
    have hfirst := ha b₁ h₁
    have hrest := ih has h₂
    rw [List.length_append, List.length_cons, Nat.mul_succ]
    omega

theorem infix_of_allBytes? {fs gs : List Field} (h : fs <:+: gs)
    (hb : allBytes? t gs = some bs) : ∃ cs, cs <:+: bs ∧ allBytes? t fs = some cs := by
  obtain ⟨before, after, rfl⟩ := h
  obtain ⟨b₁, b₂, h₁, -, rfl⟩ := allBytes?_append.1 hb
  obtain ⟨b₃, cs, -, hcs, rfl⟩ := allBytes?_append.1 h₁
  exact ⟨cs, ⟨b₃, b₂, rfl⟩, hcs⟩

theorem allBytes?_of_refusal_mem {fs : List Field} {r : Refusal} (h : refusal r ∈ fs) :
    allBytes? t fs = none := by
  obtain ⟨before, after, rfl⟩ := List.append_of_mem h
  apply Option.eq_none_iff_forall_ne_some.2
  intro bs hb
  obtain ⟨b₁, b₂, -, h₂, -⟩ := allBytes?_append.1 hb
  obtain ⟨b₃, b₄, h₃, -, -⟩ := allBytes?_cons.1 h₂
  cases h₃

theorem allBytes?_names (ss : List String) :
    allBytes? t (names ss) = allBytes? t (strings ss) := by
  have hname (s : String) : allBytes? t [.tag .string, .text s] =
      (frame .string [.text s]).bytes? t := by
    rw [bytes?, allBytes?, tag, bytes?]
    cases allBytes? t [.text s] <;> rfl
  have hnames : allBytes? t (ss.flatMap fun s ↦ [.tag .string, .text s]) =
      allBytes? t (ss.map fun s ↦ .frame .string [.text s]) := by
    induction ss with
    | nil => rfl
    | cons s ss ih =>
      apply Option.ext
      intro bs
      rw [List.flatMap_cons, List.map_cons, allBytes?_append, allBytes?_cons, hname, ih]
  rw [names, strings, array, allBytes?, allBytes?, hnames, List.length_map]

end Wire.Field

namespace Node

def arrays : Node → List (List Node)
  | .classDef c => [c.imports.map .string, c.superclasses.map fun r ↦ .string r.name,
      c.interfaces.map fun r ↦ .string r.name, c.declaredMembers.map ClassMember.toNode,
      c.typeParameters.map .string]
  | .method m => m.parameters.map .parameter ::
      match m.kind with
      | .plain => []
      | .constructor calls => [calls.map .component]
  | .codeBlock b => [b.map .statement]
  | .statement s => [s.components.map .component]
  | .component c => [c.args.map .string]
  | .byte _ | .int32 _ | .uint32 _ | .uint64 _ | .string _ | .parameter _ | .property _
  | .position _ => []

theorem mem_embedded_of_mem_arrays {m n : Node} {ns : List Node} (hns : ns ∈ n.arrays)
    (hm : m ∈ ns) : m ∈ n.embedded := by
  cases n with
  | classDef c =>
    simp only [arrays, List.mem_cons, List.not_mem_nil, or_false] at hns
    rw [embedded]
    obtain rfl | rfl | rfl | rfl | rfl := hns <;>
      simp only [List.mem_append, hm, true_or, or_true]
  | method d =>
    rw [embedded, Method.superCalls]
    rw [arrays] at hns
    cases hk : d.kind with
    | plain =>
      rw [hk, List.mem_singleton] at hns
      obtain rfl := hns
      simp only [List.mem_append, List.mem_cons, hm, true_or, or_true]
    | constructor calls =>
      rw [hk] at hns
      simp only [List.mem_cons, List.not_mem_nil, or_false] at hns
      obtain rfl | rfl := hns <;>
        simp only [List.mem_append, List.mem_cons, hm, true_or, or_true]
  | codeBlock =>
    obtain rfl := List.mem_singleton.1 hns
    exact hm
  | statement | component =>
    obtain rfl := List.mem_singleton.1 hns
    exact List.mem_append_left _ hm
  | _ => cases hns

def Holds (layout : Layout) (fs : List Field) (ns : List Node) : Prop :=
  (∃ gs, gs <:+: fs ∧ ∀ t, Field.allBytes? t gs =
    Field.allBytes? t (Field.array (ns.map (frame layout)))) ∨ ∃ r, .refusal r ∈ fs

section Fields

variable {layout : Layout} {t : StringTable} {fs gs : List Field} {ns : List Node} {bs : Bytes}

theorem Holds.of_mem (h : Holds layout gs ns) {rows : List (List Field)} (hgs : gs ∈ rows) :
    Holds layout rows.flatten ns := by
  have hrows : gs <:+: rows.flatten := List.infix_of_mem_flatten hgs
  obtain ⟨hs, hin, hbytes⟩ | ⟨r, hr⟩ := h
  · exact .inl ⟨hs, hin.trans hrows, hbytes⟩
  · exact .inr ⟨r, hrows.subset hr⟩

theorem Holds.of_eq (h : gs = Field.array (ns.map (frame layout))) : Holds layout gs ns :=
  .inl ⟨gs, List.infix_rfl, fun t ↦ congrArg (Field.allBytes? t) h⟩

theorem holds_strings (layout : Layout) (ss : List String) :
    Holds layout (Field.strings ss) (ss.map string) := by
  apply Holds.of_eq
  rw [List.map_map]
  rfl

theorem holds_names (rs : List TypeRef) :
    Holds layout (Field.names (rs.map TypeRef.name)) (rs.map fun r ↦ string r.name) := by
  refine .inl ⟨_, List.infix_rfl, fun t ↦ ?_⟩
  rw [Field.allBytes?_names, Field.strings, List.map_map, List.map_map]
  rfl

theorem holds_components (layout : Layout) (cs : List Component) :
    Holds layout (Field.array (componentFrames cs)) (cs.map component) := by
  apply Holds.of_eq
  rw [List.map_map, componentFrames_eq]
  rfl

theorem holds_members (ms : List ClassMember) :
    Holds layout (Field.array (memberFrames layout ms))
      ((declared ms).map ClassMember.toNode) := by
  have hframe : ClassMember.frame layout = frame layout ∘ ClassMember.toNode :=
    funext (ClassMember.frame_eq layout)
  apply Holds.of_eq
  rw [List.map_map, memberFrames_eq, hframe]

theorem holds_classDef {c : Class} (h : ns ∈ (classDef c).arrays) :
    Holds layout (c.fields layout) ns := by
  have hfields : c.fields layout = [[.u8 MemberKind.nested.code, .u8 c.kind.code,
      .u32 c.modifiers.bits, .text c.name], Field.strings c.imports,
      Field.names (c.superclasses.map TypeRef.name), Field.names (c.interfaces.map TypeRef.name),
      Field.array (memberFrames layout c.members), Field.strings c.typeParameters].flatten := by
    cases c
    simp only [Class.fields, List.flatten_cons, List.flatten_nil, List.append_assoc,
      List.append_nil]
  rw [hfields]
  simp only [arrays, List.mem_cons, List.not_mem_nil, or_false] at h
  obtain rfl | rfl | rfl | rfl | rfl := h
  · exact (holds_strings layout c.imports).of_mem (by simp)
  · exact (holds_names c.superclasses).of_mem (by simp)
  · exact (holds_names c.interfaces).of_mem (by simp)
  · exact (holds_members c.members).of_mem (by simp)
  · exact (holds_strings layout c.typeParameters).of_mem (by simp)

theorem holds_ending {m : Method} {calls : List Component} (h : m.kind = .constructor calls) :
    Holds layout (m.ending layout) (calls.map component) := by
  have hcalls := holds_components layout calls
  cases layout with
  | kindMarker =>
    have hending : m.ending .kindMarker =
        [[.u8 Method.constructorMarker], Field.array (componentFrames calls)].flatten := by
      rw [Method.ending, h]
      simp
    rw [hending]
    exact hcalls.of_mem (by simp)
  | reservedName =>
    rw [Method.ending, h]
    dsimp only
    split
    · exact hcalls
    · exact .inr ⟨_, .head _⟩

theorem holds_method {m : Method} (h : ns ∈ (method m).arrays) :
    Holds layout (m.fields layout) ns := by
  rw [Method.fields]
  split
  · exact .inr ⟨_, .head _⟩
  · let own : List Field := [.u8 MemberKind.method.code, .u32 m.modifiers.bits, .text m.name,
      .text m.returnType.name, m.position.frame]
    let parameters : List Field := Field.array (m.parameters.map fun p ↦ .frame .parameter p.fields)
    have hrows : own ++ parameters ++ [CodeBlock.frame m.body] ++ m.ending layout =
        [own, parameters, [CodeBlock.frame m.body], m.ending layout].flatten := by
      simp
    have hparameters : Holds layout parameters (m.parameters.map parameter) := by
      apply Holds.of_eq
      rw [List.map_map]
      rfl
    rw [hrows]
    rw [arrays, List.mem_cons] at h
    obtain rfl | h := h
    · exact hparameters.of_mem (by simp)
    · cases hk : m.kind with
      | plain =>
        rw [hk] at h
        cases h
      | constructor calls =>
        rw [hk] at h
        obtain rfl := List.mem_singleton.1 h
        exact (holds_ending hk).of_mem (by simp)

/-- Every array of a node stands among its fields. -/
theorem holds_of_mem_arrays (layout : Layout) {n : Node} (h : ns ∈ n.arrays) :
    Holds layout (n.fields layout) ns := by
  cases n with
  | classDef c => exact holds_classDef h
  | method m => exact holds_method h
  | codeBlock b =>
    obtain rfl := List.mem_singleton.1 h
    apply Holds.of_eq
    rw [List.map_map, fields, CodeBlock.fields, statementFrames_eq]
    rfl
  | statement s =>
    obtain rfl := List.mem_singleton.1 h
    have hrows : s.fields = [[.u32 s.kind.bits, .u32 s.code.bits, .text s.arg,
        .text s.target.name], Field.array (componentFrames s.components),
        [.u8 (Slot.presence Statement.slots s)],
        (Slot.children Statement.slots s).map (frame layout)].flatten := by
      rw [s.fields_eq layout]
      simp
    rw [fields, hrows]
    exact (holds_components layout s.components).of_mem (by simp)
  | component c =>
    obtain rfl := List.mem_singleton.1 h
    have hrows : c.fields = [[.u32 c.kind.bits, .u32 c.code.bits, .u8 c.context.code, .u64 c.raw,
        .text c.arg], Field.strings c.args, [c.position.frame,
        .u8 (Slot.presence Component.slots c)],
        (Slot.children Component.slots c).map (frame layout)].flatten := by
      rw [c.fields_eq layout]
      simp
    rw [fields, hrows]
    exact (holds_strings layout c.args).of_mem (by simp)
  | _ => cases h

theorem array_of_bytes? {n : Node} (hb : (n.frame layout).bytes? t = some bs)
    (h : ns ∈ n.arrays) : ∃ cs, cs <:+: bs ∧
      Field.allBytes? t (Field.array (ns.map (frame layout))) = some cs := by
  obtain ⟨payload, hpayload, rfl⟩ := Field.bytes?_frame.1 hb
  obtain ⟨gs, hgs, hbytes⟩ | ⟨r, hr⟩ := holds_of_mem_arrays layout h
  · obtain ⟨cs, hcs, harray⟩ := Field.infix_of_allBytes? hgs hpayload
    refine ⟨cs, hcs.trans (List.suffix_cons _ payload).isInfix, ?_⟩
    rw [← hbytes, harray]
  · rw [Field.allBytes?_of_refusal_mem hr] at hpayload
    cases hpayload

end Fields

end Node

/-- An array at any level has at least four bytes for its count and two for each element. -/
theorem Decoder.array_of_accepts {d : Decoder} {levels : Nat} {e : Expectation} {bs : Bytes}
    {v : e.Content} (h : d.Accepts levels e bs v) {m : Node} (hm : m ∈ (e.toNode v).frames)
    {ns : List Node} (hns : ns ∈ m.arrays) : ∃ cs, cs <:+: bs ∧
      Field.allBytes? d.scope.table (Field.array (ns.map (Node.frame d.layout))) = some cs ∧
      4 + 2 * ns.length ≤ cs.length := by
  obtain ⟨bs', below, hbs', e', v', rfl, hv'⟩ := frames_of_accepts h hm
  have hframe := ((d.accepts_iff below e' bs' v').1 hv').1
  obtain ⟨cs, hcs, harray⟩ := Node.array_of_bytes? hframe hns
  refine ⟨cs, hcs.trans hbs', harray, ?_⟩
  obtain ⟨count, elements, hcount, helements, rfl⟩ := Field.allBytes?_cons.1 harray
  have hfour : count.length = 4 := by
    rw [Field.bytes?, Option.ite_none_right_eq_some] at hcount
    rw [← Option.some.inj hcount.2]
    exact length_word 4 _
  have htwo : 2 * ns.length ≤ elements.length := by
    refine Field.mul_length_le_of_allBytes? (fun k hk b hb ↦ ?_) helements
    have hmem := Node.mem_frames_of_mem_embedded (Node.mem_embedded_of_mem_arrays hns hk)
    obtain ⟨b', below', -, e'', v'', rfl, hk'⟩ := frames_of_accepts hv' hmem
    obtain rfl := Option.some.inj (hb.symm.trans ((d.accepts_iff below' e'' b' v'').1 hk').1)
    exact two_le_length hk'
  rw [List.length_append]
  omega

end TreeBytecode
