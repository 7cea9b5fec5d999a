import TreeBytecode.Proofs.Nesting
import TreeBytecode.Proofs.Slots

namespace TreeBytecode

open Wire Wire.Plan

theorem Statement.slots_lawful : Slot.Lawful Statement.slots where
  isBit := by decide
  nodup := by decide
  child_fill := by simp [slots]
  apart := List.pairwise_singleton ..

theorem Property.slots_lawful : Slot.Lawful Property.slots where
  isBit := by decide
  nodup := by decide
  child_fill := by simp [slots]
  apart := by simp [slots, Slot.Apart]

theorem Component.slots_lawful : Slot.Lawful Component.slots where
  isBit := by decide
  nodup := by decide
  child_fill := by simp [slots]
  apart := by simp [slots, Slot.Apart]

theorem Statement.copy_slots (w s : Statement) (h : s.finallyBlock = none) :
    Slot.copy w slots s = { s with finallyBlock := w.finallyBlock } := by
  obtain ⟨kind, code, arg, target, components, block⟩ := s
  obtain rfl : block = none := h
  simp only [Slot.copy, slots]
  cases w.finallyBlock <;> rfl

theorem Property.copy_slots (w p : Property)
    (h : p.getter = none ∧ p.setter = none ∧ p.initializer = none) :
    Slot.copy w slots p =
      { p with getter := w.getter, setter := w.setter, initializer := w.initializer } := by
  obtain ⟨modifiers, name, type, place, g, s, i, getter, setter, initializer⟩ := p
  obtain ⟨rfl, rfl, rfl⟩ := h
  simp only [Slot.copy, slots]
  cases w.getter <;> cases w.setter <;> cases w.initializer <;> rfl

theorem Component.copy_slots (w : Component) (kind : StatementKind) (code : BytecodeKind)
    (context : VariableContext) (raw : UInt64) (arg : String) (args : List String)
    (place : Position) : Slot.copy w slots
      { bare kind code with context, raw, arg, args, position := place } =
      { w with kind, code, context, raw, arg, args, position := place } := by
  obtain ⟨k, c, x, r, a, as, p, s₁, s₂, c₁, c₂, c₃, block⟩ := w
  simp only [Slot.copy, slots]
  cases s₁ <;> cases s₂ <;> cases c₁ <;> cases c₂ <;> cases c₃ <;> cases block <;> rfl

def Property.flags (p : Property) : List (Bool × UInt8) :=
  Slot.flags slots p ++ [(p.gettable, gettableBit), (p.settable, settableBit),
    (p.initializable, initializableBit)]

theorem Property.flags_distinct (p : Property) : DistinctBits p.flags where
  isBit := by
    have h := slots_lawful.distinctBits p
    simp only [flags, List.forall_mem_append, List.forall_mem_cons]
    exact ⟨h.isBit, by decide, by decide, by decide, List.forall_mem_nil _⟩
  nodup := by
    change ([0x08, 0x10, 0x20, 0x01, 0x02, 0x04] : List UInt8).Nodup
    decide

theorem Property.state_eq (p : Property) : p.state = maskOf p.flags := by
  rw [state, Slot.presence_eq]
  simp only [flags, Slot.flags, slots, List.map_cons, List.map_nil, List.cons_append,
    List.nil_append, maskOf, UInt8.or_zero, UInt8.or_assoc]

theorem Property.allBits_flags (p : Property) :
    allBits p.flags = capabilityBits ||| Slot.bits slots := by
  simp only [flags, Slot.flags, slots, List.map_cons, List.map_nil, List.cons_append,
    List.nil_append, allBits]
  decide

theorem Property.state_eq_iff {mask : UInt8}
    (hm : mask &&& ~~~(capabilityBits ||| Slot.bits slots) = 0) {p : Property} :
    p.state = mask ↔ (∀ s ∈ slots, s.present p = (mask &&& s.bit != 0)) ∧
      p.gettable = (mask &&& gettableBit != 0) ∧ p.settable = (mask &&& settableBit != 0) ∧
      p.initializable = (mask &&& initializableBit != 0) := by
  rw [← p.allBits_flags] at hm
  rw [state_eq, maskOf_eq_iff p.flags_distinct hm, flags, List.forall_mem_append, Slot.flags,
    List.forall_mem_map]
  simp only [List.forall_mem_cons, List.not_mem_nil, false_imp_iff, implies_true, and_true]

theorem Property.state_and_not_bits (p : Property) :
    p.state &&& ~~~(capabilityBits ||| Slot.bits slots) = 0 := by
  rw [← p.allBits_flags, state_eq]
  exact maskOf_and_eq_zero UInt8.and_not_self

def MethodKind.calls : MethodKind → List Component
  | .plain => []
  | .constructor calls => calls

def MethodKind.tail : MethodKind → List Field
  | .plain => []
  | .constructor calls => Field.array (componentFrames calls)

/-- Where the name says what a method is, no method has bytes of which the name says otherwise. -/
theorem Method.allBytes?_ending_reservedName {t : StringTable} {m : Method} {bs : Bytes} :
    Field.allBytes? t (m.ending .reservedName) = some bs ↔
      m.isConstructor = decide (m.name = constructorName) ∧
        Field.allBytes? t m.kind.tail = some bs := by
  obtain ⟨modifiers, name, type, place, parameters, body, kind, synthetic⟩ := m
  by_cases hn : name = constructorName <;> cases kind <;>
    simp [ending, isConstructor, MethodKind.tail, hn, Field.allBytes?, Field.bytes?]

section Code

variable {scope : Scope} {G : (e : Expectation) → Grammar e.Content} {layout : Layout}
  {P : Node → Prop}

theorem Position.plan_mirrors :
    Position.plan.Mirrors scope G fields (fun _ ↦ True) fun _ ↦ True := by
  refine Mirrors.congr_fits (.congr_fields (.bind line i32_mirrors fun l _ ↦
    .bind column i32_mirrors fun c _ ↦ .pure fun p ↦ ?_) fun p _ _ ↦ ?_) fun p ↦ ?_
  · cases p
    simp only [true_and, mk.injEq]
  · rfl
  · simp only [and_self]

theorem code_mirrors {α : Type} {check : UInt8 → Except Defect α} (code : α → UInt8)
    (h : ∀ b a, check b = .ok a ↔ b = code a) :
    (checked u8 check).Mirrors scope G (fun a ↦ [.u8 (code a)]) (fun _ ↦ True) fun _ ↦ True :=
  (Mirrors.checked code u8_mirrors fun b a ↦ (h b a).trans (and_iff_left trivial).symm).congr_fits
    fun _ ↦ and_self_iff

theorem VariableContext.ofCode?_eq_some_iff {b : UInt8} {c : VariableContext} :
    ofCode? b = some c ↔ b = c.code := by
  constructor
  · intro h
    unfold ofCode? at h
    split at h <;> cases h <;> rfl
  · rintro rfl
    exact ofCode?_code c

theorem VariableContext.plan_mirrors :
    VariableContext.plan.Mirrors scope G (fun c ↦ [.u8 c.code]) (fun _ ↦ True) fun _ ↦ True := by
  refine code_mirrors code fun b c ↦ ?_
  rw [← ofCode?_eq_some_iff]
  split <;> simp [*]

theorem ClassKind.ofCode?_eq_some_iff {b : UInt8} {k : ClassKind} :
    ofCode? b = some k ↔ b = k.code := by
  constructor
  · intro h
    unfold ofCode? at h
    split at h <;> cases h <;> rfl
  · rintro rfl
    exact ofCode?_code k

theorem ClassKind.plan_mirrors :
    ClassKind.plan.Mirrors scope G (fun k ↦ [.u8 k.code]) (fun _ ↦ True) fun _ ↦ True := by
  refine code_mirrors code fun b k ↦ ?_
  rw [← ofCode?_eq_some_iff]
  split <;> simp [*]

theorem MemberKind.plan_mirrors (kind : MemberKind) :
    kind.plan.Mirrors scope G (fun _ ↦ [.u8 kind.code]) (fun _ ↦ True) fun _ ↦ True := by
  refine code_mirrors (fun _ ↦ kind.code) fun b _ ↦ ?_
  split <;> simp [*]

theorem Method.markerPlan_mirrors : markerPlan.Mirrors scope G
    (fun b ↦ [.u8 (if b = true then constructorMarker else plainMarker)]) (fun _ ↦ True)
    fun _ ↦ True := by
  refine code_mirrors (fun b ↦ if b = true then constructorMarker else plainMarker)
    fun code b ↦ ?_
  by_cases hp : code = plainMarker
  · subst hp
    cases b <;> simp [plainMarker, constructorMarker]
  · by_cases hc : code = constructorMarker
    · subst hc
      cases b <;> simp [plainMarker, constructorMarker]
    · cases b <;> simp [hp, hc]

theorem Parameter.plan_mirrors : Parameter.plan.Mirrors scope G fields (fun _ ↦ True)
    fun p ↦ scope.types p.type.name = some p.type.handle := by
  refine Mirrors.congr_fits (.congr_fields (.bind type typeName_mirrors fun type _ ↦
    .bind name text_mirrors fun name _ ↦ .pure fun p ↦ ?_) fun p _ _ ↦ ?_) fun p ↦ ?_
  · cases p
    simp only [true_and, mk.injEq]
  · rfl
  · simp only [and_self, and_true]

variable (hG : ∀ e bs v, G e bs v ↔
  ((e.toNode v).frame layout).bytes? scope.table = some bs ∧ P (e.toNode v))

include hG

theorem CodeBlock.plan_mirrors : CodeBlock.plan.Mirrors scope G CodeBlock.fields (fun _ ↦ True)
    fun b ↦ ∀ m ∈ (Node.codeBlock b).embedded, P m := by
  refine ((array_mirrors hG (.only .statement)).congr_fields fun b _ _ ↦ ?_).congr_fits
    fun b ↦ ?_
  · rw [CodeBlock.fields, statementFrames_eq]
    rfl
  · exact List.forall_mem_map.symm

theorem Statement.plan_mirrors : Statement.plan.Mirrors scope G Statement.fields (fun _ ↦ True)
    fun s ↦ scope.types s.target.name = some s.target.handle ∧
      ∀ m ∈ (Node.statement s).embedded, P m := by
  refine Mirrors.congr_fits (.congr_fields (.bind (fun s ↦ s.kind.bits) u32_mirrors fun kind _ ↦
    .bind (fun s ↦ s.code.bits) u32_mirrors fun code _ ↦
    .bind arg text_mirrors fun arg _ ↦
    .bind target typeName_mirrors fun target _ ↦
    .bind components (array_mirrors hG (.only .component)) fun components _ ↦
    .bind (Slot.presence slots) (mask_mirrors _ _) fun mask hm ↦
    (Slot.readPresent_mirrors hG slots_lawful mask _ ?_).congr_known fun s ↦ ?_) fun s _ _ ↦ ?_)
    fun s ↦ ?_
  · simp [slots]
  · -- The flags of the mask and the parts read before it are all there is of the value.
    rw [slots_lawful.presence_eq_iff hm s, copy_slots _ _ rfl, and_comm]
    refine and_congr_left fun _ ↦ ?_
    obtain ⟨⟨kind'⟩, ⟨code'⟩, arg', target', components', block⟩ := s
    simp only [true_and, mk.injEq, StatementKind.mk.injEq, BytecodeKind.mk.injEq, and_true,
      and_assoc, @eq_comm _ kind', @eq_comm _ code', @eq_comm _ arg', @eq_comm _ target',
      @eq_comm _ components']
  · rw [fields_eq layout, componentFrames_eq]
    simp only [List.cons_append, List.nil_append, List.append_assoc]
    rfl
  · simp only [Slot.presence_and_not_bits, true_and, Node.embedded, List.forall_mem_append,
      List.forall_mem_map]
    rfl

theorem Component.plan_mirrors : Component.plan.Mirrors scope G Component.fields (fun _ ↦ True)
    fun c ↦ ∀ m ∈ (Node.component c).embedded, P m := by
  refine Mirrors.congr_fits (.congr_fields (.bind (fun c ↦ c.kind.bits) u32_mirrors fun kind _ ↦
    .bind (fun c ↦ c.code.bits) u32_mirrors fun code _ ↦
    .bind context VariableContext.plan_mirrors fun context _ ↦
    .bind raw u64_mirrors fun raw _ ↦
    .bind arg text_mirrors fun arg _ ↦
    .bind args (array_mirrors hG (.only .string)) fun args _ ↦
    .bind Component.position (child_mirrors hG (.only .position)) fun place _ ↦
    .bind (Slot.presence slots) (mask_mirrors _ _) fun mask hm ↦
    (Slot.readPresent_mirrors hG slots_lawful mask _ ?_).congr_known fun c ↦ ?_) fun c _ _ ↦ ?_)
    fun c ↦ ?_
  · simp [slots, bare]
  · rw [slots_lawful.presence_eq_iff hm c, copy_slots, and_comm]
    refine and_congr_left fun _ ↦ ?_
    obtain ⟨⟨kind'⟩, ⟨code'⟩, context', raw', arg', args', place', _⟩ := c
    simp only [true_and, mk.injEq, StatementKind.mk.injEq, BytecodeKind.mk.injEq, and_true,
      and_assoc, @eq_comm _ kind', @eq_comm _ code', @eq_comm _ context', @eq_comm _ raw',
      @eq_comm _ arg', @eq_comm _ args', @eq_comm _ place']
  · rw [fields_eq layout]
    simp only [List.cons_append, List.nil_append, List.append_assoc, Field.strings]
    rfl
  · simp only [Slot.presence_and_not_bits, true_and, Node.embedded, List.forall_mem_append,
      List.forall_mem_cons, List.forall_mem_map]
    rfl

theorem Property.plan_mirrors : Property.plan.Mirrors scope G Property.fields (fun _ ↦ True)
    fun p ↦ scope.types p.returnType.name = some p.returnType.handle ∧
      ∀ m ∈ (Node.property p).embedded, P m := by
  refine Mirrors.congr_fits (.congr_fields
    (.bind (fun _ ↦ ()) (MemberKind.plan_mirrors _) fun _ _ ↦
    .bind (fun p ↦ p.modifiers.bits) u32_mirrors fun modifiers _ ↦
    .bind name text_mirrors fun name _ ↦
    .bind returnType typeName_mirrors fun type _ ↦
    .bind Property.position (child_mirrors hG (.only .position)) fun place _ ↦
    .bind state (mask_mirrors _ _) fun mask hm ↦
    (Slot.readPresent_mirrors hG slots_lawful mask _ ?_).congr_known fun p ↦ ?_) fun p _ _ ↦ ?_)
    fun p ↦ ?_
  · simp [slots]
  · rw [state_eq_iff hm, copy_slots _ _ ⟨rfl, rfl, rfl⟩]
    generalize (∀ s ∈ slots, Slot.present p s = (mask &&& s.bit != 0)) = present
    obtain ⟨⟨modifiers'⟩, name', type', place', g, s, i, getter, setter, initializer⟩ := p
    simp only [true_and, mk.injEq, Modifiers.mk.injEq, and_true, and_assoc,
      @eq_comm _ modifiers', @eq_comm _ name', @eq_comm _ type', @eq_comm _ place',
      @eq_comm _ g, @eq_comm _ s, @eq_comm _ i, and_left_comm (b := present)]
  · rw [fields_eq layout]
    simp only [List.cons_append, List.nil_append]
    rfl
  · simp only [state_and_not_bits, true_and, Node.embedded, List.forall_mem_cons]
    rfl

theorem Method.tailPlan_mirrors (b : Bool) :
    (if b = true then constructorPlan else Pure.pure .plain).Mirrors scope G MethodKind.tail
      (fun kind ↦ decide (kind ≠ .plain) = b) fun kind ↦ ∀ c ∈ kind.calls, P (.component c) := by
  intro bs kind
  cases b with
  | false =>
    constructor
    · rintro ⟨rfl, rfl⟩
      exact ⟨rfl, rfl, List.forall_mem_nil _⟩
    · rintro ⟨hk, hb, -⟩
      obtain rfl : kind = .plain := by simpa using hk
      exact ⟨(Option.some.inj hb).symm, rfl⟩
  | true =>
    rw [if_pos rfl, constructorPlan, map_yields]
    cases kind with
    | plain => simp
    | constructor calls =>
      simp only [MethodKind.constructor.injEq, exists_eq_right', ne_eq, reduceCtorEq,
        not_false_eq_true, decide_true, true_and, MethodKind.calls, MethodKind.tail,
        componentFrames_eq]
      exact (array_mirrors hG (.only .component) bs calls).trans (and_iff_right trivial)

theorem Method.kindPlan_mirrors (layout' : Layout) (name : String) :
    (kindPlan layout' name).Mirrors scope G
      (fun kind ↦ ending layout' { (default : Method) with name, kind }) (fun _ ↦ True)
      fun kind ↦ ∀ c ∈ kind.calls, P (.component c) := by
  cases layout' with
  | kindMarker =>
    have h : (kindPlan .kindMarker name).Mirrors scope G
        (fun kind ↦ [.u8 (if decide (kind ≠ MethodKind.plain) = true then constructorMarker
          else plainMarker)] ++ kind.tail) (fun _ ↦ True)
        fun kind ↦ True ∧ ∀ c ∈ kind.calls, P (.component c) :=
      .bind (fun kind ↦ decide (kind ≠ MethodKind.plain)) markerPlan_mirrors fun b _ ↦
        (tailPlan_mirrors hG b).congr_known fun _ ↦ (and_iff_right trivial).symm
    refine (h.congr_fields fun kind _ _ ↦ ?_).congr_fits fun _ ↦ and_iff_right trivial
    cases kind <;> rfl
  | reservedName =>
    intro bs kind
    have h := tailPlan_mirrors hG (decide (name = constructorName)) bs kind
    simp only [decide_eq_true_eq] at h
    rw [kindPlan, h, allBytes?_ending_reservedName, and_iff_right trivial, ← and_assoc]
    refine and_congr_left fun _ ↦ and_congr_left fun _ ↦ ?_
    cases kind <;> exact Iff.rfl

theorem Method.plan_mirrors : (Method.plan layout).Mirrors scope G (Method.fields layout)
    (fun _ ↦ True) fun m ↦ scope.types m.returnType.name = some m.returnType.handle ∧
      m.synthetic = false ∧ ∀ k ∈ (Node.method m).embedded, P k := by
  have hend (m : Method) :
      ending layout { (default : Method) with name := m.name, kind := m.kind } =
        ending layout m := by
    cases layout <;> rfl
  refine Mirrors.congr_fits (.congr_fields (.known_fits (E := fun m ↦ m.synthetic = false)
    (.bind (fun _ ↦ ()) (MemberKind.plan_mirrors _) fun _ _ ↦
    .bind (fun p ↦ p.modifiers.bits) u32_mirrors fun modifiers _ ↦
    .bind name text_mirrors fun name _ ↦
    .bind returnType typeName_mirrors fun type _ ↦
    .bind Method.position (child_mirrors hG (.only .position)) fun place _ ↦
    .bind parameters (array_mirrors hG (.only .parameter)) fun parameters _ ↦
    .bind body (child_mirrors hG (.only .codeBlock)) fun body _ ↦
    .congr_fields (g := ending layout)
      (.bind kind (kindPlan_mirrors hG layout name) fun kind _ ↦ .pure fun m ↦ ?_)
      fun m hm _ ↦ ?_)) fun m _ hm ↦ ?_) fun m ↦ ?_
  · constructor
    · rintro ⟨⟨⟨⟨⟨⟨⟨⟨hs, -⟩, rfl⟩, rfl⟩, rfl⟩, rfl⟩, rfl⟩, rfl⟩, rfl⟩
      cases m
      cases hs
      rfl
    · rintro rfl
      simp only [and_self]
  · obtain ⟨⟨⟨⟨⟨-, rfl⟩, -⟩, -⟩, -⟩, -⟩ := hm
    rw [List.append_nil]
    exact hend m
  · rw [fields, hm.1, if_neg Bool.false_ne_true]
    simp only [List.cons_append, List.nil_append, List.append_assoc]
    rfl
  · obtain ⟨modifiers, name, type, place, parameters, body, kind, synthetic⟩ := m
    simp only [true_and, and_true, Node.embedded, List.cons_append, List.forall_mem_cons,
      List.forall_mem_append, List.forall_mem_map]
    rw [and_left_comm]
    cases kind <;> exact Iff.rfl

omit hG in
theorem declared_eq_self {ms : List ClassMember} (h : ∀ m ∈ ms, m.isSynthetic = false) :
    declared ms = ms :=
  List.filter_eq_self.2 fun m hm ↦ by rw [h m hm, Bool.not_false]

theorem Class.plan_mirrors (hP : ∀ m : Method, P (.method m) → m.synthetic = false) :
    Class.plan.Mirrors scope G (Class.fields layout)
    (fun _ ↦ True) fun c ↦ (∀ r ∈ c.superclasses ++ c.interfaces,
      scope.types r.name = some r.handle) ∧ (∀ m ∈ c.members, m.isSynthetic = false) ∧
      c.index = some (memberIndex c.members) ∧ ∀ k ∈ (Node.classDef c).embedded, P k := by
  have hmembers {ms : List ClassMember} (h : ∀ m ∈ ms, P m.toNode) :
      ∀ m ∈ ms, m.isSynthetic = false := by
    intro m hm
    cases m with
    | method d => exact hP d (h _ hm)
    | property | nested => rfl
  refine Mirrors.congr_fits (.congr_fields (.known_fits
    (E := fun c ↦ c.index = some (memberIndex c.members))
    (.bind (fun _ ↦ ()) (MemberKind.plan_mirrors _) fun _ _ ↦
    .bind kind ClassKind.plan_mirrors fun kind _ ↦
    .bind (fun c ↦ c.modifiers.bits) u32_mirrors fun modifiers _ ↦
    .bind name text_mirrors fun name _ ↦
    .bind imports (array_mirrors hG (.only .string)) fun imports _ ↦
    .bind superclasses (typeNames_mirrors hG) fun supers _ ↦
    .bind interfaces (typeNames_mirrors hG) fun interfaces _ ↦
    .bind members (array_mirrors hG .member) fun members _ ↦
    .bind typeParameters (array_mirrors hG (.only .string)) fun parameters _ ↦
    .pure fun c ↦ ?_)) fun c _ hc ↦ ?_) fun c ↦ ?_
  · constructor
    · rintro ⟨⟨⟨⟨⟨⟨⟨⟨⟨hi, -⟩, rfl⟩, rfl⟩, rfl⟩, rfl⟩, rfl⟩, rfl⟩, rfl⟩, rfl⟩
      rw [← hi]
      cases c
      rfl
    · rintro rfl
      simp only [and_self]
  · -- Every member is read from a frame, so none is a placeholder and all are written again.
    obtain ⟨-, -, -, -, -, -, -, -, hm, -⟩ := hc
    have hd := declared_eq_self (hmembers hm)
    have hframe : ClassMember.frame layout = fun m ↦ m.toNode.frame layout :=
      funext (ClassMember.frame_eq layout)
    obtain ⟨kind, modifiers, name, imports, supers, interfaces, members, parameters, index⟩ := c
    simp only [fields, memberFrames_eq, hd, hframe, Field.strings,
      List.cons_append, List.nil_append, List.append_nil, List.append_assoc]
    rfl
  · rw [Node.embedded]
    simp only [true_and, and_true, List.forall_mem_append, List.forall_mem_map]
    constructor
    · rintro ⟨hi, himports, hs, hn, hm, hp⟩
      have hd := hmembers hm
      rw [Class.declaredMembers, declared_eq_self hd]
      exact ⟨⟨fun r hr ↦ (hs r hr).2, fun r hr ↦ (hn r hr).2⟩, hd, hi,
        ⟨⟨⟨himports, fun r hr ↦ (hs r hr).1⟩, fun r hr ↦ (hn r hr).1⟩, hm⟩, hp⟩
    · rintro ⟨⟨hs, hn⟩, hd, hi, ⟨⟨⟨himports, hs'⟩, hn'⟩, hm⟩, hp⟩
      rw [Class.declaredMembers, declared_eq_self hd] at hm
      exact ⟨hi, himports, fun r hr ↦ ⟨hs' r hr, hs r hr⟩, fun r hr ↦ ⟨hn' r hr, hn r hr⟩, hm, hp⟩

end Code

end TreeBytecode
