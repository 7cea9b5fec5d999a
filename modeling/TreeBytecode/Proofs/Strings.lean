import TreeBytecode.Proofs.Acceptance

namespace TreeBytecode

namespace Wire

namespace Encoder

/-- The table takes these strings in this order: all of them if the writer succeeds, and the first
of them if it does not. -/
def Interns (x : Step Encoder Unit) (ss : List String) : Prop :=
  ∀ e, ∃ seen, (x e).2.table = seen.foldl StringTable.insert e.table ∧ seen <+: ss ∧
    ((x e).1 = .ok () → seen = ss)

namespace Interns

variable {x y : Step Encoder Unit} {ss ts : List String}

theorem of_table (h : ∀ e, (x e).2.table = e.table) : Interns x [] :=
  fun e ↦ ⟨[], h e, List.prefix_rfl, fun _ ↦ rfl⟩

theorem bind (hx : Interns x ss) (hy : Interns y ts) : Interns (x >>= fun _ ↦ y) (ss ++ ts) := by
  intro e
  obtain ⟨seen, htable, hseen, hall⟩ := hx e
  rcases hrun : x e with ⟨f | ⟨⟩, e₁⟩
  · rw [hrun] at htable
    rw [Step.bind_of_error hrun]
    refine ⟨seen, htable, hseen.trans (List.prefix_append ss ts), fun h ↦ ?_⟩
    cases h
  · rw [hrun] at htable hall
    obtain rfl := hall rfl
    obtain ⟨seen', htable', hseen', hall'⟩ := hy e₁
    rw [Step.bind_of_ok hrun]
    refine ⟨seen ++ seen', ?_, ?_, fun h ↦ ?_⟩
    · rw [htable', show e₁.table = _ from htable, List.foldl_append]
    · exact (List.prefix_append_right_inj seen).2 hseen'
    · rw [hall' h]

theorem modify {g : Encoder → Encoder} (h : ∀ e, (g e).table = e.table) :
    Interns (Step.modify g) [] := of_table h

end Interns

theorem emit_interns (bs : Bytes) : Interns (emit bs) [] := by
  apply Interns.of_table
  intro e
  rw [emit]
  split <;> rfl

/-- Behind a refusal nothing is written, whatever would come there. -/
theorem refuse_interns (r : Refusal) (ss : List String) : Interns (refuse r) ss := by
  intro e
  refine ⟨[], rfl, List.nil_prefix, fun h ↦ ?_⟩
  cases h

theorem emitText_interns (s : String) : Interns (emitText s) [s] := by
  intro e
  obtain ⟨seen, htable, hseen, -⟩ := emit_interns (word 4 (e.table.intern s).1.toNat)
    { e with table := (e.table.intern s).2 }
  obtain rfl := List.prefix_nil.1 hseen
  exact ⟨[s], htable, List.prefix_rfl, fun _ ↦ rfl⟩

theorem emitCount_interns (n : Nat) : Interns (emitCount n) [] := by
  rw [emitCount]
  split
  · exact emit_interns _
  · exact refuse_interns _ []

theorem putAll_append (fs gs : List Field) :
    putAll (fs ++ gs) = putAll fs >>= fun _ ↦ putAll gs := by
  induction fs with
  | nil => rw [List.nil_append, putAll, pure_bind]
  | cons f fs ih => simp only [List.cons_append, putAll, ih, bind_assoc]

end Encoder

namespace Field

open Encoder (put putAll Interns)

/-- Writing the fields is interning the strings. -/
def Spells (fs : List Field) (ss : List String) : Prop := Interns (putAll fs) ss

namespace Spells

variable {fs gs : List Field} {ss ts : List String}

theorem congr (h : Spells fs ss) (he : ss = ts) : Spells fs ts := he ▸ h

theorem nil : Spells [] [] := by
  rw [Spells, putAll]
  exact .of_table fun _ ↦ rfl

theorem append (h : Spells fs ss) (h' : Spells gs ts) : Spells (fs ++ gs) (ss ++ ts) := by
  rw [Spells, Encoder.putAll_append]
  exact h.bind h'

theorem singleton {f : Field} (h : Interns (put f) ss) : Spells [f] ss := by
  rwa [Spells, Encoder.putAll_singleton]

theorem raw (bs : Bytes) (h : Spells fs ss) : Spells (.raw bs :: fs) ss := by
  have hput : Interns (put (.raw bs)) [] := by
    rw [put]
    exact Encoder.emit_interns bs
  exact (singleton hput).append h

theorem count (n : Nat) (h : Spells fs ss) : Spells (.count n :: fs) ss := by
  have hput : Interns (put (.count n)) [] := by
    rw [put]
    exact Encoder.emitCount_interns n
  exact (singleton hput).append h

theorem text (s : String) (h : Spells fs ss) : Spells (.text s :: fs) (s :: ss) := by
  have hput : Interns (put (.text s)) [s] := by
    rw [put]
    exact Encoder.emitText_interns s
  exact (singleton hput).append h

theorem refusal (r : Refusal) (ss : List String) : Spells [.refusal r] ss := by
  apply singleton
  rw [put]
  exact Encoder.refuse_interns r ss

theorem frame (t : Tag) (h : Spells fs ss) : Spells [.frame t fs] ss := by
  apply singleton
  rw [put]
  have hin : Interns (do Step.modify (Encoder.enter t); putAll fs; Step.modify Encoder.leave)
      ([] ++ (ss ++ [])) :=
    .bind (.modify fun _ ↦ rfl) (h.bind (.modify fun _ ↦ rfl))
  rw [List.append_nil, List.nil_append] at hin
  exact (Encoder.emit_interns [t.code]).bind hin

theorem map {α : Type} {f : α → Field} {g : α → List String} {as : List α}
    (h : ∀ a ∈ as, Spells [f a] (g a)) : Spells (as.map f) (as.flatMap g) := by
  induction as with
  | nil => exact nil
  | cons a as ih =>
    obtain ⟨ha, has⟩ := List.forall_mem_cons.1 h
    exact ha.append (ih has)

theorem array {α : Type} {f : α → Field} {g : α → List String} {as : List α}
    (h : ∀ a ∈ as, Spells [f a] (g a)) : Spells (array (as.map f)) (as.flatMap g) :=
  (map h).count _

theorem strings (ss : List String) : Spells (strings ss) ss :=
  (array fun s _ ↦ (nil.text s).frame .string).congr (List.flatMap_singleton' ss)

theorem names (ss : List String) : Spells (names ss) ss := by
  have hall : Spells (ss.flatMap fun s ↦ [.tag .string, .text s]) ss := by
    induction ss with
    | nil => exact nil
    | cons s ss ih => exact ((nil.text s).raw _).append ih
  exact hall.count _

end Spells

mutual

def texts : Field → List String
  | .raw _ | .count _ | .refusal _ => []
  | .text s => [s]
  | .frame _ payload => allTexts payload

def allTexts : List Field → List String
  | [] => []
  | f :: fs => f.texts ++ allTexts fs

end

mutual

theorem spells_texts : ∀ f : Field, Spells [f] f.texts
  | .raw bs => by
    rw [texts]
    exact Spells.nil.raw bs
  | .count n => by
    rw [texts]
    exact Spells.nil.count n
  | .text s => by
    rw [texts]
    exact Spells.nil.text s
  | .refusal r => by
    rw [texts]
    exact .refusal r []
  | .frame t payload => by
    rw [texts]
    exact .frame t (spells_allTexts payload)

theorem spells_allTexts : ∀ fs : List Field, Spells fs (allTexts fs)
  | [] => by
    rw [allTexts]
    exact .nil
  | f :: fs => by
    rw [allTexts]
    exact (spells_texts f).append (spells_allTexts fs)

end

end Field

end Wire

open Wire
open TreeBytecode.Wire.Field (Spells)

namespace Node

def ownStrings : Node → List String
  | .string s => [s]
  | .classDef c => [c.name]
  | .method m => [m.name, m.returnType.name]
  | .parameter p => [p.type.name, p.name]
  | .property p => [p.name, p.returnType.name]
  | .statement s => [s.arg, s.target.name]
  | .component c => [c.arg]
  | .byte _ | .int32 _ | .uint32 _ | .uint64 _ | .position _ | .codeBlock _ => []

def strings (n : Node) : List String := n.frames.flatMap ownStrings

theorem strings_eq (n : Node) : n.strings = n.ownStrings ++ n.embedded.flatMap strings := by
  rw [strings, frames_eq, List.flatMap_cons, List.flatMap_assoc]
  rfl

theorem strings_string (s : String) : (string s).strings = [s] := by
  rw [strings_eq]
  rfl

theorem strings_position (p : Position) : (position p).strings = [] := by
  rw [strings_eq]
  rfl

section Payloads

variable {layout : Layout}

theorem spells_componentFrames {cs : List Component}
    (h : ∀ c ∈ cs, Spells [(component c).frame layout] (component c).strings) :
    Spells (Field.array (componentFrames cs)) ((cs.map component).flatMap strings) := by
  rw [componentFrames_eq, List.flatMap_map]
  exact .array h

theorem spells_codeBlock {b : CodeBlock}
    (h : ∀ m ∈ (codeBlock b).embedded, Spells [m.frame layout] m.strings) :
    Spells (CodeBlock.fields b) (codeBlock b).strings := by
  have hframes : Spells (Field.array (b.map fun s ↦ (statement s).frame layout))
      (b.flatMap fun s ↦ (statement s).strings) :=
    .array fun s hs ↦ h (statement s) (List.mem_map_of_mem hs)
  rw [CodeBlock.fields, statementFrames_eq]
  apply hframes.congr
  rw [strings_eq, embedded, List.flatMap_map]
  rfl

theorem spells_statement {s : Statement}
    (h : ∀ m ∈ (statement s).embedded, Spells [m.frame layout] m.strings) :
    Spells s.fields (statement s).strings := by
  have hcomponents : Spells (Field.array (componentFrames s.components))
      ((s.components.map component).flatMap strings) := by
    apply spells_componentFrames
    intro c hc
    exact h (component c) (List.mem_append_left _ (List.mem_map_of_mem hc))
  have hchildren : Spells ((Slot.children Statement.slots s).map (frame layout))
      ((Slot.children Statement.slots s).flatMap strings) :=
    .map fun m hm ↦ h m (List.mem_append_right _ hm)
  have hown : Spells [.u32 s.kind.bits, .u32 s.code.bits, .text s.arg, .text s.target.name]
      [s.arg, s.target.name] := (((Spells.nil.text _).text _).raw _).raw _
  rw [Statement.fields_eq layout]
  apply ((hown.append hcomponents).append (Spells.nil.raw _)).append hchildren |>.congr
  rw [strings_eq, embedded, List.flatMap_append, ownStrings, List.append_nil, List.append_assoc]

theorem spells_component {c : Component}
    (h : ∀ m ∈ (component c).embedded, Spells [m.frame layout] m.strings) :
    Spells c.fields (component c).strings := by
  have hchildren : Spells ((Slot.children Component.slots c).map (frame layout))
      ((Slot.children Component.slots c).flatMap strings) :=
    .map fun m hm ↦ h m (List.mem_append_right _ (.tail _ hm))
  have hplace : Spells [c.position.frame, .u8 (Slot.presence Component.slots c)] [] :=
    (Spells.frame .position ((Spells.nil.raw _).raw _)).append (Spells.nil.raw _)
  have hown : Spells [.u32 c.kind.bits, .u32 c.code.bits, .u8 c.context.code, .u64 c.raw,
      .text c.arg] [c.arg] := ((((Spells.nil.text _).raw _).raw _).raw _).raw _
  rw [Component.fields_eq layout]
  apply ((hown.append (.strings c.args)).append hplace).append hchildren |>.congr
  rw [strings_eq, embedded]
  simp [List.flatMap_map, strings_string, strings_position, ownStrings]

theorem spells_property {p : Property}
    (h : ∀ m ∈ (property p).embedded, Spells [m.frame layout] m.strings) :
    Spells p.fields (property p).strings := by
  have hchildren : Spells ((Slot.children Property.slots p).map (frame layout))
      ((Slot.children Property.slots p).flatMap strings) :=
    .map fun m hm ↦ h m (.tail _ hm)
  have hplace : Spells [p.position.frame, .u8 p.state] [] :=
    (Spells.frame .position ((Spells.nil.raw _).raw _)).append (Spells.nil.raw _)
  have hown : Spells ([.u8 MemberKind.property.code, .u32 p.modifiers.bits, .text p.name,
      .text p.returnType.name] ++ [p.position.frame, .u8 p.state]) [p.name, p.returnType.name] :=
    ((((hplace.text _).text _).raw _).raw _)
  rw [Property.fields_eq layout]
  apply hown.append hchildren |>.congr
  rw [strings_eq, embedded, List.flatMap_cons, strings_position]
  rfl

theorem spells_ending {m : Method}
    (h : ∀ c ∈ m.superCalls, Spells [(component c).frame layout] (component c).strings) :
    Spells (m.ending layout) ((m.superCalls.map component).flatMap strings) := by
  have hcalls := spells_componentFrames h
  cases hk : m.kind with
  | plain =>
    rw [Method.superCalls, hk]
    cases layout with
    | kindMarker =>
      rw [Method.ending, hk]
      exact Spells.nil.raw _
    | reservedName =>
      rw [Method.ending, hk]
      dsimp only
      split
      · exact .refusal _ _
      · exact .nil
  | constructor calls =>
    rw [Method.superCalls, hk] at hcalls ⊢
    cases layout with
    | kindMarker =>
      rw [Method.ending, hk]
      exact hcalls.raw _
    | reservedName =>
      rw [Method.ending, hk]
      dsimp only
      split
      · exact hcalls
      · exact .refusal _ _

theorem spells_method {m : Method}
    (h : ∀ k ∈ (method m).embedded, Spells [k.frame layout] k.strings) :
    Spells (m.fields layout) (method m).strings := by
  rw [Method.fields]
  split
  · exact .refusal _ _
  · have hplace : Spells [m.position.frame] [] := .frame .position ((Spells.nil.raw _).raw _)
    have hown : Spells [.u8 MemberKind.method.code, .u32 m.modifiers.bits, .text m.name,
        .text m.returnType.name, m.position.frame] [m.name, m.returnType.name] :=
      (((hplace.text _).text _).raw _).raw _
    have hparameters : Spells (Field.array (m.parameters.map fun p ↦ .frame .parameter p.fields))
        (m.parameters.flatMap fun p ↦ (parameter p).strings) :=
      .array fun p hp ↦ h (parameter p) (mem_embedded_method.2 (.inr (.inl ⟨p, hp, rfl⟩)))
    have hbody : Spells [m.body.frame] (codeBlock m.body).strings :=
      h (codeBlock m.body) (mem_embedded_method.2 (.inr (.inr (.inl rfl))))
    have hending := spells_ending (m := m) fun c hc ↦
      h (component c) (mem_embedded_method.2 (.inr (.inr (.inr ⟨c, hc, rfl⟩))))
    have hrow : (method m).strings = [m.name, m.returnType.name] ++
        (m.parameters.flatMap fun p ↦ (parameter p).strings) ++ (codeBlock m.body).strings ++
        (m.superCalls.map component).flatMap strings := by
      rw [strings_eq (method m), embedded]
      simp [List.flatMap_map, strings_position, ownStrings]
    rw [hrow]
    exact ((hown.append hparameters).append hbody).append hending

theorem spells_classDef {c : Class}
    (h : ∀ k ∈ (classDef c).embedded, Spells [k.frame layout] k.strings) :
    Spells (c.fields layout) (classDef c).strings := by
  have hmembers : Spells (Field.array (memberFrames layout c.members))
      (c.declaredMembers.flatMap fun m ↦ m.toNode.strings) := by
    rw [memberFrames_eq]
    apply Spells.array
    intro m hm
    rw [ClassMember.frame_eq]
    exact h m.toNode (mem_embedded_classDef.2 (.inr (.inr (.inr (.inl ⟨m, hm, rfl⟩)))))
  have hnames (rs : List TypeRef) : (rs.flatMap fun r ↦ [r.name]) = rs.map TypeRef.name :=
    List.map_eq_flatMap.symm
  have hown : Spells [.u8 MemberKind.nested.code, .u8 c.kind.code, .u32 c.modifiers.bits,
      .text c.name] [c.name] := (((Spells.nil.text _).raw _).raw _).raw _
  have hall := ((((hown.append (.strings c.imports)).append
    (.names (c.superclasses.map TypeRef.name))).append
    (.names (c.interfaces.map TypeRef.name))).append hmembers).append (.strings c.typeParameters)
  have hrow : (classDef c).strings = [c.name] ++ c.imports ++ c.superclasses.map TypeRef.name ++
      c.interfaces.map TypeRef.name ++ (c.declaredMembers.flatMap fun m ↦ m.toNode.strings) ++
      c.typeParameters := by
    rw [strings_eq, embedded]
    simp [List.flatMap_map, strings_string, hnames, ownStrings]
  rw [hrow]
  cases c
  rw [Class.fields]
  exact hall

end Payloads

/-- However far a writer gets with a node, it interns the strings of the node in their order. -/
theorem frame_spells (layout : Layout) (n : Node) : Spells [n.frame layout] n.strings := by
  induction n using induction with
  | step n ih =>
    apply Spells.frame
    cases n with
    | byte | int32 | uint32 | uint64 =>
      rw [strings_eq]
      exact Spells.nil.raw _
    | position p =>
      rw [strings_eq]
      exact (Spells.nil.raw _).raw _
    | string s =>
      rw [strings_eq]
      exact Spells.nil.text s
    | parameter p =>
      rw [strings_eq]
      exact (Spells.nil.text _).text _
    | codeBlock b => exact spells_codeBlock ih
    | statement s => exact spells_statement ih
    | component c => exact spells_component ih
    | property p => exact spells_property ih
    | method m => exact spells_method ih
    | classDef c => exact spells_classDef ih

/-- A writer that has nothing to add to its table finds all strings of the node there. -/
theorem mem_of_bytes? {layout : Layout} {t : StringTable} {n : Node} {bs : Bytes}
    (h : (n.frame layout).bytes? t = some bs) : ∀ s ∈ n.strings, s ∈ t := by
  let e : Encoder := .start (.empty none) t
  obtain ⟨seen, htable, -, hall⟩ := n.frame_spells layout e
  rw [Encoder.putAll_singleton, Encoder.put_of_bytes? _ (e := e) rfl h] at htable hall
  obtain rfl := hall rfl
  intro s hs
  rw [show t = _ from htable]
  exact StringTable.mem_foldl_insert.2 (.inr hs)

end Node

/-- What becomes of the table when a node is written, with or without success. -/
theorem Adapter.write_interns_of_spells (a : Adapter) {n : Node} {ss : List String}
    (h : Spells [n.frame a.layout] ss) (e : Encoder) :
    ∃ seen, (a.write n e).2.table = seen.foldl StringTable.insert e.table ∧ seen <+: ss ∧
      ∀ count, (a.write n e).1 = .ok count → seen = ss := by
  obtain ⟨seen, htable, hseen, hall⟩ := h e
  rw [Encoder.putAll_singleton] at htable hall
  rcases hput : Encoder.put (n.frame a.layout) e with ⟨f | ⟨⟩, e'⟩
  · rw [hput] at htable
    refine ⟨seen, ?_, hseen, ?_⟩
    · rw [write, hput]
      exact htable
    · intro count hcount
      rw [write, hput] at hcount
      cases hcount
  · rw [hput] at htable hall
    refine ⟨seen, ?_, hseen, fun _ _ ↦ hall rfl⟩
    rw [write, hput]
    exact htable

theorem Adapter.write_interns (a : Adapter) (n : Node) (e : Encoder) :
    ∃ seen, (a.write n e).2.table = seen.foldl StringTable.insert e.table ∧ seen <+: n.strings ∧
      ∀ count, (a.write n e).1 = .ok count → seen = n.strings :=
  a.write_interns_of_spells (n.frame_spells a.layout) e

end TreeBytecode
