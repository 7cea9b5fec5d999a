import TreeBytecode.Proofs.Payload
import TreeBytecode.Proofs.Runs
import TreeBytecode.Proofs.Strings

namespace TreeBytecode

open Wire

namespace Slot

variable {α : Type}

def write (layout : Layout) (a : α) (s : Slot α) : Step Encoder Unit :=
  match s.child a with
  | some v => Encoder.put ((s.expected.toNode v).frame layout)
  | none => pure ()

def writePresent (layout : Layout) (a : α) : List (Slot α) → Step Encoder Unit
  | [] => pure ()
  | s :: slots =>
    if s.present a then do
      s.write layout a
      writePresent layout a slots
    else writePresent layout a slots

theorem writePresent_eq (layout : Layout) (a : α) (slots : List (Slot α)) :
    writePresent layout a slots = Encoder.putAll ((children slots a).map (Node.frame layout)) := by
  induction slots with
  | nil => rfl
  | cons s slots ih =>
    rw [writePresent, ih, present]
    cases hs : s.child a with
    | none => rw [children_of_none hs, Option.isSome_none, if_neg Bool.false_ne_true]
    | some v =>
      rw [children_of_some hs, Option.isSome_some, if_pos rfl, List.map_cons, Encoder.putAll,
        write, hs]

def read (frame : (e : Expectation) → Step Cursor e.Content) (a : α) (s : Slot α) :
    Step Cursor α := do
  let v ← frame s.expected
  return s.fill v a

/-- A reader reads into the slots that the mask announces, and passes over the others. -/
theorem readPresent_run (scope : Scope) (frame : (e : Expectation) → Step Cursor e.Content)
    (mask : UInt8) (slots : List (Slot α)) (a : α) :
    (readPresent mask slots a).run scope frame =
      (slots.filter fun s ↦ mask &&& s.bit != 0).foldlM (read frame) a := by
  induction slots generalizing a with
  | nil => rfl
  | cons s slots ih =>
    rw [readPresent]
    by_cases hbit : mask &&& s.bit = 0
    · rw [if_pos hbit, ih, List.filter_cons_of_neg (by simp [hbit])]
    · rw [if_neg hbit, List.filter_cons_of_pos (by simp [hbit]), List.foldlM_cons, read, bind_assoc]
      refine (Plan.run_bind _ _).trans (congrArg _ (funext fun v ↦ ?_))
      rw [pure_bind, ih]

theorem OwnBits.readPresent_run {slots : List (Slot α)} (h : OwnBits slots) (a : α) {extra : UInt8}
    (hextra : extra &&& bits slots = 0) (scope : Scope)
    (frame : (e : Expectation) → Step Cursor e.Content) (b : α) :
    (readPresent (presence slots a ||| extra) slots b).run scope frame =
      (slots.filter (present a)).foldlM (read frame) b := by
  rw [Slot.readPresent_run]
  -- The same slots are announced that are filled, so both folds are over one list.
  congr 1
  exact List.filter_congr fun s hs ↦ h.announced a hextra hs

/-- Behind the mask, the fields of a node are the children that are there. -/
theorem putAll_slots (layout : Layout) (slots : List (Slot α)) (a : α) (front : List Field) :
    Encoder.putAll (front ++ (children slots a).map (Node.frame layout)) =
      Encoder.putAll front >>= fun _ ↦ writePresent layout a slots := by
  rw [Encoder.putAll_append, writePresent_eq]

end Slot

/-- What a property can do is written in bits that no slot has. -/
theorem Property.exists_state_eq (p : Property) : ∃ extra, extra &&& ~~~capabilityBits = 0 ∧
    p.state = Slot.presence slots p ||| extra := by
  refine ⟨(if p.gettable then gettableBit else 0) ||| (if p.settable then settableBit else 0) |||
    (if p.initializable then initializableBit else 0), ?_, ?_⟩
  · cases p.gettable <;> cases p.settable <;> cases p.initializable <;> decide
  · rw [state, UInt8.or_assoc, UInt8.or_assoc, UInt8.or_assoc]

/-- If each slot has a bit of its own, the mask of a node has the bit of a slot exactly if its child
is there, and no other bits; what is written are the frames of the children that are there, in the
order of the slots; and a reader that goes by the mask, with any other bits besides, reads into just
these slots in just this order. The slots of all nodes have bits of their own and are written behind
their mask in this way, and those of properties have none of the bits for what a property can do. -/
theorem Slot.mask_names_children :
    (∀ {α : Type} (slots : List (Slot α)), OwnBits slots → ∀ a : α,
      (∀ s ∈ slots, presence slots a &&& s.bit = if s.present a then s.bit else 0) ∧
      presence slots a &&& ~~~bits slots = 0 ∧
      (∀ layout, writePresent layout a slots =
        Encoder.putAll ((children slots a).map (Node.frame layout))) ∧
      ∀ extra, extra &&& bits slots = 0 → ∀ scope frame b,
        (readPresent (presence slots a ||| extra) slots b).run scope frame =
          (slots.filter (present a)).foldlM (read frame) b) ∧
    (OwnBits Statement.slots ∧ OwnBits Component.slots ∧ OwnBits Property.slots ∧
      Property.capabilityBits &&& bits Property.slots = 0) ∧
    (∀ layout (s : Statement), ∃ front, Encoder.putAll s.fields =
      Encoder.putAll (front ++ [.u8 (presence Statement.slots s)]) >>= fun _ ↦
        writePresent layout s Statement.slots) ∧
    (∀ layout (c : Component), ∃ front, Encoder.putAll c.fields =
      Encoder.putAll (front ++ [.u8 (presence Component.slots c)]) >>= fun _ ↦
        writePresent layout c Component.slots) ∧
    ∀ layout (p : Property), ∃ front extra, extra &&& ~~~Property.capabilityBits = 0 ∧
      Encoder.putAll p.fields =
        Encoder.putAll (front ++ [.u8 (presence Property.slots p ||| extra)]) >>= fun _ ↦
          writePresent layout p Property.slots := by
  refine ⟨fun slots h a ↦ ⟨?_, ?_, ?_, ?_⟩, ⟨?_, ?_, ?_, ?_⟩, ?_, ?_, ?_⟩
  · intro s hs
    exact h.presence_and a hs
  · exact presence_and_not_bits slots a
  · intro layout
    exact writePresent_eq layout a slots
  · intro extra hextra scope frame b
    exact h.readPresent_run a hextra scope frame b
  · exact Statement.slots_lawful.ownBits
  · exact Component.slots_lawful.ownBits
  · exact Property.slots_lawful.ownBits
  · decide
  · intro layout s
    rw [Statement.fields_eq layout]
    exact ⟨_, putAll_slots layout Statement.slots s _⟩
  · intro layout c
    refine ⟨[.u32 c.kind.bits, .u32 c.code.bits, .u8 c.context.code, .u64 c.raw, .text c.arg] ++
      Field.strings c.args ++ [c.position.frame], ?_⟩
    rw [← putAll_slots, Component.fields_eq layout, List.append_assoc _ [c.position.frame]]
    rfl
  · intro layout p
    obtain ⟨extra, hextra, hstate⟩ := p.exists_state_eq
    refine ⟨[.u8 MemberKind.property.code, .u32 p.modifiers.bits, .text p.name,
      .text p.returnType.name, p.position.frame], extra, hextra, ?_⟩
    rw [← putAll_slots, Property.fields_eq layout, hstate]
    rfl

/-- A property that has a getter and no setter, and can be got. -/
theorem Slot.mask_names_children_getter :
    let p : Property := { (default : Property) with gettable := true, getter := some default }
    (∀ s ∈ Property.slots, presence Property.slots p &&& s.bit = if s.present p then s.bit else 0) ∧
    presence Property.slots p &&& ~~~bits Property.slots = 0 ∧
    (∀ layout, writePresent layout p Property.slots =
      Encoder.putAll ((children Property.slots p).map (Node.frame layout))) ∧
    ∀ scope frame b, (readPresent 0x09 Property.slots b).run scope frame =
      (Property.slots.filter (present p)).foldlM (read frame) b := by
  intro p
  obtain ⟨hmask, ⟨-, -, hproperty, -⟩, -⟩ := mask_names_children
  obtain ⟨hbits, hstray, hwritten, hread⟩ := hmask Property.slots hproperty p
  refine ⟨hbits, hstray, hwritten, fun scope frame b ↦ ?_⟩
  have hstate : presence Property.slots p ||| Property.gettableBit = 0x09 := by decide +kernel
  rw [← hstate]
  exact hread Property.gettableBit (by decide) scope frame b

end TreeBytecode
