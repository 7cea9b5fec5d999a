import TreeBytecode.Payload.Node
import TreeBytecode.StringTable.SideFile

namespace TreeBytecode

namespace Wire.Plan

variable {α β : Type} {plain : Bool}

/-- The plan begins with some bytes, so that it makes nothing of none. -/
def Consuming (plain : Bool) : {α : Type} → Plan α → Prop
  | _, .pure _ => False
  | _, .bind first _ => first.Consuming plain
  | _, .word width => 0 < width
  | _, .bytes count => 0 < count
  | _, .text => True
  | _, .typed name => name.Consuming plain
  | _, .checked value _ => value.Consuming plain
  | _, .child _ => plain = false

/-- Whatever is judged was read from some bytes. There are no frames in a `plain` plan, and bytes
are not taken as they are in any other. -/
def Regular (plain : Bool) : {α : Type} → Plan α → Prop
  | _, .pure _ | _, .word _ | _, .text => True
  | _, .bind first next => first.Regular plain ∧ ∀ b, (next b).Regular plain
  | _, .bytes _ => plain = true
  | _, .typed name => name.Consuming plain ∧ name.Regular plain
  | _, .checked value _ => value.Consuming plain ∧ value.Regular plain
  | _, .child _ => plain = false

section Consuming

@[simp] theorem consuming_bind {p : Plan β} {k : β → Plan α} :
    (p >>= k).Consuming plain ↔ p.Consuming plain := Iff.rfl

@[simp] theorem consuming_map {f : β → α} {p : Plan β} :
    (f <$> p).Consuming plain ↔ p.Consuming plain := Iff.rfl

@[simp] theorem consuming_word {width : Nat} : (word width).Consuming plain ↔ 0 < width := Iff.rfl

@[simp] theorem consuming_text : text.Consuming plain := trivial

@[simp] theorem consuming_checked {p : Plan β} {check : β → Except Defect α} :
    (checked p check).Consuming plain ↔ p.Consuming plain := Iff.rfl

end Consuming

section Regular

@[simp] theorem regular_pure (a : α) : (Pure.pure a : Plan α).Regular plain := trivial

@[simp] theorem regular_bind {p : Plan β} {k : β → Plan α} :
    (p >>= k).Regular plain ↔ p.Regular plain ∧ ∀ b, (k b).Regular plain := Iff.rfl

@[simp] theorem regular_map {f : β → α} {p : Plan β} :
    (f <$> p).Regular plain ↔ p.Regular plain := and_iff_left fun _ ↦ trivial

@[simp] theorem regular_word (width : Nat) : (word width).Regular plain := trivial

@[simp] theorem regular_bytes {count : Nat} : (bytes count).Regular plain ↔ plain = true := Iff.rfl

@[simp] theorem regular_text : text.Regular plain := trivial

@[simp] theorem regular_typed {p : Plan String} :
    (typed p).Regular plain ↔ p.Consuming plain ∧ p.Regular plain := Iff.rfl

@[simp] theorem regular_checked {p : Plan β} {check : β → Except Defect α} :
    (checked p check).Regular plain ↔ p.Consuming plain ∧ p.Regular plain := Iff.rfl

@[simp] theorem regular_u8 : u8.Regular plain := by simp [u8]

@[simp] theorem regular_u32 : u32.Regular plain := by simp [u32]

@[simp] theorem regular_u64 : u64.Regular plain := by simp [u64]

@[simp] theorem regular_i32 : i32.Regular plain := by simp [i32]

@[simp] theorem regular_length : length.Regular plain := by simp [length, i32]

@[simp] theorem regular_tag : tag.Regular plain := by simp [tag]

@[simp] theorem regular_mask (allowed : UInt8) (what : String) :
    (mask allowed what).Regular plain := by simp [mask, u8]

theorem regular_times {p : Plan α} (h : p.Regular plain) (n : Nat) :
    (times p n).Regular plain := by
  induction n with
  | zero => simp [times]
  | succ n ih => simp [times, h, ih]

@[simp] theorem regular_array (e : Expectation) : (array e).Regular false := by
  have hchild : (child e).Regular false := rfl
  simp [array, regular_times hchild]

@[simp] theorem regular_typeName : typeName.Regular plain := by simp [typeName]

@[simp] theorem regular_typeNames : typeNames.Regular false := by
  have hname : (typed (child (.only .string))).Regular false := ⟨rfl, rfl⟩
  simp [typeNames, regular_times hname]

end Regular

end Wire.Plan

open Wire

theorem Slot.readPresent_regular {α : Type} (mask : UInt8) (slots : List (Slot α)) (a : α) :
    (readPresent mask slots a).Regular false := by
  induction slots generalizing a with
  | nil => exact trivial
  | cons s slots ih =>
    rw [readPresent]
    split
    · exact ih a
    · exact ⟨rfl, fun v ↦ ih (s.fill v a)⟩

theorem MemberKind.plan_regular (kind : MemberKind) {plain : Bool} : kind.plan.Regular plain := by
  simp [plan, Plan.u8]

theorem Method.kindPlan_regular (layout : Layout) (name : String) :
    (kindPlan layout name).Regular false := by
  have hconstructor : constructorPlan.Regular false :=
    Plan.regular_map.2 (Plan.regular_array (.only .component))
  cases layout with
  | kindMarker =>
    have hmarker : markerPlan.Regular false := by simp [markerPlan, Plan.u8]
    refine ⟨hmarker, fun constructor ↦ ?_⟩
    cases constructor
    · exact trivial
    · exact hconstructor
  | reservedName =>
    rw [kindPlan]
    split
    · exact hconstructor
    · exact trivial

theorem Node.plan_regular (layout : Layout) (t : Tag) : (plan layout t).Regular false := by
  have hchild (e : Expectation) : (Plan.child e).Regular false := rfl
  have harray := Plan.regular_array
  cases t with
  | byte | int32 | uint32 | uint64 | string => simp [plan]
  | classDef =>
    simp [plan, Class.plan, MemberKind.plan_regular, ClassKind.plan, Plan.u8,
      harray (.only .string), harray .member]
  | method =>
    simp [plan, Method.plan, MemberKind.plan_regular, Method.kindPlan_regular,
      hchild (.only .position), harray (.only .parameter), hchild (.only .codeBlock)]
  | parameter => simp [plan, Parameter.plan]
  | property =>
    simp [plan, Property.plan, MemberKind.plan_regular, Slot.readPresent_regular,
      hchild (.only .position)]
  | position => simp [plan, Position.plan]
  | codeBlock => simp [plan, CodeBlock.plan, harray (.only .statement)]
  | statement =>
    simp [plan, Statement.plan, Slot.readPresent_regular, harray (.only .component)]
  | component =>
    simp [plan, Component.plan, VariableContext.plan, Slot.readPresent_regular, Plan.u8,
      harray (.only .string), hchild (.only .position)]

namespace StringTable

theorem newlinePlan_regular : newlinePlan.Regular true := ⟨Nat.one_pos, rfl⟩

theorem entryPlan_regular {τ : Type} (add : τ → String → Except Defect τ) (t : τ) :
    (entryPlan add t).Regular true := by
  simp [entryPlan, textPlan, newlinePlan_regular, Plan.length, Plan.i32]

theorem entriesPlan_regular {τ : Type} (add : τ → String → Except Defect τ) (n : Nat) (t : τ) :
    (entriesPlan add n t).Regular true := by
  induction n generalizing t with
  | zero => exact trivial
  | succ n ih => exact ⟨entryPlan_regular add t, ih⟩

theorem plan_regular : plan.Regular true :=
  ⟨Plan.regular_length, fun n ↦ ⟨newlinePlan_regular, fun _ ↦ entriesPlan_regular add n .empty⟩⟩

end StringTable

end TreeBytecode
