import TreeBytecode.Proofs.Payload
import TreeBytecode.Proofs.Places

namespace TreeBytecode

open Wire

namespace Wire.Plan

variable {α β : Type}

/-- The rows of pieces from which a plan can read a value. -/
def Spells : {α : Type} → Plan α → List Piece → α → Prop
  | _, .pure a => fun ps b ↦ ps = [] ∧ b = a
  | _, .bind first next => fun ps a ↦
    ∃ b ps₁ ps₂, first.Spells ps₁ b ∧ (next b).Spells ps₂ a ∧ ps = ps₁ ++ ps₂
  | _, .word width => fun ps _ ↦ ps = [.own width]
  | _, .bytes count => fun ps _ ↦ ps = [.own count]
  | _, .text => fun ps _ ↦ ps = [.own 4]
  | _, .typed name => fun ps t ↦ name.Spells ps t.name
  | _, .checked value check => fun ps a ↦ ∃ b, value.Spells ps b ∧ check b = .ok a
  | _, .child e => fun ps v ↦ ps = [.inner (e.toNode v)]

variable {ps : List Piece}

theorem map_spells {f : β → α} {p : Plan β} {a : α} :
    (f <$> p).Spells ps a ↔ ∃ b, p.Spells ps b ∧ a = f b := by
  constructor
  · rintro ⟨b, ps₁, _, h, ⟨rfl, rfl⟩, rfl⟩
    exact ⟨b, by rwa [List.append_nil], rfl⟩
  · rintro ⟨b, h, rfl⟩
    exact ⟨b, ps, [], h, ⟨rfl, rfl⟩, (List.append_nil _).symm⟩

theorem word_spells {width : Nat} {f : Nat → α} {a : α} (h : (f <$> word width).Spells ps a) :
    ps = [.own width] := by
  obtain ⟨n, hn, -⟩ := map_spells.1 h
  exact hn

theorem u8_spells {v : UInt8} (h : u8.Spells ps v) : ps = [.own 1] := word_spells h

theorem u32_spells {v : UInt32} (h : u32.Spells ps v) : ps = [.own 4] := word_spells h

theorem u64_spells {v : UInt64} (h : u64.Spells ps v) : ps = [.own 8] := word_spells h

theorem i32_spells {v : Int32} (h : i32.Spells ps v) : ps = [.own 4] := word_spells h

theorem code_spells {check : UInt8 → Except Defect α} {a : α} (h : (checked u8 check).Spells ps a) :
    ps = [.own 1] := by
  obtain ⟨b, hb, -⟩ := h
  exact u8_spells hb

theorem mask_spells {allowed : UInt8} {what : String} {v : UInt8}
    (h : (mask allowed what).Spells ps v) : ps = [.own 1] := code_spells h

theorem length_spells {n : Nat} (h : length.Spells ps n) : ps = [.own 4] := by
  obtain ⟨v, hv, -⟩ := h
  exact i32_spells hv

/-- One piece for each element. -/
theorem times_spells {p : Plan α} {f : α → Node} (hp : ∀ ps a, p.Spells ps a → ps = [.inner (f a)])
    {n : Nat} {as : List α} (h : (times p n).Spells ps as) : ps = as.map fun a ↦ .inner (f a) := by
  induction n generalizing ps as with
  | zero =>
    obtain ⟨rfl, rfl⟩ := h
    rfl
  | succ n ih =>
    obtain ⟨a, ps₁, _, h₁, ⟨as, ps₂, _, h₂, ⟨rfl, rfl⟩, rfl⟩, rfl⟩ := h
    rw [hp ps₁ a h₁, ih h₂, List.append_nil, List.singleton_append, List.map_cons]

theorem counted_spells {p : Plan α} {f : α → Node}
    (hp : ∀ ps a, p.Spells ps a → ps = [.inner (f a)]) {as : List α}
    (h : (length >>= times p).Spells ps as) : ps = Piece.array (as.map f) := by
  obtain ⟨n, ps₁, ps₂, h₁, h₂, rfl⟩ := h
  rw [length_spells h₁, times_spells hp h₂, Piece.array, List.map_map]
  rfl

theorem array_spells {e : Expectation} {vs : List e.Content} (h : (array e).Spells ps vs) :
    ps = Piece.array (vs.map e.toNode) := counted_spells (p := child e) (fun _ _ hv ↦ hv) h

theorem typeNames_spells {rs : List TypeRef} (h : typeNames.Spells ps rs) :
    ps = Piece.array (rs.map fun r ↦ .string r.name) :=
  counted_spells (p := typed (child (.only .string))) (fun _ _ hr ↦ hr) h

end Wire.Plan

open Wire.Plan

namespace Slot

variable {α γ : Type} {mask : UInt8} {slots : List (Slot α)} {ps : List Piece} {a b : α}

/-- Filling slots leaves alone what each of them leaves alone. -/
theorem eq_of_readPresent_spells {f : α → γ} (hf : ∀ s ∈ slots, ∀ v a, f (s.fill v a) = f a)
    (h : (readPresent mask slots a).Spells ps b) : f b = f a := by
  induction slots generalizing ps a with
  | nil =>
    obtain ⟨-, rfl⟩ := h
    rfl
  | cons s slots ih =>
    obtain ⟨hs, hf⟩ := List.forall_mem_cons.1 hf
    rw [readPresent] at h
    split at h
    · exact ih hf h
    · obtain ⟨v, ps₁, ps₂, -, hrest, rfl⟩ := h
      exact (ih hf hrest).trans (hs v a)

theorem readPresent_spells (hl : Lawful slots) (ha : ∀ s ∈ slots, s.child a = none)
    (h : (readPresent mask slots a).Spells ps b) : ps = (children slots b).map .inner := by
  induction slots generalizing ps a with
  | nil =>
    obtain ⟨rfl, rfl⟩ := h
    rfl
  | cons s slots ih =>
    obtain ⟨hs, ha⟩ := List.forall_mem_cons.1 ha
    have hapart := (List.pairwise_cons.1 hl.apart).1
    have hkeep : ∀ t ∈ slots, ∀ v a, s.child (t.fill v a) = s.child a :=
      fun t ht ↦ (hapart t ht).2
    rw [readPresent] at h
    split at h
    · rw [children_of_none ((eq_of_readPresent_spells hkeep h).trans hs)]
      exact ih hl.tail ha h
    · obtain ⟨v, ps₁, ps₂, rfl, hrest, rfl⟩ := h
      have hv : s.child b = some v := (eq_of_readPresent_spells hkeep hrest).trans
        (hl.child_fill s List.mem_cons_self v a)
      have ha' : ∀ t ∈ slots, t.child (s.fill v a) = none :=
        fun t ht ↦ ((hapart t ht).1 v a).trans (ha t ht)
      rw [children_of_some hv, ih hl.tail ha' hrest]
      rfl

end Slot

variable {ps : List Piece} {layout : Layout}

theorem Position.plan_spells {p : Position} (h : Position.plan.Spells ps p) :
    ps = (Node.position p).pieces layout := by
  obtain ⟨l, ps₁, _, h₁, ⟨c, ps₂, _, h₂, ⟨rfl, rfl⟩, rfl⟩, rfl⟩ := h
  rw [i32_spells h₁, i32_spells h₂]
  rfl

theorem Parameter.plan_spells {p : Parameter} (h : Parameter.plan.Spells ps p) :
    ps = (Node.parameter p).pieces layout := by
  obtain ⟨t, ps₁, _, rfl, ⟨name, ps₂, _, rfl, ⟨rfl, rfl⟩, rfl⟩, rfl⟩ := h
  rfl

theorem Statement.plan_spells {s : Statement} (h : Statement.plan.Spells ps s) :
    ps = (Node.statement s).pieces layout := by
  obtain ⟨kind, _, _, hk, ⟨code, _, _, hc, ⟨arg, _, _, rfl, ⟨target, _, _, rfl, ⟨cs, _, _, hcs,
    ⟨m, _, _, hm, hslots, rfl⟩, rfl⟩, rfl⟩, rfl⟩, rfl⟩, rfl⟩ := h
  have hcomponents : s.components = cs :=
    Slot.eq_of_readPresent_spells (f := components) (by simp [slots]) hslots
  rw [u32_spells hk, u32_spells hc, array_spells hcs, mask_spells hm,
    Slot.readPresent_spells slots_lawful (by simp [slots]) hslots, Node.pieces, hcomponents]
  simp only [List.cons_append, List.nil_append, List.append_assoc]
  rfl

theorem Component.plan_spells {c : Component} (h : Component.plan.Spells ps c) :
    ps = (Node.component c).pieces layout := by
  obtain ⟨kind, _, _, hk, ⟨code, _, _, hc, ⟨context, _, _, hx, ⟨raw, _, _, hr, ⟨arg, _, _, rfl,
    ⟨args, _, _, hargs, ⟨place, _, _, rfl, ⟨m, _, _, hm, hslots, rfl⟩, rfl⟩, rfl⟩, rfl⟩, rfl⟩,
    rfl⟩, rfl⟩, rfl⟩ := h
  have hkept : (c.args, c.position) = (args, place) :=
    Slot.eq_of_readPresent_spells (f := fun c : Component ↦ (c.args, c.position))
      (by simp [slots]) hslots
  obtain ⟨hargs', hplace⟩ := Prod.mk.inj hkept
  rw [u32_spells hk, u32_spells hc, code_spells hx, u64_spells hr, array_spells hargs,
    mask_spells hm, Slot.readPresent_spells slots_lawful (by simp [slots, bare]) hslots,
    Node.pieces, hargs', hplace]
  simp only [List.cons_append, List.nil_append, List.append_assoc]
  rfl

theorem Property.plan_spells {p : Property} (h : Property.plan.Spells ps p) :
    ps = (Node.property p).pieces layout := by
  obtain ⟨_, _, _, hkind, ⟨modifiers, _, _, hmod, ⟨name, _, _, rfl, ⟨type, _, _, rfl,
    ⟨place, _, _, rfl, ⟨m, _, _, hm, hslots, rfl⟩, rfl⟩, rfl⟩, rfl⟩, rfl⟩, rfl⟩ := h
  have hplace : p.position = place :=
    Slot.eq_of_readPresent_spells (f := Property.position) (by simp [slots]) hslots
  rw [code_spells hkind, u32_spells hmod, mask_spells hm,
    Slot.readPresent_spells slots_lawful (by simp [slots]) hslots, Node.pieces, hplace]
  simp only [List.cons_append, List.nil_append]
  rfl

theorem Method.constructorPlan_spells {kind : MethodKind} (h : constructorPlan.Spells ps kind) :
    ∃ calls, kind = .constructor calls ∧ ps = Piece.array (calls.map .component) := by
  obtain ⟨calls, hcalls, rfl⟩ := map_spells.1 h
  exact ⟨calls, rfl, array_spells hcalls⟩

theorem Method.kindPlan_spells {name : String} {m : Method}
    (h : (kindPlan layout name).Spells ps m.kind) : ps = m.endingPieces layout := by
  cases layout with
  | kindMarker =>
    obtain ⟨b, ps₁, ps₂, hb, hkind, rfl⟩ := h
    rw [code_spells hb, endingPieces, if_pos rfl]
    cases b with
    | true =>
      obtain ⟨calls, hk, rfl⟩ := constructorPlan_spells hkind
      rw [hk]
    | false =>
      obtain ⟨rfl, hk⟩ := hkind
      rw [hk]
  | reservedName =>
    rw [kindPlan] at h
    rw [endingPieces, if_neg (by simp), List.nil_append]
    split at h
    · obtain ⟨calls, hk, rfl⟩ := constructorPlan_spells h
      rw [hk]
    · obtain ⟨rfl, hk⟩ := h
      rw [hk]

theorem Method.plan_spells {m : Method} (h : (Method.plan layout).Spells ps m) :
    ps = (Node.method m).pieces layout := by
  obtain ⟨_, _, _, hmember, ⟨modifiers, _, _, hmod, ⟨name, _, _, rfl, ⟨type, _, _, rfl,
    ⟨place, _, _, rfl, ⟨parameters, _, _, hp, ⟨body, _, _, rfl, ⟨kind, _, _, hkind,
    ⟨rfl, rfl⟩, rfl⟩, rfl⟩, rfl⟩, rfl⟩, rfl⟩, rfl⟩, rfl⟩, rfl⟩ := h
  rw [code_spells hmember, u32_spells hmod, array_spells hp, kindPlan_spells (m :=
    ⟨⟨modifiers⟩, name, type, place, parameters, body, kind, false⟩) hkind, List.append_nil,
    Node.pieces]
  simp only [List.cons_append, List.nil_append, List.append_assoc]
  rfl

theorem Class.plan_spells {c : Class} (hc : ∀ m ∈ c.members, m.isSynthetic = false)
    (h : Class.plan.Spells ps c) : ps = (Node.classDef c).pieces layout := by
  obtain ⟨_, _, _, hmember, ⟨kind, _, _, hkind, ⟨modifiers, _, _, hmod, ⟨name, _, _, rfl,
    ⟨imports, _, _, hi, ⟨supers, _, _, hs, ⟨interfaces, _, _, hn, ⟨members, _, _, hm,
    ⟨parameters, _, _, hp, ⟨rfl, rfl⟩, rfl⟩, rfl⟩, rfl⟩, rfl⟩, rfl⟩, rfl⟩, rfl⟩, rfl⟩, rfl⟩ := h
  rw [code_spells hmember, code_spells hkind, u32_spells hmod, array_spells hi,
    typeNames_spells hs, typeNames_spells hn, array_spells hm, array_spells hp, Node.pieces,
    Class.declaredMembers, declared_eq_self hc]
  simp only [List.append_nil, List.cons_append, List.nil_append, List.append_assoc]
  rfl

theorem CodeBlock.plan_spells {b : CodeBlock} (h : CodeBlock.plan.Spells ps b) :
    ps = (Node.codeBlock b).pieces layout := array_spells h

theorem Node.tag_of_plan_spells {t : Tag} {n : Node} (h : (Node.plan layout t).Spells ps n) :
    n.tag = t := by
  cases t <;> obtain ⟨v, hv, rfl⟩ := map_spells.1 h <;> rfl

/-- A node that is no placeholder is read from its pieces. -/
theorem Node.plan_spells {t : Tag} {n : Node}
    (hn : ∀ c, n = .classDef c → ∀ m ∈ c.members, m.isSynthetic = false)
    (h : (Node.plan layout t).Spells ps n) : ps = n.pieces layout := by
  cases t <;> obtain ⟨v, hv, rfl⟩ := map_spells.1 h
  case byte => exact u8_spells hv
  case int32 => exact i32_spells hv
  case uint32 => exact u32_spells hv
  case uint64 => exact u64_spells hv
  case string => exact hv
  case classDef => exact Class.plan_spells (hn v rfl) hv
  case method => exact Method.plan_spells hv
  case parameter => exact Parameter.plan_spells hv
  case property => exact Property.plan_spells hv
  case position => exact Position.plan_spells hv
  case codeBlock => exact CodeBlock.plan_spells hv
  case statement => exact Statement.plan_spells hv
  case component => exact Component.plan_spells hv

end TreeBytecode
