import TreeBytecode.Decoder

namespace TreeBytecode

namespace Wire

variable {α β : Type}

/-- A step whose value is judged by where the step began. -/
def Step.judged (x : Step Cursor β) (judge : β → Location → Except Failure α) : Step Cursor α :=
  fun c ↦
    match x c with
    | (.ok b, d) => (judge b c.location, d)
    | (.error f, d) => (.error f, d)

/-- A step inside a frame, which stays open if the step fails. -/
def Step.within (t : Tag) (x : Step Cursor α) : Step Cursor α := fun c ↦
  match x (c.enter t) with
  | (.ok a, d) => (.ok a, d.leave)
  | (.error f, d) => (.error f, d)

namespace Plan

variable {scope : Scope} {frame : (e : Expectation) → Step Cursor e.Content}

theorem run_bind (first : Plan β) (next : β → Plan α) : (Plan.bind first next).run scope frame =
    first.run scope frame >>= fun b ↦ (next b).run scope frame := by
  funext c
  simp only [run, Step.bind_apply]
  rcases first.run scope frame c with ⟨f | b, d⟩ <;> rfl

theorem runPlain_bind (first : Plan β) (next : β → Plan α) :
    (first >>= next).runPlain = first.runPlain >>= fun b ↦ (next b).runPlain := run_bind first next

theorem run_text : text.run scope frame = (Cursor.readWord 4).judged fun id at_ ↦
    match scope.table.get? id with
    | some s => .ok s
    | none => .error (.unresolved (.stringId id) at_) := by
  funext c
  simp only [run, Step.judged]
  rcases Cursor.readWord 4 c with ⟨f | id, d⟩
  · rfl
  · dsimp only
    cases scope.table.get? id <;> rfl

theorem run_typed (name : Plan String) : (typed name).run scope frame =
    (name.run scope frame).judged fun s at_ ↦
      match scope.types.typeRef? s with
      | some t => .ok t
      | none => .error (.unresolved (.typeName s) at_) := by
  funext c
  simp only [run, Step.judged]
  rcases name.run scope frame c with ⟨f | s, d⟩
  · rfl
  · dsimp only
    cases scope.types.typeRef? s <;> rfl

theorem run_checked (value : Plan β) (check : β → Except Defect α) :
    (checked value check).run scope frame = (value.run scope frame).judged fun b at_ ↦
      match check b with
      | .ok a => .ok a
      | .error defect => .error (.malformed defect at_) := by
  funext c
  simp only [run, Step.judged]
  rcases value.run scope frame c with ⟨f | b, d⟩
  · rfl
  · dsimp only
    cases check b <;> rfl

end Plan

end Wire

open Wire

namespace Decoder

theorem opening_eq (p : Placement) (e : Expectation) :
    opening p e = Plan.tag.runPlain.judged fun t at_ ↦
      if e.accepts t then .ok t else .error (p.mismatch e t at_) := by
  funext c
  simp only [opening, Step.judged]
  rcases Plan.tag.runPlain c with ⟨f | t, d⟩
  · rfl
  · dsimp only
    split <;> rfl

theorem frame_zero (d : Decoder) (p : Placement) (e : Expectation) :
    d.frame 0 p e = (opening p e).judged fun _ at_ ↦ .error (.tooDeep d.maxDepth at_) := by
  funext c
  simp only [frame, Step.judged]
  rcases opening p e c with ⟨f | t, d⟩ <;> rfl

theorem frame_succ (d : Decoder) (levels : Nat) (p : Placement) (e : Expectation) :
    d.frame (levels + 1) p e =
      Step.judged (opening p e >>= fun t ↦
        Step.within t ((Node.plan d.layout t).run d.scope (d.frame levels .embedded))) fun n at_ ↦
      match e.ofNode? n with
      | some v => .ok v
      | none => .error (.malformed (.unexpectedFrame e n.tag) at_) := by
  funext c
  simp only [frame, Step.judged, Step.bind_apply, Step.within]
  rcases opening p e c with ⟨f | t, c₁⟩
  · rfl
  · dsimp only
    rcases (Node.plan d.layout t).run d.scope (d.frame levels .embedded) (c₁.enter t)
      with ⟨f | n, c₂⟩
    · rfl
    · dsimp only
      cases e.ofNode? n <;> rfl

theorem frame_of_opening_error (d : Decoder) {levels : Nat} {p : Placement} {e : Expectation}
    {c c' : Cursor} {f : Failure} (h : opening p e c = (.error f, c')) :
    d.frame levels p e c = (.error f, c') := by
  cases levels <;> simp only [frame, h]

end Decoder

end TreeBytecode
