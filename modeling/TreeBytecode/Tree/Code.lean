import TreeBytecode.Tree.Kind
import TreeBytecode.Tree.TypeRef

namespace TreeBytecode

structure Position where
  line : Int32
  column : Int32
deriving DecidableEq, Inhabited

def Position.origin : Position := ⟨0, 0⟩

mutual

/-- An empty `arg` stands for a statement without an argument. -/
structure Statement where
  kind : StatementKind
  code : BytecodeKind
  arg : String
  target : TypeRef
  components : List Component
  finallyBlock : Option (List Statement)

/-- A piece of an expression. Any of the six children may be there, independently. -/
structure Component where
  kind : StatementKind
  code : BytecodeKind
  context : VariableContext
  raw : UInt64
  arg : String
  args : List String
  position : Position
  subStatement : Option Statement
  altStatement : Option Statement
  subComponent : Option Component
  altComponent : Option Component
  postComponent : Option Component
  innerCode : Option (List Statement)

end

abbrev CodeBlock := List Statement

def Component.bare (kind : StatementKind) (code : BytecodeKind) : Component where
  kind := kind
  code := code
  context := .localName
  raw := 0
  arg := ""
  args := []
  position := .origin
  subStatement := none
  altStatement := none
  subComponent := none
  altComponent := none
  postComponent := none
  innerCode := none

instance : Inhabited Component := ⟨.bare default default⟩

instance : Inhabited Statement := ⟨⟨default, default, "", default, [], none⟩⟩

def Component.variable (context : VariableContext) (name : String) : Component :=
  { Component.bare .provider .expressionVariable with context := context, arg := name }

def Component.wrapped (c : Component) : Nat → Component
  | 0 => c
  | n + 1 => wrapped { Component.bare .operator .operator with subComponent := some c } n

section Induction

set_option linter.unusedSectionVars false

variable {P : Statement → Prop} {Q : Component → Prop}
  (statement : ∀ s : Statement, (∀ c ∈ s.components, Q c) →
    (∀ b ∈ s.finallyBlock, ∀ t ∈ b, P t) → P s)
  (component : ∀ c : Component, (∀ s ∈ c.subStatement, P s) → (∀ s ∈ c.altStatement, P s) →
    (∀ d ∈ c.subComponent, Q d) → (∀ d ∈ c.altComponent, Q d) → (∀ d ∈ c.postComponent, Q d) →
    (∀ b ∈ c.innerCode, ∀ s ∈ b, P s) → Q c)

include statement component

mutual

private theorem Code.onStatement : ∀ s : Statement, P s
  | ⟨_, _, _, _, cs, f⟩ => statement _ (onComponents cs) (onBlock? f)

private theorem Code.onComponent : ∀ c : Component, Q c
  | ⟨_, _, _, _, _, _, _, s₁, s₂, c₁, c₂, c₃, b⟩ =>
    component _ (onStatement? s₁) (onStatement? s₂) (onComponent? c₁) (onComponent? c₂)
      (onComponent? c₃) (onBlock? b)

private theorem Code.onComponents : ∀ cs : List Component, ∀ c ∈ cs, Q c
  | [], _, h => absurd h List.not_mem_nil
  | c :: cs, d, h => (List.mem_cons.1 h).elim (fun e ↦ e ▸ onComponent c) (onComponents cs d)

private theorem Code.onStatements : ∀ ss : List Statement, ∀ s ∈ ss, P s
  | [], _, h => absurd h List.not_mem_nil
  | s :: ss, t, h => (List.mem_cons.1 h).elim (fun e ↦ e ▸ onStatement s) (onStatements ss t)

private theorem Code.onStatement? : ∀ o : Option Statement, ∀ s ∈ o, P s
  | some s, _, h => Option.mem_some.1 h ▸ onStatement s

private theorem Code.onComponent? : ∀ o : Option Component, ∀ c ∈ o, Q c
  | some c, _, h => Option.mem_some.1 h ▸ onComponent c

private theorem Code.onBlock? : ∀ o : Option (List Statement), ∀ b ∈ o, ∀ s ∈ b, P s
  | some b, _, h => Option.mem_some.1 h ▸ onStatements b

end

theorem Code.induction : (∀ s, P s) ∧ (∀ c, Q c) :=
  ⟨onStatement statement component, onComponent statement component⟩

end Induction

mutual

def Statement.same : Statement → Statement → Bool
  | ⟨k, c, a, t, cs, f⟩, ⟨k', c', a', t', cs', f'⟩ =>
    k == k' && c == c' && a == a' && t == t' && sameComponents cs cs' && sameBlock? f f'

def Component.same : Component → Component → Bool
  | ⟨k, c, x, r, a, as, p, s₁, s₂, c₁, c₂, c₃, b⟩,
    ⟨k', c', x', r', a', as', p', s₁', s₂', c₁', c₂', c₃', b'⟩ =>
    k == k' && c == c' && x == x' && r == r' && a == a' && as == as' && p == p' &&
      sameStatement? s₁ s₁' && sameStatement? s₂ s₂' && sameComponent? c₁ c₁' &&
      sameComponent? c₂ c₂' && sameComponent? c₃ c₃' && sameBlock? b b'

def sameComponents : List Component → List Component → Bool
  | [], [] => true
  | c :: cs, d :: ds => c.same d && sameComponents cs ds
  | _, _ => false

def sameStatements : List Statement → List Statement → Bool
  | [], [] => true
  | s :: ss, t :: ts => s.same t && sameStatements ss ts
  | _, _ => false

def sameStatement? : Option Statement → Option Statement → Bool
  | none, none => true
  | some s, some t => s.same t
  | _, _ => false

def sameComponent? : Option Component → Option Component → Bool
  | none, none => true
  | some c, some d => c.same d
  | _, _ => false

def sameBlock? : Option (List Statement) → Option (List Statement) → Bool
  | none, none => true
  | some b, some d => sameStatements b d
  | _, _ => false

end

mutual

theorem Statement.same_iff : ∀ s t : Statement, s.same t = true ↔ s = t
  | ⟨_, _, _, _, cs, f⟩, ⟨_, _, _, _, cs', f'⟩ => by
    simp [Statement.same, sameComponents_iff cs cs', sameBlock?_iff f f', and_assoc]

theorem Component.same_iff : ∀ c d : Component, c.same d = true ↔ c = d
  | ⟨_, _, _, _, _, _, _, s₁, s₂, c₁, c₂, c₃, b⟩,
    ⟨_, _, _, _, _, _, _, s₁', s₂', c₁', c₂', c₃', b'⟩ => by
    simp [Component.same, sameStatement?_iff s₁ s₁', sameStatement?_iff s₂ s₂',
      sameComponent?_iff c₁ c₁', sameComponent?_iff c₂ c₂', sameComponent?_iff c₃ c₃',
      sameBlock?_iff b b', and_assoc]

theorem sameComponents_iff : ∀ cs ds : List Component, sameComponents cs ds = true ↔ cs = ds
  | [], [] => by simp [sameComponents]
  | c :: cs, d :: ds => by simp [sameComponents, Component.same_iff c d, sameComponents_iff cs ds]
  | [], _ :: _ => by simp [sameComponents]
  | _ :: _, [] => by simp [sameComponents]

theorem sameStatements_iff : ∀ ss ts : List Statement, sameStatements ss ts = true ↔ ss = ts
  | [], [] => by simp [sameStatements]
  | s :: ss, t :: ts => by simp [sameStatements, Statement.same_iff s t, sameStatements_iff ss ts]
  | [], _ :: _ => by simp [sameStatements]
  | _ :: _, [] => by simp [sameStatements]

theorem sameStatement?_iff : ∀ o p : Option Statement, sameStatement? o p = true ↔ o = p
  | none, none => by simp [sameStatement?]
  | some s, some t => by simp [sameStatement?, Statement.same_iff s t]
  | none, some _ => by simp [sameStatement?]
  | some _, none => by simp [sameStatement?]

theorem sameComponent?_iff : ∀ o p : Option Component, sameComponent? o p = true ↔ o = p
  | none, none => by simp [sameComponent?]
  | some c, some d => by simp [sameComponent?, Component.same_iff c d]
  | none, some _ => by simp [sameComponent?]
  | some _, none => by simp [sameComponent?]

theorem sameBlock?_iff : ∀ o p : Option (List Statement), sameBlock? o p = true ↔ o = p
  | none, none => by simp [sameBlock?]
  | some b, some d => by simp [sameBlock?, sameStatements_iff b d]
  | none, some _ => by simp [sameBlock?]
  | some _, none => by simp [sameBlock?]

end

instance : DecidableEq Statement := fun s t ↦ decidable_of_iff _ (s.same_iff t)

instance : DecidableEq Component := fun c d ↦ decidable_of_iff _ (c.same_iff d)

end TreeBytecode
