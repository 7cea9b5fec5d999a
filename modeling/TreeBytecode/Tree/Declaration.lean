import TreeBytecode.Tree.Code
import TreeBytecode.Tree.Modifier

namespace TreeBytecode

def constructorName : String := "ctor"

structure Parameter where
  type : TypeRef
  name : String
deriving DecidableEq, Inhabited

inductive MethodKind
  | plain
  | constructor (superCalls : List Component)
deriving DecidableEq, Inhabited

structure Method where
  modifiers : Modifiers
  name : String
  returnType : TypeRef
  position : Position
  parameters : List Parameter
  body : CodeBlock
  kind : MethodKind
  /-- A placeholder made by the compiler. -/
  synthetic : Bool
deriving DecidableEq, Inhabited

namespace Method

def isConstructor (m : Method) : Bool :=
  match m.kind with
  | .plain => false
  | .constructor _ => true

def superCalls (m : Method) : List Component :=
  match m.kind with
  | .plain => []
  | .constructor calls => calls

end Method

/-- What can be done with a property, and the bodies that do it. A body does not imply the
capability, nor the capability a body. -/
structure Property where
  modifiers : Modifiers
  name : String
  returnType : TypeRef
  position : Position
  gettable : Bool
  settable : Bool
  initializable : Bool
  getter : Option CodeBlock
  setter : Option CodeBlock
  initializer : Option CodeBlock
deriving DecidableEq, Inhabited

mutual

structure Class where
  kind : ClassKind
  modifiers : Modifiers
  name : String
  imports : List String
  superclasses : List TypeRef
  interfaces : List TypeRef
  members : List ClassMember
  typeParameters : List String
  /-- Positions by name, once the class is frozen; the first entry of a name counts. -/
  index : Option (List (String × Nat))

inductive ClassMember
  | method (method : Method)
  | property (property : Property)
  | nested (inner : Class)

end

namespace ClassMember

def name : ClassMember → String
  | .method m => m.name
  | .property p => p.name
  | .nested c => c.name

def kind : ClassMember → MemberKind
  | .method _ => .method
  | .property _ => .property
  | .nested _ => .nested

def isSynthetic : ClassMember → Bool
  | .method m => m.synthetic
  | _ => false

end ClassMember

def declared (members : List ClassMember) : List ClassMember :=
  members.filter fun m ↦ !m.isSynthetic

/-- Positions by name, the last member first, so that it hides those before it. -/
def memberIndex (members : List ClassMember) : List (String × Nat) :=
  (members.mapIdx fun i m ↦ (m.name, i)).reverse

namespace Class

def shell (kind : ClassKind) (modifiers : Modifiers) (name : String) : Class where
  kind := kind
  modifiers := modifiers
  name := name
  imports := []
  superclasses := []
  interfaces := []
  members := []
  typeParameters := []
  index := none

instance : Inhabited Class := ⟨shell .unknown .none ""⟩

instance : Inhabited ClassMember := ⟨.nested default⟩

def declaredMembers (c : Class) : List ClassMember := declared c.members

def isFrozen (c : Class) : Bool := c.index.isSome

def freeze (c : Class) : Bool × Class :=
  match c.index with
  | some _ => (false, c)
  | none => (true, { c with index := some (memberIndex c.members) })

/-- The member of a name. Before the class is frozen that is the last one so named, from then on
the one that stands where the last one stood at the time. -/
def member? (c : Class) (name : String) : Option ClassMember :=
  match c.index with
  | some index => (index.lookup name).bind fun i ↦ c.members[i]?
  | none => c.members.reverse.find? fun m ↦ m.name == name

def push (c : Class) (m : ClassMember) : Class := { c with members := c.members ++ [m] }

def replace (c : Class) (i : Nat) (m : ClassMember) : Class :=
  { c with members := c.members.set i m }

def swap (c : Class) (i j : Nat) : Class :=
  match c.members[i]?, c.members[j]? with
  | some m, some n => { c with members := (c.members.set i n).set j m }
  | _, _ => c

end Class

mutual

def Class.persisted : Class → Class
  | ⟨kind, modifiers, name, imports, superclasses, interfaces, members, typeParameters, _⟩ =>
    { kind, modifiers, name, imports, superclasses, interfaces, typeParameters
      members := persistedMembers members
      index := some (memberIndex (persistedMembers members)) }

def ClassMember.persisted : ClassMember → ClassMember
  | .method m => .method m
  | .property p => .property p
  | .nested c => .nested c.persisted

def persistedMembers : List ClassMember → List ClassMember
  | [] => []
  | m :: ms => if m.isSynthetic then persistedMembers ms else m.persisted :: persistedMembers ms

end

mutual

def Class.same : Class → Class → Bool
  | ⟨k, m, n, is, ss, fs, ms, ts, _⟩, ⟨k', m', n', is', ss', fs', ms', ts', _⟩ =>
    k == k' && m == m' && n == n' && is == is' && ss == ss' && fs == fs' &&
      sameMembers ms (declared ms') && ts == ts'

def ClassMember.same : ClassMember → ClassMember → Bool
  | .method m, .method n => m == n
  | .property p, .property q => p == q
  | .nested c, .nested d => c.same d
  | _, _ => false

def sameMembers : List ClassMember → List ClassMember → Bool
  | [], ns => ns.isEmpty
  | m :: ms, ns =>
    if m.isSynthetic then sameMembers ms ns
    else match ns with
      | [] => false
      | n :: ns => m.same n && sameMembers ms ns

end

instance : BEq Class := ⟨Class.same⟩

instance : BEq ClassMember := ⟨ClassMember.same⟩

@[simp] theorem ClassMember.name_persisted (m : ClassMember) : m.persisted.name = m.name := by
  cases m with
  | method | property => rfl
  | nested c => cases c; rfl

@[simp] theorem ClassMember.isSynthetic_persisted (m : ClassMember) :
    m.persisted.isSynthetic = m.isSynthetic := by
  cases m <;> simp [ClassMember.persisted, ClassMember.isSynthetic]

theorem persistedMembers_eq (ms : List ClassMember) :
    persistedMembers ms = (declared ms).map ClassMember.persisted := by
  induction ms with
  | nil => simp [persistedMembers, declared]
  | cons m ms ih => cases h : m.isSynthetic <;> simp_all [persistedMembers, declared]

mutual

theorem Class.same_iff_persisted_eq : ∀ c d : Class, c.same d = true ↔ c.persisted = d.persisted
  | ⟨_, _, _, _, _, _, ms, _, _⟩, ⟨_, _, _, _, _, _, ms', _, _⟩ => by
    simp only [Class.same, Class.persisted, Bool.and_eq_true, beq_iff_eq, Class.mk.injEq,
      sameMembers_iff ms (declared ms'), persistedMembers_eq ms']
    constructor
    · rintro ⟨⟨⟨⟨⟨⟨⟨rfl, rfl⟩, rfl⟩, rfl⟩, rfl⟩, rfl⟩, h⟩, rfl⟩
      simp [h]
    · rintro ⟨rfl, rfl, rfl, rfl, rfl, rfl, h, rfl, -⟩
      simp [h]

theorem ClassMember.same_iff_persisted_eq :
    ∀ m n : ClassMember, m.same n = true ↔ m.persisted = n.persisted
  | .method m, .method n => by simp [ClassMember.same, ClassMember.persisted]
  | .property p, .property q => by simp [ClassMember.same, ClassMember.persisted]
  | .nested c, .nested d => by
    simp [ClassMember.same, ClassMember.persisted, Class.same_iff_persisted_eq c d]
  | .method _, .property _ | .method _, .nested _ | .property _, .method _
  | .property _, .nested _ | .nested _, .method _ | .nested _, .property _ => by
    simp [ClassMember.same, ClassMember.persisted]

theorem sameMembers_iff : ∀ ms ns : List ClassMember,
    sameMembers ms ns = true ↔ persistedMembers ms = ns.map ClassMember.persisted
  | [], ns => by cases ns <;> simp [sameMembers, persistedMembers]
  | m :: ms, [] => by
    cases h : m.isSynthetic <;>
      simp [sameMembers, persistedMembers, h, sameMembers_iff ms []]
  | m :: ms, n :: ns => by
    cases h : m.isSynthetic <;>
      simp [sameMembers, persistedMembers, h, sameMembers_iff ms (n :: ns),
        sameMembers_iff ms ns, ClassMember.same_iff_persisted_eq m n]

end

end TreeBytecode
