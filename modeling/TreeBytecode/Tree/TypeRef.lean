import TreeBytecode.Numbering

namespace TreeBytecode

structure TypeRef where
  name : String
  handle : UInt32
deriving DecidableEq, Inhabited

abbrev TypeResolver := String → Option UInt32

def TypeResolver.typeRef? (r : TypeResolver) (name : String) : Option TypeRef :=
  (r name).map (TypeRef.mk name)

/-- Declared names with their handles, in the order of declaration. -/
structure TypeUniverse where
  types : Numbering
deriving DecidableEq, Inhabited

namespace TypeUniverse

variable {u : TypeUniverse} {name : String}

def empty : TypeUniverse := ⟨[]⟩

def size (u : TypeUniverse) : Nat := u.types.length

def resolve? (u : TypeUniverse) : TypeResolver := fun name ↦ u.types.lookup name

def typeRef? (u : TypeUniverse) : String → Option TypeRef := u.resolve?.typeRef?

def declare (u : TypeUniverse) (name : String) : TypeRef × TypeUniverse :=
  let next := UInt32.ofNat u.types.length
  let (handle, types) := u.types.orPut name next
  (⟨name, handle⟩, ⟨types⟩)

def builtinNames : List String := ["void", "object", "type", "str", "num", "int", "bool"]

def builtins : TypeUniverse := builtinNames.foldl (fun u name ↦ (u.declare name).2) empty

theorem declare_of_known {handle : UInt32} (h : u.resolve? name = some handle) :
    u.declare name = (⟨name, handle⟩, u) := by
  have hlookup : u.types.lookup name = some handle := h
  simp only [declare, Numbering.orPut, hlookup]

theorem declare_of_new (h : u.resolve? name = none) : u.declare name =
    (⟨name, UInt32.ofNat u.size⟩, ⟨u.types ++ [(name, UInt32.ofNat u.size)]⟩) := by
  have hlookup : u.types.lookup name = none := h
  simp only [declare, Numbering.orPut, hlookup, size]

end TypeUniverse

end TreeBytecode
