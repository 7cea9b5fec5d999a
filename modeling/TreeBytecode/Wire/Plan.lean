import TreeBytecode.StringTable
import TreeBytecode.Tree.TypeRef
import TreeBytecode.Wire.Ending
import TreeBytecode.Wire.Step

namespace TreeBytecode.Wire

/-- An input in the middle of reading; the innermost open frame comes first. -/
structure Cursor where
  /-- The bytes at hand. -/
  rest : Bytes
  ending : Ending
  offset : Nat
  frames : List Tag
deriving Inhabited

namespace Cursor

instance (c d : Cursor) [Decidable (c.ending = d.ending)] : Decidable (c = d) :=
  decidable_of_iff
    (c.rest = d.rest ∧ c.ending = d.ending ∧ c.offset = d.offset ∧ c.frames = d.frames) (by
      cases c
      cases d
      simp)

def start (bytes : Bytes) (ending : Ending) : Cursor := ⟨bytes, ending, 0, []⟩

def location (c : Cursor) : Location := ⟨c.frames.head?, c.offset⟩

def depth (c : Cursor) : Nat := c.frames.length

def enter (t : Tag) (c : Cursor) : Cursor := { c with frames := t :: c.frames }

def leave (c : Cursor) : Cursor := { c with frames := c.frames.tail }

def fill (count : Nat) (c : Cursor) : Cursor :=
  let ready := (c.rest.take count).length
  if ready = count then c
  else
    let more := c.ending.supply ((Stream.Demand.upTo count).absorb ready ready)
    { c with rest := c.rest ++ more.1, ending := more.2 }

@[simp] theorem fill_clean (count offset : Nat) (bytes : Bytes) (frames : List Tag) :
    fill count ⟨bytes, .clean, offset, frames⟩ = ⟨bytes, .clean, offset, frames⟩ := by
  simp [fill]

@[simp] theorem fill_faulty (count offset : Nat) (bytes : Bytes) (fault : Fault)
    (frames : List Tag) :
    fill count ⟨bytes, .faulty fault, offset, frames⟩ =
      ⟨bytes, .faulty fault, offset, frames⟩ := by
  simp [fill]

def endFault? (c : Cursor) : Option Fault :=
  match c.ending with
  | .clean | .packed _ => none
  | .faulty fault => some fault

/-- The number in the next `width` bytes. If there are fewer, they are lost, and an unexpected end
counts as an end. -/
def readWord (width : Nat) : Step Cursor Nat := fun c ↦
  let c := c.fill width
  let taken := c.rest.take width
  if taken.length = width then
    (.ok (ofBytes taken), { c with rest := c.rest.drop width, offset := c.offset + width })
  else
    let failure := match c.endFault? with
      | none | some .unexpectedEnd => .truncated width c.location
      | some fault => .device fault
    (.error failure, { c with rest := [] })

/-- The next `count` bytes. If there are fewer, they count as read, unless the input is faulty. -/
def readBytes (count : Nat) : Step Cursor Bytes := fun c ↦
  let c := c.fill count
  let taken := c.rest.take count
  if taken.length = count then
    (.ok taken, { c with rest := c.rest.drop count, offset := c.offset + count })
  else
    match c.endFault? with
    | none =>
      (.error (.truncated count c.location),
        { c with rest := [], offset := c.offset + taken.length })
    | some fault => (.error (.device fault), { c with rest := [] })

end Cursor

/-- What names in a stream refer to. -/
structure Scope where
  table : StringTable
  types : TypeResolver

def Scope.empty : Scope := ⟨.empty, fun _ ↦ none⟩

inductive Plan : Type → Type 1
  | pure {α : Type} (a : α) : Plan α
  | bind {α β : Type} (first : Plan β) (next : β → Plan α) : Plan α
  | word (width : Nat) : Plan Nat
  | bytes (count : Nat) : Plan Bytes
  /-- The string with the id that comes next. -/
  | text : Plan String
  /-- The type with the name that is read first. -/
  | typed (name : Plan String) : Plan TypeRef
  /-- A value that must pass a check; if it does not, the fault is where the value begins. -/
  | checked {α β : Type} (value : Plan β) (check : β → Except Defect α) : Plan α
  /-- An embedded frame. -/
  | child (e : Expectation) : Plan e.Content

namespace Plan

instance : Monad Plan where
  pure := Plan.pure
  bind := Plan.bind

variable {α : Type}

def run (scope : Scope) (frame : (e : Expectation) → Step Cursor e.Content) :
    {α : Type} → Plan α → Step Cursor α
  | _, .pure a => fun c ↦ (.ok a, c)
  | _, .bind first next => fun c ↦
    match first.run scope frame c with
    | (.ok b, d) => (next b).run scope frame d
    | (.error f, d) => (.error f, d)
  | _, .word width => Cursor.readWord width
  | _, .bytes count => Cursor.readBytes count
  | _, .text => fun c ↦
    match Cursor.readWord 4 c with
    | (.ok id, d) =>
      match scope.table.get? id with
      | some s => (.ok s, d)
      | none => (.error (.unresolved (.stringId id) c.location), d)
    | (.error f, d) => (.error f, d)
  | _, .typed name => fun c ↦
    match name.run scope frame c with
    | (.ok s, d) =>
      match scope.types.typeRef? s with
      | some t => (.ok t, d)
      | none => (.error (.unresolved (.typeName s) c.location), d)
    | (.error f, d) => (.error f, d)
  | _, .checked value check => fun c ↦
    match value.run scope frame c with
    | (.ok b, d) =>
      match check b with
      | .ok a => (.ok a, d)
      | .error defect => (.error (.malformed defect c.location), d)
    | (.error f, d) => (.error f, d)
  | _, .child e => frame e

def u8 : Plan UInt8 := UInt8.ofNat <$> word 1
def u16 : Plan UInt16 := UInt16.ofNat <$> word 2
def u32 : Plan UInt32 := UInt32.ofNat <$> word 4
def u64 : Plan UInt64 := UInt64.ofNat <$> word 8
def i32 : Plan Int32 := signed <$> word 4

def length : Plan Nat := checked i32 fun n ↦
  if n.toInt < 0 then .error (.negativeLength n.toInt) else .ok n.toInt.toNat

def tag : Plan Tag := checked (word 1) fun code ↦
  match Tag.ofCode? code with
  | some t => .ok t
  | none => .error (.unknownTag code)

def mask (allowed : UInt8) (what : String) : Plan UInt8 := checked u8 fun bits ↦
  if bits &&& ~~~allowed = 0 then .ok bits else .error (.strayBits what (bits &&& ~~~allowed))

def times (p : Plan α) : Nat → Plan (List α)
  | 0 => return []
  | n + 1 => return (← p) :: (← times p n)

def array (e : Expectation) : Plan (List e.Content) := do times (child e) (← length)

def typeName : Plan TypeRef := typed text

def typeNames : Plan (List TypeRef) := do times (typed (child (.only .string))) (← length)

end Plan

def Plan.runPlain {α : Type} (p : Plan α) : Step Cursor α :=
  p.run .empty fun _ ↦ Step.fail (.device .other)

end TreeBytecode.Wire
