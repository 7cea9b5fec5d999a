import TreeBytecode.Stream.Source

namespace TreeBytecode.Wire

open TreeBytecode.Stream

/-- What comes after the bytes of an input that are at hand. -/
inductive Ending
  | clean
  | faulty (fault : Fault)
  | packed (more : Source)
deriving Inhabited

namespace Ending

instance (e : Ending) : Decidable (e = .clean) :=
  match e with
  | .clean => .isTrue rfl
  | .faulty _ | .packed _ => .isFalse nofun

def ofFault? : Option Fault → Ending
  | none => .clean
  | some fault => .faulty fault

def unpack : Demand → Source → Bytes × Ending
  | _, .stop fault? => ([], ofFault? fault?)
  | d, .more bytes rest =>
    if d.request = 0 then ([], .packed (.more bytes rest))
    else
      let given := bytes d.request
      let more := unpack (d.absorb given.length given.length) (rest d.request)
      (given ++ more.1, more.2)

def supply (d : Demand) : Ending → Bytes × Ending
  | .packed more => unpack d more
  | ending => ([], ending)

@[simp] theorem supply_clean (d : Demand) : clean.supply d = ([], clean) := rfl

@[simp] theorem supply_faulty (d : Demand) (fault : Fault) :
    (faulty fault).supply d = ([], faulty fault) := rfl

end Ending

end TreeBytecode.Wire
