import TreeBytecode.Stream.Demand
import TreeBytecode.Wire.Failure
import TreeBytecode.Wire.Word

namespace TreeBytecode.Stream

open Wire

/-- Bytes that are made when they are asked for. What a source gives, and how it goes on, may depend
on how much it is asked for. -/
inductive Source
  | stop (fault? : Option Fault)
  | more (bytes : (request : Nat) → Bytes) (rest : (request : Nat) → Source)

instance : Inhabited Source := ⟨.stop none⟩

/-- However the source is asked, it gives this content and then ends. -/
def Source.Gives : Source → Bytes → Prop
  | .stop fault?, content => fault? = none ∧ content = []
  | .more bytes rest, content =>
    ∀ n, 0 < n → ∃ left, content = bytes n ++ left ∧ (rest n).Gives left

end TreeBytecode.Stream
