import TreeBytecode.Decoder
import TreeBytecode.Wire.Encoder

namespace TreeBytecode

open Wire

structure Adapter where
  version : FormatVersion
  layout : Layout
deriving DecidableEq, Inhabited

namespace Adapter

def v0_10 : Adapter := ⟨.v0_10, .reservedName⟩
def v0_11 : Adapter := ⟨.v0_11, .kindMarker⟩

def write (a : Adapter) (n : Node) : Step Encoder Nat := fun e ↦
  match Encoder.put (n.frame a.layout) e with
  | (.ok _, e') => (.ok e'.offset, e')
  | (.error f, e') => (.error f, e')

def load (a : Adapter) (scope : Scope) (maxDepth : Nat) (e : Expectation) : Step Cursor e.Content :=
  Decoder.load ⟨scope, a.layout, maxDepth⟩ e

end Adapter

/-- Adapters by version, in the order in which their versions were first registered, and the
version that is to be written. -/
structure Registry where
  adapters : List Adapter
  currentVersion : FormatVersion
deriving DecidableEq, Inhabited

namespace Registry

def empty (current : FormatVersion) : Registry := ⟨[], current⟩

def find? (r : Registry) (v : FormatVersion) : Option Adapter :=
  r.adapters.find? fun a ↦ a.version = v

def get (r : Registry) (v : FormatVersion) : Except Failure Adapter :=
  match r.find? v with
  | some a => .ok a
  | none => .error (.unsupportedVersion v)

def register (r : Registry) (a : Adapter) : Registry :=
  { r with
    adapters :=
      if (r.find? a.version).isSome then
        r.adapters.map fun b ↦ if b.version = a.version then a else b
      else r.adapters ++ [a] }

def builtin : Registry := ((empty .current).register .v0_10).register .v0_11

def current (r : Registry) : Except Failure Adapter := r.get r.currentVersion

def versions (r : Registry) : List FormatVersion := r.adapters.map Adapter.version

end Registry

end TreeBytecode
