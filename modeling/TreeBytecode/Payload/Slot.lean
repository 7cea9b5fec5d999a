import TreeBytecode.Wire.Field
import TreeBytecode.Wire.Plan

namespace TreeBytecode

open Wire

structure Slot (α : Type) where
  /-- The bit that stands for the child. -/
  bit : UInt8
  expected : Expectation
  child : α → Option expected.Content
  fill : expected.Content → α → α

namespace Slot

variable {α : Type}

def present (a : α) (s : Slot α) : Bool := (s.child a).isSome

def bits (slots : List (Slot α)) : UInt8 := slots.foldl (fun mask s ↦ mask ||| s.bit) 0

def presence (slots : List (Slot α)) (a : α) : UInt8 := bits (slots.filter (present a))

def children (slots : List (Slot α)) (a : α) : List Node :=
  slots.filterMap fun s ↦ (s.child a).map s.expected.toNode

def readPresent (mask : UInt8) : List (Slot α) → α → Plan α
  | [], a => pure a
  | s :: slots, a =>
    if mask &&& s.bit = 0 then readPresent mask slots a
    else do
      let v ← .child s.expected
      readPresent mask slots (s.fill v a)

end Slot

end TreeBytecode
