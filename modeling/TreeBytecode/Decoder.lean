import TreeBytecode.Payload.Node

namespace TreeBytecode

open Wire

structure Decoder where
  scope : Scope
  layout : Layout
  /-- How many frames may be open at once. -/
  maxDepth : Nat

inductive Placement
  | top
  | embedded
deriving DecidableEq, Inhabited

def Placement.mismatch (e : Expectation) (found : Tag) (place : Location) : Placement → Failure
  | .top => .typeMismatch e found place
  | .embedded => .malformed (.unexpectedFrame e found) place

namespace Decoder

def defaultMaxDepth : Nat := 256

def opening (p : Placement) (e : Expectation) : Step Cursor Tag := fun c ↦
  match Plan.tag.runPlain c with
  | (.ok t, d) => if e.accepts t then (.ok t, d) else (.error (p.mismatch e t c.location), d)
  | (.error f, d) => (.error f, d)

/-- Reads a frame in which at most `levels` frames are nested, itself included. -/
def frame (d : Decoder) : (levels : Nat) → Placement → (e : Expectation) → Step Cursor e.Content
  | 0, p, e => fun c ↦
    match opening p e c with
    | (.ok _, c') => (.error (.tooDeep d.maxDepth c.location), c')
    | (.error f, c') => (.error f, c')
  | levels + 1, p, e => fun c ↦
    match opening p e c with
    | (.ok t, c') =>
      match (Node.plan d.layout t).run d.scope (frame d levels .embedded) (c'.enter t) with
      | (.ok n, c'') =>
        match e.ofNode? n with
        | some v => (.ok v, c''.leave)
        | none => (.error (.malformed (.unexpectedFrame e n.tag) c.location), c''.leave)
      | (.error f, c'') => (.error f, c'')
    | (.error f, c') => (.error f, c')

def perform {α : Type} (d : Decoder) (p : Plan α) : Step Cursor α := fun c ↦
  p.run d.scope (d.frame (d.maxDepth - c.depth) .embedded) c

def load (d : Decoder) (e : Expectation) : Step Cursor e.Content := fun c ↦
  d.frame (d.maxDepth - c.depth) .top e c

end Decoder

end TreeBytecode
