namespace TreeBytecode.Stream

/-- A collection of bytes in the middle of growing. What is asked for next depends on the room that
was made for it. -/
structure Demand where
  held : Nat
  /-- For how many bytes there is room, until more is made. -/
  room : Nat
  /-- The room there was at first. -/
  initial : Nat
  /-- No request is for more. -/
  most : Nat
  /-- Not more than these are collected. -/
  limit : Nat
deriving DecidableEq, Inhabited

namespace Demand

def probeSize : Nat := 32

def firstMost : Nat := 8192

/-- Room that is made on the word of a length alone. -/
def reserve : Nat := 4096

def upTo (count : Nat) : Demand := ⟨0, min count reserve, min count reserve, firstMost, count⟩

/-- Whether the next request only finds out if there is more: at first, with little room, and when
the first room is used up. -/
def probes (d : Demand) : Bool :=
  (d.held == 0 && d.room < probeSize) || (d.held == d.room && d.room == d.initial)

def grown (d : Demand) (needed : Nat) : Nat := max (max (2 * d.room) needed) 8

def nextRoom (d : Demand) : Nat := if d.held = d.room then d.grown (d.held + probeSize) else d.room

def asked (d : Demand) : Nat := if d.probes then probeSize else min (d.nextRoom - d.held) d.most

def request (d : Demand) : Nat := min d.asked (d.limit - d.held)

def took (n : Nat) (d : Demand) : Demand :=
  if d.probes then
    { d with
      held := d.held + n
      room := if d.held + n ≤ d.room then d.room else d.grown (d.held + n) }
  else
    { d with
      held := d.held + n
      room := d.nextRoom
      most := if d.asked = d.most ∧ n = d.asked then 2 * d.most else d.most }

def absorb : (fuel n : Nat) → Demand → Demand
  | 0, _, d => d
  | fuel + 1, n, d =>
    if n = 0 then d else absorb fuel (n - min d.request n) (d.took (min d.request n))

end Demand

end TreeBytecode.Stream
