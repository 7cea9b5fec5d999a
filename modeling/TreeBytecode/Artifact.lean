import TreeBytecode.Registry
import TreeBytecode.Stream.Compression

namespace TreeBytecode

open Wire

structure Header where
  magic : Bytes
  version : FormatVersion
deriving DecidableEq, Inhabited

namespace Header

def expectedMagic : Bytes := [0x4b, 0x42, 0x43, 0x00]

def size : Nat := 8

def ofVersion (v : FormatVersion) : Header := ⟨expectedMagic, v⟩

def isValid (h : Header) : Bool := h.magic == expectedMagic

def bytes (h : Header) : Bytes :=
  h.magic ++ word 2 h.version.major.toNat ++ word 2 h.version.minor.toNat

def parse (bs : Bytes) : Header where
  magic := bs.take 4
  version :=
    { major := UInt16.ofNat (ofBytes ((bs.drop 4).take 2))
      minor := UInt16.ofNat (ofBytes ((bs.drop 6).take 2)) }

def read : Step Cursor Header := fun c ↦
  match Cursor.readBytes size c with
  | (.ok bs, d) => if (parse bs).isValid then (.ok (parse bs), d) else (.error .invalidMagic, d)
  | (.error f, d) => (.error f, d)

end Header

namespace Artifact

def write (a : Adapter) (n : Node) (table : StringTable) (sink : Sink) :
    Except Failure Nat × Encoder :=
  match sink.accept (Header.ofVersion a.version).bytes with
  | (true, sink) =>
    match a.write n (.start sink table) with
    | (.ok count, e) => (.ok (Header.size + count), e)
    | (.error f, e) => (.error f, e)
  | (false, sink) => (.error (.device .full), .start sink table)

def read (r : Registry) (scope : Scope) (maxDepth : Nat) (e : Expectation) :
    Step Cursor e.Content := fun c ↦
  match Header.read c with
  | (.ok h, d) =>
    match r.get h.version with
    | .ok a => a.load scope maxDepth e (.start d.rest d.ending)
    | .error f => (.error f, d)
  | (.error f, d) => (.error f, d)

end Artifact

end TreeBytecode
