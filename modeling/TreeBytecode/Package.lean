import TreeBytecode.Artifact
import TreeBytecode.Package.FileName
import TreeBytecode.StringTable.SideFile

namespace TreeBytecode.Package

open Wire

variable (z : Stream.Codec)

/-- What a file holds after something was written to it, and what that comes to. A writer that
breaks tells of the fault, unless it found something wrong with what it writes before that. -/
def outcome {α : Type} (c : Compression) (encode : Sink → Except Failure α × Bytes) :
    Option Breakage → Except Failure α × Bytes
  | none =>
    match encode (.empty none) with
    | (.ok a, written) => (.ok a, c.pack z written)
    | (.error f, written) => (.error f, c.unfinished z written)
  | some b =>
    match (encode (.empty b.room)).1 with
    | .ok _ | .error (.device _) => (.error (.device b.fault), b.left)
    | .error f => (.error f, b.left)

/-- The file stays even if its content could not be finished. -/
def writeWith {α : Type} (c : Compression) (p : Path)
    (encode : Sink → Except Failure α × Bytes) : Step FileSystem α :=
  FileSystem.writeFile p (outcome z c encode)

def writeTable (c : Compression) (p : Path) (t : StringTable) : Step FileSystem Unit :=
  writeWith z c p fun sink ↦
    let (r, sink) := t.write sink
    (r.map fun _ ↦ (), sink.bytes)

def writeClass (a : Adapter) (o : PackageOptions) (dir : Path) (table : StringTable) (c : Class) :
    Step FileSystem StringTable :=
  writeWith z o.compression (artifactPath dir c.name) fun sink ↦
    let (r, e) := Artifact.write a (.classDef c) table sink
    (r.map fun _ ↦ e.table, e.sink.bytes)

def writeShared (a : Adapter) (o : PackageOptions) (dir : Path) (cs : List Class) :
    Step FileSystem Unit := do
  let table ← cs.foldlM (writeClass z a o dir) .empty
  writeTable z o.compression (dir ++ [sharedTableFile]) table

def writeSeparate (a : Adapter) (o : PackageOptions) (dir : Path) (cs : List Class) :
    Step FileSystem Unit :=
  cs.forM fun c ↦ do
    let table ← writeClass z a o dir .empty c
    writeTable z o.compression (tablePath dir .class_ c.name) table

/-- Writes a package. Nothing is touched before all names are known to be usable and the version
to be supported. -/
def write (dir : Path) (cs : List Class) (r : Registry) (o : PackageOptions) :
    Step FileSystem Unit := do
  cs.forM fun c ↦ Step.ofExcept (checkName c.name)
  let a ← Step.ofExcept (r.get o.version)
  FileSystem.makeDirs dir
  match o.scope with
  | .package => writeShared z a o dir cs
  | .class_ => writeSeparate z a o dir cs

variable (fs : FileSystem)

def openFile (c : Compression) (p : Path) : Except Failure Cursor :=
  return c.open_ z (← fs.readFile p) none

def readTable (c : Compression) (p : Path) : Except Failure StringTable := do
  StringTable.load.result (← openFile z fs c p)

def readClass (dir : Path) (r : Registry) (types : TypeResolver) (o : PackageOptions)
    (table : StringTable) (name : String) : Except Failure Class := do
  let c ← openFile z fs o.compression (artifactPath dir name)
  (Artifact.read r ⟨table, types⟩ o.maxDepth (.only .classDef)).result c

def load (dir : Path) (names : List String) (r : Registry) (types : TypeResolver)
    (o : PackageOptions) : Except Failure (List Class) :=
  match o.scope with
  | .package => do
    let table ← readTable z fs o.compression (dir ++ [sharedTableFile])
    names.mapM fun name ↦ do
      checkName name
      readClass z fs dir r types o table name
  | .class_ =>
    names.mapM fun name ↦ do
      checkName name
      let table ← readTable z fs o.compression (tablePath dir .class_ name)
      readClass z fs dir r types o table name

def classNames (dir : Path) : Except Failure (List String) :=
  return ((← fs.children dir).filterMap fun e ↦ className? e.1).mergeSort

end TreeBytecode.Package
