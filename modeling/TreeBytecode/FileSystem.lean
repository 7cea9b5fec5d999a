import TreeBytecode.Wire.Step
import TreeBytecode.Wire.Word

namespace TreeBytecode

open Wire

/-- The names on the way from the root, which has none. The way may stay in a place and turn
back, with one and two dots for a name. -/
abbrev Path := List String

namespace Path

def ofText (s : String) : Path := (s.splitOn "/").filter fun name ↦ name ≠ ""

def step (place : Path) (name : String) : Path :=
  if name = "." then place else if name = ".." then place.dropLast else place ++ [name]

def parent (p : Path) : Path := (p.filter fun name ↦ name ≠ ".").dropLast

def maxName : Nat := 255

def maxSize : Nat := 4096

def size : Path → Nat
  | [] => 0
  | name :: names => name.utf8ByteSize + 1 + size names

/-- What is wrong with a path in itself, wherever it might lead. -/
def flaw? (p : Path) : Option Fault :=
  if p.any (·.toList.contains '\x00') then some .unusablePath
  else if maxSize ≤ p.size then some .nameTooLong
  else none

end Path

inductive Entry
  | file (content : Bytes)
  | directory
deriving DecidableEq, Inhabited

structure Breakage where
  /-- How many bytes are taken before the fault; it comes with the last flush if there is no such
  bound. -/
  room : Option Nat
  fault : Fault
  /-- What the file is left with. -/
  left : Bytes
deriving DecidableEq, Inhabited

inductive Mishap
  /-- Nothing is created. -/
  | denied (fault : Fault)
  | broken (b : Breakage)
deriving DecidableEq, Inhabited

def Mishap.fault : Mishap → Fault
  | .denied fault => fault
  | .broken b => b.fault

structure FileSystem where
  /-- Of two entries of one path, the first counts. -/
  entries : List (Path × Entry)
  /-- What goes wrong with the changes to come, one after another, if anything does. -/
  ahead : List (Option Mishap)
deriving Inhabited

namespace FileSystem

def empty : FileSystem := ⟨[], []⟩

def find? (fs : FileSystem) (p : Path) : Option Entry :=
  if p = [] then some .directory else fs.entries.lookup p

def insert (fs : FileSystem) (p : Path) (e : Entry) : FileSystem :=
  { fs with entries := (p, e) :: fs.entries.filter fun entry ↦ entry.1 ≠ p }

/-- After one change, whatever became of it. -/
def advance (fs : FileSystem) : FileSystem := { fs with ahead := fs.ahead.tail }

def hindrance? : Option Entry → Option Fault
  | some .directory => none
  | some (.file _) => some .notDirectory
  | none => some .notFound

/-- Where names lead from a place: each place on the way, but not the last, is a directory. -/
def walk (fs : FileSystem) : (place : Path) → (names : Path) → Except Failure Path
  | place, [] => .ok place
  | place, name :: names =>
    match hindrance? (fs.find? place) with
    | some fault => .error (.device fault)
    | none =>
      if Path.maxName < name.utf8ByteSize then .error (.device .nameTooLong)
      else fs.walk (place.step name) names

def locate (fs : FileSystem) (p : Path) : Except Failure Path :=
  match p.flaw? with
  | some fault => .error (.device fault)
  | none => fs.walk [] p

def look (fs : FileSystem) (p : Path) : Except Failure (Option Entry) := fs.find? <$> fs.locate p

def isDirectory (fs : FileSystem) (p : Path) : Bool :=
  match fs.look p with
  | .ok (some .directory) => true
  | _ => false

def readFile (fs : FileSystem) (p : Path) : Except Failure Bytes :=
  match fs.look p with
  | .ok (some (.file content)) => .ok content
  | .ok (some .directory) => .error (.device .isDirectory)
  | .ok none => .error (.device .notFound)
  | .error f => .error f

def children (fs : FileSystem) (p : Path) : Except Failure (List (String × Entry)) := do
  let place ← fs.locate p
  match hindrance? (fs.find? place) with
  | none => return fs.entries.filterMap fun (q, e) ↦
      if q.dropLast = place then q.getLast?.map (·, e) else none
  | some fault => throw (.device fault)

def target (fs : FileSystem) (p : Path) : Except Failure Path := do
  let place ← fs.locate p
  match fs.find? place with
  | some .directory => throw (.device .isDirectory)
  | _ => return place

def breakage? (fs : FileSystem) : Except Failure (Option Breakage) :=
  match fs.ahead.head?.join with
  | none => .ok none
  | some (.broken b) => .ok (some b)
  | some (.denied fault) => .error (.device fault)

/-- Creates a file and fills it. What it holds then, and what that comes to, depends on what goes
wrong with it. -/
def writeFile {α : Type} (p : Path) (fill : Option Breakage → Except Failure α × Bytes) :
    Step FileSystem α := fun fs ↦
  match fs.breakage?, fs.target p with
  | .ok b?, .ok place => ((fill b?).1, fs.advance.insert place (.file (fill b?).2))
  | .error f, _ | _, .error f => (.error f, fs.advance)

def makeDir (p : Path) : Step FileSystem Unit := fun fs ↦
  match fs.ahead.head?.join, fs.locate p with
  | some m, _ => (.error (.device m.fault), fs.advance)
  | none, .ok place =>
    match fs.find? place with
    | none => (.ok (), fs.advance.insert place .directory)
    | some _ => (.error (.device .alreadyExists), fs.advance)
  | none, .error f => (.error f, fs.advance)

def ensureDir (p : Path) : Step FileSystem Unit := fun fs ↦
  match makeDir p fs with
  | (.error f, fs') => (if fs.isDirectory p then .ok () else .error f, fs')
  | made => made

/-- Makes a directory, and those before it on its path if something is missing there; each of them
takes some of the `fuel`. -/
def makeDirsFrom : (fuel : Nat) → Path → Step FileSystem Unit
  | 0, p => ensureDir p
  | fuel + 1, p => fun fs ↦
    match ensureDir p fs with
    | (.error (.device .notFound), fs) => (makeDirsFrom fuel p.parent >>= fun _ ↦ ensureDir p) fs
    | made => made

def makeDirs (p : Path) : Step FileSystem Unit := makeDirsFrom p.length p

theorem lookup_filter_ne {p q : Path} (h : q ≠ p) (entries : List (Path × Entry)) :
    (entries.filter fun e ↦ e.1 ≠ p).lookup q = entries.lookup q := by
  induction entries with
  | nil => rfl
  | cons e entries ih =>
    obtain ⟨r, e⟩ := e
    by_cases hr : r = p
    · subst hr
      rw [List.filter_cons_of_neg (by simp), ih, List.lookup_cons, beq_false_of_ne h]
    · rw [List.filter_cons_of_pos (by simpa using hr), List.lookup_cons, List.lookup_cons, ih]

theorem find?_insert_self (fs : FileSystem) {p : Path} (h : p ≠ []) (e : Entry) :
    (fs.insert p e).find? p = some e := by
  simp [find?, insert, h]

theorem find?_insert_of_ne (fs : FileSystem) {p q : Path} (h : q ≠ p) (e : Entry) :
    (fs.insert p e).find? q = fs.find? q := by
  rw [find?, find?, insert, List.lookup_cons, beq_false_of_ne h]
  exact ite_congr rfl (fun _ ↦ rfl) fun _ ↦ lookup_filter_ne h _

section Cases

variable {α : Type} (p : Path) (fs : FileSystem)

theorem writeFile_cases (fill : Option Breakage → Except Failure α × Bytes) :
    (∃ f, writeFile p fill fs = (.error f, fs.advance)) ∨
    ∃ b? place, fs.locate p = .ok place ∧ fs.find? place ≠ some .directory ∧
      writeFile p fill fs = ((fill b?).1, fs.advance.insert place (.file (fill b?).2)) := by
  rw [writeFile]
  split
  · next b? place _ ht =>
    right
    rw [target] at ht
    rcases hl : fs.locate p with f | q
    · rw [hl] at ht
      cases ht
    · simp only [hl, bind, Except.bind] at ht
      split at ht
      · cases ht
      · next hd =>
        obtain rfl := Except.ok.inj ht
        exact ⟨b?, q, rfl, hd, rfl⟩
  · exact .inl ⟨_, rfl⟩
  · exact .inl ⟨_, rfl⟩

theorem makeDir_cases : (∃ f, makeDir p fs = (.error f, fs.advance)) ∨
    ∃ place, fs.locate p = .ok place ∧ fs.find? place = none ∧
      makeDir p fs = (.ok (), fs.advance.insert place .directory) := by
  rw [makeDir]
  split
  · exact .inl ⟨_, rfl⟩
  · next place _ hl =>
    split
    · next hn => exact .inr ⟨place, hl, hn, rfl⟩
    · exact .inl ⟨_, rfl⟩
  · exact .inl ⟨_, rfl⟩

end Cases

end FileSystem

end TreeBytecode
