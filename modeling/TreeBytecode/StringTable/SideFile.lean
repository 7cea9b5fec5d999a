import TreeBytecode.Text.Utf8
import TreeBytecode.Wire.Encoder
import TreeBytecode.Wire.Plan

namespace TreeBytecode.StringTable

open Wire

def newline : Bytes := [0x0a]

def entryFields (s : String) : List Field :=
  [.count (Text.utf8 s).length, .raw (Text.utf8 s), .raw newline]

/-- The number of strings, then each string after its length, all followed by line feeds. -/
def fields (t : StringTable) : List Field :=
  .count t.words.length :: .raw newline :: t.words.flatMap entryFields

def write (t : StringTable) (sink : Sink) : Except Failure Nat × Sink :=
  match Encoder.putAll t.fields (.start sink .empty) with
  | (.ok _, e) => (.ok e.offset, e.sink)
  | (.error f, e) => (.error f, e.sink)

def newlinePlan : Plan Unit := .checked (.bytes newline.length) fun bytes ↦
  if bytes = newline then .ok () else .error .missingNewline

def textPlan : Plan String := .checked (do .bytes (← .length)) fun bytes ↦
  match Text.ofUtf8? bytes with
  | some s => .ok s
  | none => .error .invalidText

section Entries

variable {τ : Type} (add : τ → String → Except Defect τ)

def entryPlan (t : τ) : Plan τ :=
  .checked (do let s ← textPlan; newlinePlan; return s) (add t)

def entriesPlan : Nat → τ → Plan τ
  | 0, t => return t
  | n + 1, t => do entriesPlan n (← entryPlan add t)

def tablePlan (empty : τ) : Plan τ := do
  let count ← .length
  newlinePlan
  entriesPlan add count empty

end Entries

/-- A string that is read must not be there yet. -/
def Raw.add (t : Raw) (s : String) : Except Defect Raw :=
  if (t.id? s).isSome then .error (.duplicateEntry s) else .ok (t.intern s).2

def Raw.load : Step Cursor Raw := (tablePlan Raw.add .empty).runPlain

def add (t : StringTable) (s : String) : Except Defect StringTable :=
  if (t.id? s).isSome then .error (.duplicateEntry s) else .ok (t.intern s).2

def plan : Plan StringTable := tablePlan add .empty

def load : Step Cursor StringTable := plan.runPlain

theorem add_eq (t : StringTable) (s : String) :
    t.add s = if s ∈ t then .error (.duplicateEntry s) else .ok (t.insert s) := by
  simp only [add, isSome_id?_iff]
  rfl

end TreeBytecode.StringTable
