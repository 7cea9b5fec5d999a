import TreeBytecode.FileSystem
import TreeBytecode.Package.Options

namespace TreeBytecode.Package

open Wire

def artifactExtension : String := "kbc"

def tableExtension : String := "kst"

def sharedTableFile : String := "strings.kst"

def artifactFile (className : String) : String := className ++ "." ++ artifactExtension

def tableFile (scope : StringScope) (className : String) : String :=
  match scope with
  | .package => sharedTableFile
  | .class_ => className ++ "." ++ tableExtension

def isUsableName (className : String) : Bool :=
  className ≠ "" && className ≠ "." && className ≠ ".." &&
    className.toList.all fun c ↦ c ≠ '/' && c ≠ '\\'

def checkName (className : String) : Except Failure Unit :=
  if isUsableName className then .ok ()
  else .error (.unsupported (.unusableFileName className) .outside)

def className? (file : String) : Option String :=
  let stem := String.ofList (file.toList.take (file.length - (artifactFile "").length))
  if stem ≠ "" ∧ artifactFile stem = file then some stem else none

theorem className?_eq_some_iff {file className : String} :
    className? file = some className ↔ className ≠ "" ∧ artifactFile className = file := by
  rw [className?]
  constructor
  · intro h
    split at h
    · rename_i hs
      cases h
      exact hs
    · cases h
  · rintro ⟨hn, rfl⟩
    have hstem : String.ofList ((artifactFile className).toList.take
        ((artifactFile className).length - (artifactFile "").length)) = className := by
      have hl : (artifactFile className).length - (artifactFile "").length = className.length := by
        simp [artifactFile]
        omega
      rw [hl, artifactFile, String.append_assoc, String.toList_append, String.length]
      simp
    simp only [hstem, hn, ne_eq, not_false_eq_true, and_self, if_true]

def artifactPath (dir : Path) (className : String) : Path := dir ++ [artifactFile className]

def tablePath (dir : Path) (scope : StringScope) (className : String) : Path :=
  dir ++ [tableFile scope className]

/-- The text of a path in a directory: a name from the root on takes the place of the directory. -/
def joinText (dir name : String) : String :=
  if name.startsWith "/" || dir.isEmpty then name
  else if dir.endsWith "/" then dir ++ name
  else dir ++ "/" ++ name

end TreeBytecode.Package
