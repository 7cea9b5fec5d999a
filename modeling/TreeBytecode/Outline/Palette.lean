namespace TreeBytecode

inductive Style
  | plain
  /-- Names of members and types. -/
  | name
  /-- Arguments and literal values. -/
  | literal
  /-- Keywords, headings and positions. -/
  | structural
deriving DecidableEq, Inhabited

structure Span where
  style : Style
  text : String
deriving DecidableEq, Inhabited

/-- The code before a text of each style but the plain one, and the code after it. -/
structure Palette where
  name : String
  literal : String
  structural : String
  reset : String
deriving DecidableEq, Inhabited

namespace Palette

def off : Palette := ⟨"", "", "", ""⟩

def on : Palette := ⟨"\x1b[34m", "\x1b[32m", "\x1b[2m", "\x1b[0m"⟩

def paint (p : Palette) (s : Span) : String :=
  match s.style with
  | .plain => s.text
  | .name => p.name ++ s.text ++ p.reset
  | .literal => p.literal ++ s.text ++ p.reset
  | .structural => p.structural ++ s.text ++ p.reset

theorem paint_off (s : Span) : off.paint s = s.text := by
  obtain ⟨style, text⟩ := s
  cases style <;> simp [paint, off]

end Palette

end TreeBytecode
