import TreeBytecode.Outline.Palette

namespace TreeBytecode

structure Outline where
  head : List Span
  entries : List Outline

namespace Outline

mutual

def lines (depth : Nat) : Outline → List (Nat × List Span)
  | ⟨head, entries⟩ => (depth, head) :: linesOfAll (depth + 1) entries

def linesOfAll (depth : Nat) : List Outline → List (Nat × List Span)
  | [] => []
  | o :: os => o.lines depth ++ linesOfAll depth os

end

def renderLine (p : Palette) (line : Nat × List Span) : String :=
  String.ofList (List.replicate (2 * line.1) ' ') ++ String.join (line.2.map p.paint) ++ "\n"

def render (p : Palette) (o : Outline) : String :=
  String.join ((o.lines 0).map (renderLine p))

end Outline

/-- A text in the middle of printing, and how far in its next line is. -/
structure Printer where
  out : String
  indent : Nat

namespace Printer

def start : Printer := ⟨"", 0⟩

def line (p : Palette) (head : List Span) (pr : Printer) : Printer :=
  { pr with out := pr.out ++ Outline.renderLine p (pr.indent, head) }

def nested (body : Printer → Printer) (pr : Printer) : Printer :=
  let inner := body { pr with indent := pr.indent + 1 }
  { inner with indent := inner.indent - 1 }

theorem indent_nested {body : Printer → Printer} (h : ∀ pr, (body pr).indent = pr.indent)
    (pr : Printer) : (pr.nested body).indent = pr.indent := by
  rw [nested, h, Nat.add_sub_cancel]

end Printer

namespace Outline

mutual

def print (p : Palette) : Outline → Printer → Printer
  | ⟨head, entries⟩, pr => (pr.line p head).nested (printAll p entries)

def printAll (p : Palette) : List Outline → Printer → Printer
  | [], pr => pr
  | o :: os, pr => printAll p os (o.print p pr)

end

mutual

theorem indent_print (p : Palette) : ∀ (o : Outline) (pr : Printer),
    (o.print p pr).indent = pr.indent
  | ⟨head, entries⟩, pr => by
    rw [print, Printer.indent_nested (indent_printAll p entries)]
    rfl

theorem indent_printAll (p : Palette) : ∀ (os : List Outline) (pr : Printer),
    (printAll p os pr).indent = pr.indent
  | [], pr => rfl
  | o :: os, pr => by rw [printAll, indent_printAll p os, indent_print p o]

end

mutual

/-- Each line goes as far in as the printer is when it comes to the line. -/
theorem out_print (p : Palette) : ∀ (o : Outline) (pr : Printer),
    (o.print p pr).out = pr.out ++ String.join ((o.lines pr.indent).map (renderLine p))
  | ⟨head, entries⟩, pr => by
    rw [lines, List.map_cons, String.join_cons, ← String.append_assoc]
    exact out_printAll p entries { (pr.line p head) with indent := pr.indent + 1 }

theorem out_printAll (p : Palette) : ∀ (os : List Outline) (pr : Printer),
    (printAll p os pr).out = pr.out ++ String.join ((linesOfAll pr.indent os).map (renderLine p))
  | [], pr => String.append_empty.symm
  | o :: os, pr => by
    rw [printAll, out_printAll p os, out_print p o, indent_print p o, linesOfAll, List.map_append,
      String.join_append, String.append_assoc]

end

theorem print_start (p : Palette) (o : Outline) : (o.print p .start).out = o.render p :=
  (out_print p o .start).trans String.empty_append

end Outline

end TreeBytecode
