import Mathlib.Data.List.Forall2
import TreeBytecode.Proofs.Captions

namespace TreeBytecode

open Text

def Part.line (e : Nat × Part) : List Char := List.replicate (2 * e.1) ' ' ++ e.2.caption.toList

theorem Part.not_mem_line {e : Nat × Part} (h : ∀ s ∈ e.2.names, '\n' ∉ s.toList) :
    '\n' ∉ line e := by
  have hcaption : '\n' ∉ e.2.caption.toList := not_mem_caption (by decide) h
  intro hmem
  obtain hspace | hmem := List.mem_append.1 hmem
  · exact absurd (List.eq_of_mem_replicate hspace) (by decide)
  · exact hcaption hmem

theorem Node.toList_dump_off (n : Node) :
    (n.dump .off).toList = (n.walk.map Part.line).flatMap (· ++ ['\n']) := by
  rw [toList_dump, List.flatMap_map]
  refine List.flatMap_congr fun e _ ↦ ?_
  have hpaint : e.2.outline.head.map Palette.off.paint = e.2.outline.head.map Span.text :=
    List.map_congr_left fun s _ ↦ Palette.paint_off s
  rw [Outline.renderLine, hpaint, ← Span.join, Part.join_head, String.toList_append,
    String.toList_append, String.toList_ofList]
  rfl

/-- If no line feed is in a name, then what is shown without colours is one line for each part of
the node, ended by a line feed, with two spaces for each level in front of the caption. -/
theorem Node.shown_line_by_line (n : Node)
    (h : ∀ e ∈ n.walk, ∀ s ∈ e.2.names, '\n' ∉ s.toList) :
    ∃ lines, (n.dump .off).toList.splitOn '\n' = lines ++ [[]] ∧
      List.Forall₂ (fun line e ↦ (line.takeWhile (· = ' ')).length = 2 * e.1 ∧
        line.dropWhile (· = ' ') = e.2.caption.toList) lines n.walk := by
  refine ⟨n.walk.map Part.line, ?_, ?_⟩
  · rw [toList_dump_off]
    exact splitOn_lines (List.forall_mem_map.2 fun e he ↦ Part.not_mem_line (h e he))
  · rw [List.forall₂_map_left_iff, List.forall₂_same]
    intro e _
    have hflush := e.2.flush_caption
    constructor
    · rw [Part.line, takeWhile_indented hflush, List.length_replicate]
    · exact dropWhile_indented hflush _

theorem Node.shown_line_by_line_getter :
    let s : Statement := { (default : Statement) with arg := "a\nb" }
    let p : Property := { (default : Property) with name := "x", getter := some [s] }
    let parts := [(0, .root (.property p)), (1, .block .getter [s]), (2, .statement .item s)]
    ∃ lines, ((Node.property p).dump .off).toList.splitOn '\n' = lines ++ [[]] ∧
      List.Forall₂ (fun line (e : Nat × Part) ↦ (line.takeWhile (· = ' ')).length = 2 * e.1 ∧
        line.dropWhile (· = ' ') = e.2.caption.toList) lines parts := by
  intro s p parts
  have hproperty : (Part.root (.property p)).below = [.block .getter [s]] := rfl
  have hgetter : (Part.block .getter [s]).below = [.statement .item s] := rfl
  have hstatement : (Part.statement .item s).below = [] := rfl
  have hwalk : (Node.property p).walk = parts := by
    simp [walk, Part.walk_eq, hproperty, hgetter, hstatement, parts]
  rw [← hwalk]
  apply shown_line_by_line
  rw [hwalk]
  decide

end TreeBytecode
