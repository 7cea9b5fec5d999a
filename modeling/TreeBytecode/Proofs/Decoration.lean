import TreeBytecode.Proofs.Captions

namespace TreeBytecode

namespace Text

/-- Leaves out the occurrences of the codes, after as many characters as are to be skipped. -/
def eraseFrom (codes : List (List Char)) : Nat → List Char → List Char
  | _, [] => []
  | skip + 1, _ :: cs => eraseFrom codes skip cs
  | 0, c :: cs =>
    match codes.find? (·.isPrefixOf (c :: cs)) with
    | some code => eraseFrom codes (code.length - 1) cs
    | none => c :: eraseFrom codes 0 cs

def erase (codes : List (List Char)) (cs : List Char) : List Char := eraseFrom codes 0 cs

end Text

open Text

namespace Palette

def openings (p : Palette) : List (List Char) := [p.name, p.literal, p.structural].map String.toList

def codes (p : Palette) : List (List Char) := p.openings ++ [p.reset.toList]

theorem exists_tail_of_mem_codes {code : List Char} (h : code ∈ on.codes) :
    ∃ tail, code = '\x1b' :: tail ∧ '\x1b' ∉ tail := by
  have hall : ∀ c ∈ on.codes, c.head? = some '\x1b' ∧ '\x1b' ∉ c.tail := by decide
  obtain ⟨hhead, htail⟩ := hall code h
  exact ⟨code.tail, (List.cons_head?_tail hhead).symm, htail⟩

theorem eq_of_prefix_of_codes {code code' : List Char} (h : code ∈ on.codes)
    (h' : code' ∈ on.codes) (hp : code <+: code') : code = code' := by
  have hall : ∀ c ∈ on.codes, ∀ c' ∈ on.codes, c <+: c' → c = c' := by decide
  exact hall code h code' h' hp

theorem append_inj_of_mem_codes {code code' x y : List Char} (h : code ∈ on.codes)
    (h' : code' ∈ on.codes) (he : code ++ x = code' ++ y) : code = code' ∧ x = y := by
  have hcode : code = code' := by
    obtain hp | hp := List.prefix_or_prefix_of_prefix (List.prefix_append code x)
      (he ▸ List.prefix_append code' y)
    · exact eq_of_prefix_of_codes h h' hp
    · exact (eq_of_prefix_of_codes h' h hp).symm
  subst hcode
  exact ⟨rfl, List.append_cancel_left he⟩

theorem exists_of_text_append {text before : List Char} {code x y : List Char}
    (ht : '\x1b' ∉ text) (h : code ∈ on.codes) (he : text ++ x = before ++ (code ++ y)) :
    ∃ before', x = before' ++ (code ++ y) := by
  obtain ⟨tail, rfl, -⟩ := exists_tail_of_mem_codes h
  obtain ⟨before', -, hx⟩ | ⟨text', htext, hx⟩ := List.append_eq_append_iff.1 he
  · exact ⟨before', hx⟩
  · cases text' with
    | nil => exact ⟨[], hx.symm⟩
    | cons c text' =>
      obtain ⟨rfl, -⟩ := List.cons.inj hx
      exact absurd (htext ▸ List.mem_append_right _ List.mem_cons_self) ht

/-- Two codes in a text are at the same place, or one is behind the other. -/
theorem exists_of_code_append {code code' before x y : List Char} (h : code ∈ on.codes)
    (h' : code' ∈ on.codes) (he : code ++ x = before ++ (code' ++ y)) :
    (code = code' ∧ x = y) ∨ ∃ before', x = before' ++ (code' ++ y) := by
  cases before with
  | nil => exact .inl (append_inj_of_mem_codes h h' he)
  | cons c before =>
    obtain ⟨tail, rfl, htail⟩ := exists_tail_of_mem_codes h
    obtain ⟨-, hrest⟩ := List.cons.inj he
    exact .inr (exists_of_text_append htail h' hrest)

theorem erase_text_append {text : List Char} (h : '\x1b' ∉ text) (x : List Char) :
    erase on.codes (text ++ x) = text ++ erase on.codes x := by
  induction text with
  | nil => rfl
  | cons c text ih =>
    obtain ⟨hc, htext⟩ := List.ne_and_not_mem_of_not_mem_cons h
    have hnone : on.codes.find? (·.isPrefixOf (c :: (text ++ x))) = none := by
      refine List.find?_eq_none.2 fun code hcode hp ↦ ?_
      obtain ⟨tail, rfl, -⟩ := exists_tail_of_mem_codes hcode
      obtain ⟨rest, hrest⟩ := List.isPrefixOf_iff_prefix.1 hp
      exact hc (List.cons.inj hrest).1
    rw [List.cons_append, erase, eraseFrom, hnone, List.cons_append]
    exact congrArg _ (ih htext)

theorem erase_code_append {code : List Char} (h : code ∈ on.codes) (x : List Char) :
    erase on.codes (code ++ x) = erase on.codes x := by
  have hfour : code = on.name.toList ∨ code = on.literal.toList ∨ code = on.structural.toList ∨
      code = on.reset.toList := by
    simpa [codes, openings, or_assoc] using h
  obtain rfl | rfl | rfl | rfl := hfour <;> rfl

/-- A painted span is its text as it is, or its text between the code of a colour and the reset. -/
theorem paint_on (s : Span) : (s.style = .plain ∧ (on.paint s).toList = s.text.toList) ∨
    s.style ≠ .plain ∧ ∃ o ∈ on.openings,
      (on.paint s).toList = o ++ (s.text.toList ++ on.reset.toList) := by
  have hopen {t : String} (ht : t ∈ [on.name, on.literal, on.structural]) :
      t.toList ∈ on.openings := List.mem_map_of_mem ht
  obtain ⟨style, text⟩ := s
  cases style with
  | plain => exact .inl ⟨rfl, rfl⟩
  | name => exact .inr ⟨by simp, on.name.toList, hopen (by simp), by simp [paint]⟩
  | literal => exact .inr ⟨by simp, on.literal.toList, hopen (by simp), by simp [paint]⟩
  | structural => exact .inr ⟨by simp, on.structural.toList, hopen (by simp), by simp [paint]⟩

theorem mem_codes_of_mem_openings {o : List Char} (h : o ∈ on.openings) : o ∈ on.codes :=
  List.mem_append_left _ h

theorem reset_mem_codes : on.reset.toList ∈ on.codes :=
  List.mem_append_right _ (List.mem_singleton_self _)

section Spans

variable {spans : List Span} (h : ∀ s ∈ spans, '\x1b' ∉ s.text.toList)

include h

theorem erase_paint : erase on.codes (spans.flatMap fun s ↦ (on.paint s).toList) =
    spans.flatMap fun s ↦ s.text.toList := by
  induction spans with
  | nil => rfl
  | cons s spans ih =>
    obtain ⟨htext, hspans⟩ := List.forall_mem_cons.1 h
    rw [List.flatMap_cons, List.flatMap_cons]
    obtain ⟨-, hpaint⟩ | ⟨-, o, ho, hpaint⟩ := paint_on s
    · rw [hpaint, erase_text_append htext, ih hspans]
    · rw [hpaint, List.append_assoc, erase_code_append (mem_codes_of_mem_openings ho),
        List.append_assoc, erase_text_append htext, erase_code_append reset_mem_codes, ih hspans]

/-- Behind the code of a colour there is the text of a span, then the reset. -/
theorem exists_of_opening {before o after : List Char} (ho : o ∈ on.openings)
    (he : (spans.flatMap fun s ↦ (on.paint s).toList) = before ++ (o ++ after)) :
    ∃ s ∈ spans, s.style ≠ .plain ∧
      ∃ rest, after = s.text.toList ++ (on.reset.toList ++ rest) := by
  have hcode := mem_codes_of_mem_openings ho
  induction spans generalizing before with
  | nil =>
    obtain ⟨tail, rfl, -⟩ := exists_tail_of_mem_codes hcode
    simp at he
  | cons s spans ih =>
    obtain ⟨htext, hspans⟩ := List.forall_mem_cons.1 h
    -- An occurrence behind this span is one in those that follow it.
    have hbehind {before' : List Char}
        (he' : (spans.flatMap fun s ↦ (on.paint s).toList) = before' ++ (o ++ after)) :
        ∃ s' ∈ s :: spans, s'.style ≠ .plain ∧
          ∃ rest, after = s'.text.toList ++ (on.reset.toList ++ rest) := by
      obtain ⟨s', hs', hafter⟩ := ih hspans he'
      exact ⟨s', List.mem_cons_of_mem _ hs', hafter⟩
    rw [List.flatMap_cons] at he
    obtain ⟨-, hpaint⟩ | ⟨hstyle, o', ho', hpaint⟩ := paint_on s
    · rw [hpaint] at he
      obtain ⟨before', he'⟩ := exists_of_text_append htext hcode he
      exact hbehind he'
    · rw [hpaint, List.append_assoc, List.append_assoc] at he
      obtain ⟨-, hafter⟩ | ⟨before', he'⟩ :=
        exists_of_code_append (mem_codes_of_mem_openings ho') hcode he
      · exact ⟨s, List.mem_cons_self, hstyle, _, hafter.symm⟩
      · obtain ⟨before'', he''⟩ := exists_of_text_append htext hcode he'
        obtain ⟨hreset, -⟩ | ⟨before₃, he₃⟩ := exists_of_code_append reset_mem_codes hcode he''
        · have hclosed : on.reset.toList ∉ on.openings := by decide
          exact absurd (hreset ▸ ho) hclosed
        · exact hbehind he₃

end Spans

end Palette

def Part.spans (e : Nat × Part) : List Span :=
  .plain (String.ofList (List.replicate (2 * e.1) ' ')) :: e.2.outline.head ++ [.plain "\n"]

namespace Node

def spans (n : Node) : List Span := n.walk.flatMap Part.spans

theorem toList_dump_eq_flatMap_spans (n : Node) (p : Palette) :
    (n.dump p).toList = n.spans.flatMap fun s ↦ (p.paint s).toList := by
  rw [toList_dump, spans, List.flatMap_assoc]
  refine List.flatMap_congr fun e _ ↦ ?_
  simp [Outline.renderLine, Part.spans, String.toList_join, List.flatMap_map, Palette.paint,
    Span.plain]

theorem mem_spans {n : Node} {s : Span} (h : s ∈ n.spans) :
    (s.style = .plain ∧ All (· ∈ [' ', '\n']) s.text) ∨
      ∃ e ∈ n.walk, s ∈ e.2.outline.head := by
  obtain ⟨e, he, hs⟩ := List.mem_flatMap.1 h
  rw [Part.spans, List.mem_append, List.mem_cons, List.mem_singleton] at hs
  obtain (rfl | hs) | rfl := hs
  · refine .inl ⟨rfl, fun c hc ↦ ?_⟩
    rw [Span.text_plain, String.toList_ofList] at hc
    rw [List.eq_of_mem_replicate hc]
    decide
  · exact .inr ⟨e, he, hs⟩
  · exact .inl ⟨rfl, by decide⟩

/-- If no escape character is in a name, then what is shown in colours is, without their codes, what
is shown without colours. Each colour that begins is reset before another one begins, and on the
same line if no line feed is in a name. -/
theorem decorated (n : Node) (h : ∀ e ∈ n.walk, ∀ s ∈ e.2.names, '\x1b' ∉ s.toList) :
    erase Palette.on.codes (n.dump .on).toList = (n.dump .off).toList ∧
    ∀ before after : List Char, ∀ o ∈ Palette.on.openings,
      (n.dump .on).toList = before ++ o ++ after →
      ∃ body rest, after = body ++ Palette.on.reset.toList ++ rest ∧ '\x1b' ∉ body ∧
        ((∀ e ∈ n.walk, ∀ s ∈ e.2.names, '\n' ∉ s.toList) → '\n' ∉ body) := by
  have hspans : ∀ s ∈ n.spans, '\x1b' ∉ s.text.toList := by
    intro s hs hmem
    obtain ⟨-, hblank⟩ | ⟨e, he, hhead⟩ := mem_spans hs
    · exact absurd (hblank _ hmem) (by decide)
    · exact Part.not_mem_head (by decide) (h e he) s hhead hmem
  constructor
  · rw [toList_dump_eq_flatMap_spans, toList_dump_eq_flatMap_spans, Palette.erase_paint hspans]
    exact List.flatMap_congr fun s _ ↦ by rw [Palette.paint_off]
  · intro before after o ho he
    rw [toList_dump_eq_flatMap_spans, List.append_assoc] at he
    obtain ⟨s, hs, hstyle, rest, hafter⟩ := Palette.exists_of_opening hspans ho he
    refine ⟨s.text.toList, rest, ?_, hspans s hs, fun hfeeds ↦ ?_⟩
    · rw [hafter, List.append_assoc]
    · obtain ⟨hplain, -⟩ | ⟨e, he, hhead⟩ := mem_spans hs
      · exact absurd hplain hstyle
      · exact Part.not_mem_head (by decide) (hfeeds e he) s hhead

/-- A statement with a code and a line feed in its argument, where they are escaped. -/
theorem decorated_statement :
    let s : Statement := { (default : Statement) with target := ⟨"T", 0⟩, arg := "\x1b[34m\n" }
    let before := "\x1b[2m\x1b[0mUndefined/0x00000000 -> \x1b[34mT\x1b[0m ".toList
    let after := "\"\\u\x7b1b\x7d[34m\\n\"\x1b[0m\n".toList
    erase Palette.on.codes ((statement s).dump .on).toList = ((statement s).dump .off).toList ∧
      ((statement s).dump .on).toList = before ++ Palette.on.literal.toList ++ after ∧
      ∃ body rest, after = body ++ Palette.on.reset.toList ++ rest ∧ '\x1b' ∉ body ∧
        '\n' ∉ body := by
  intro s before after
  have hwalk : (statement s).walk = [(0, .root (.statement s))] := by
    have hbelow : (Part.root (.statement s)).below = [] := rfl
    rw [walk, Part.walk_eq, hbelow, List.flatMap_nil]
  have hnames {x : Char} (hx : x ≠ 'T') : ∀ e ∈ (statement s).walk, ∀ t ∈ e.2.names,
      x ∉ t.toList := by
    simpa [hwalk, Part.names, names, s] using hx
  have hdump : ((statement s).dump .on).toList =
      before ++ Palette.on.literal.toList ++ after := by decide +kernel
  obtain ⟨herase, hclosed⟩ := (statement s).decorated (hnames (by decide))
  obtain ⟨body, rest, hafter, hescape, hfeed⟩ := hclosed before after _ (by decide) hdump
  exact ⟨herase, hdump, body, rest, hafter, hescape, hfeed (hnames (by decide))⟩

end Node

end TreeBytecode
