import TreeBytecode.Proofs.Parts
import TreeBytecode.Proofs.TextLines

namespace TreeBytecode

open Text

def Span.join (spans : List Span) : String := String.join (spans.map Span.text)

def worded (keyword text : String) : String := keyword ++ " " ++ text

def Parameter.caption (p : Parameter) : String := p.type.name ++ " " ++ p.name

def argumentCaption (arg : String) : String := if arg.isEmpty then "" else " " ++ Text.quote arg

def Statement.caption (s : Statement) : String :=
  s.kind.label ++ "/" ++ s.code.label ++ " -> " ++ s.target.name ++ argumentCaption s.arg

def Component.caption (c : Component) : String :=
  c.kind.label ++ "/" ++ c.code.label ++ " " ++ c.context.name ++
    (if c.raw = 0 then "" else " " ++ "raw=" ++ Text.hex 0 c.raw.toNat) ++ argumentCaption c.arg ++
    (if c.args.isEmpty then "" else " (" ++ ", ".intercalate (c.args.map Text.quote) ++ ")") ++
    (if c.position = .origin then "" else " " ++ c.position.label)

def Method.caption (m : Method) : String :=
  worded (if m.isConstructor then "constructor" else "method")
    (m.modifiers.lead ++ m.name ++ "(" ++ ", ".intercalate (m.parameters.map Parameter.caption) ++
      ") -> " ++ m.returnType.name ++ " " ++ m.position.label)

def Property.caption (p : Property) : String :=
  worded "property" (p.modifiers.lead ++ p.name ++ ": " ++ p.returnType.name ++ " \x7b" ++
    " ".intercalate p.capabilities ++ "\x7d " ++ p.position.label)

def Class.caption (c : Class) : String := worded c.kind.keyword (c.modifiers.lead ++ c.name)

def Node.caption : Node → String
  | .byte v => worded "byte" v.toNat.repr
  | .int32 v => worded "int32" v.toInt.repr
  | .uint32 v => worded "uint32" v.toNat.repr
  | .uint64 v => worded "uint64" v.toNat.repr
  | .string s => worded "string" (Text.quote s)
  | .classDef c => c.caption
  | .method m => m.caption
  | .parameter p => worded "parameter" p.caption
  | .property p => p.caption
  | .position p => worded "position" p.label
  | .codeBlock _ => "block"
  | .statement s => s.caption
  | .component c => c.caption

def Part.caption : Part → String
  | .root n => n.caption
  | .importing s => worded "import" s
  | .typeParameter s => worded "type-param" s
  | .superclass t => worded "extends" t.name
  | .interface t => worded "implements" t.name
  | .member m => m.toNode.caption
  | .statement role s => role.label ++ s.caption
  | .component role c => role.label ++ c.caption
  | .block heading _ => heading.label

def Node.names : Node → List String
  | .classDef c => [c.name]
  | .method m => m.name :: m.returnType.name :: m.parameters.flatMap fun p ↦ [p.type.name, p.name]
  | .parameter p => [p.type.name, p.name]
  | .property p => [p.name, p.returnType.name]
  | .statement s => [s.target.name]
  | .byte _ | .int32 _ | .uint32 _ | .uint64 _ | .string _ | .position _ | .codeBlock _
  | .component _ => []

def Part.names : Part → List String
  | .importing s | .typeParameter s => [s]
  | .superclass t | .interface t => [t.name]
  | .block _ _ => []
  | .root n => n.names
  | .member m => m.toNode.names
  | .statement _ s => (Node.statement s).names
  | .component _ c => (Node.component c).names

namespace Span

@[simp] theorem text_plain (t : String) : (plain t).text = t := rfl

@[simp] theorem text_name (t : String) : (name t).text = t := rfl

@[simp] theorem text_literal (t : String) : (literal t).text = t := rfl

@[simp] theorem text_structural (t : String) : (structural t).text = t := rfl

@[simp] theorem join_nil : join [] = "" := rfl

@[simp] theorem join_cons (s : Span) (ss : List Span) : join (s :: ss) = s.text ++ join ss := by
  rw [join, List.map_cons, String.join_cons, join]

@[simp] theorem join_append (ss ts : List Span) : join (ss ++ ts) = join ss ++ join ts := by
  rw [join, List.map_append, String.join_append, join, join]

theorem join_intercalate (s : Span) (rows : List (List Span)) :
    join ([s].intercalate rows) = s.text.intercalate (rows.map join) := by
  induction rows with
  | nil => rfl
  | cons row rows ih =>
    cases rows with
    | nil => simp
    | cons row' rows =>
      rw [List.intercalate_cons_cons, join_append, join_append, ih]
      simp [join]

end Span

@[simp] theorem join_argumentSpans (arg : String) :
    Span.join (argumentSpans arg) = argumentCaption arg := by
  rw [argumentSpans, argumentCaption]
  split
  · rfl
  · simp

theorem Parameter.join_spans (p : Parameter) : Span.join p.spans = p.caption := by
  simp [spans, caption, String.append_assoc]

theorem Statement.join_head (label : String) (s : Statement) :
    Span.join (s.outline label).head = label ++ s.caption := by
  obtain ⟨kind, code, arg, target, components, finallyBlock⟩ := s
  simp [outline, caption, String.append_assoc]

theorem Component.join_head (label : String) (c : Component) :
    Span.join (c.outline label).head = label ++ c.caption := by
  obtain ⟨kind, code, context, raw, arg, args, place, s₁, s₂, c₁, c₂, c₃, block⟩ := c
  simp [outline, caption, String.append_assoc, apply_ite Span.join, -String.reduceAppend]

theorem Method.join_head (m : Method) : Span.join m.outline.head = m.caption := by
  have hparameters : m.parameters.map (fun p ↦ Span.join p.spans) =
      m.parameters.map Parameter.caption := List.map_congr_left fun p _ ↦ p.join_spans
  cases hm : m.isConstructor <;>
    simp [outline, caption, hm, Span.join_intercalate, hparameters, Function.comp_def,
      String.append_assoc, worded, -String.reduceAppend]

theorem Node.join_head (n : Node) : Span.join n.outline.head = n.caption := by
  cases n with
  | classDef c =>
    obtain ⟨kind, modifiers, name, imports, supers, interfaces, members, parameters, index⟩ := c
    simp [outline, Class.outline, caption, Class.caption, String.append_assoc, worded,
      -String.reduceAppend]
  | method m => exact m.join_head
  | parameter p =>
    simp [outline, Outline.leaf, caption, p.join_spans, String.append_assoc, worded,
      -String.reduceAppend]
  | property p =>
    simp [outline, Property.outline, caption, Property.caption, String.append_assoc, worded,
      -String.reduceAppend]
  | statement s => exact (s.join_head "").trans (String.empty_append)
  | component c => exact (c.join_head "").trans (String.empty_append)
  | _ =>
    simp [outline, Outline.leaf, literalOutline, caption, worded, String.append_assoc,
      -String.reduceAppend]

theorem Part.join_head (p : Part) : Span.join p.outline.head = p.caption := by
  cases p with
  | root n => exact n.join_head
  | member m =>
    rw [caption, ← m.toNode.join_head]
    cases m <;> rfl
  | statement role s => exact s.join_head role.label
  | component role c => exact c.join_head role.label
  | _ => simp [outline, Outline.leaf, caption, worded, String.append_assoc, -String.reduceAppend]

theorem Vocabulary.forall_label {Q : String → Prop} {v : Vocabulary} (h : ∀ e ∈ v.names, Q e.2)
    (hhex : ∀ n, Q (Text.hex 8 n)) (bits : UInt32) : Q (v.label bits) := by
  rw [label]
  cases hname : v.name? bits with
  | none => exact hhex _
  | some name =>
    obtain ⟨before, after, heq, -⟩ := List.lookup_eq_some_iff.1 hname
    exact h (bits, name) (by simp [heq])

theorem StatementKind.clean_label (k : StatementKind) : Clean k.label :=
  Vocabulary.forall_label (by decide) (clean_hex 8) k.bits

theorem BytecodeKind.clean_label (k : BytecodeKind) : Clean k.label :=
  Vocabulary.forall_label (by decide) (clean_hex 8) k.bits

theorem StatementKind.flush_label (k : StatementKind) : Flush k.label :=
  Vocabulary.forall_label (by decide) (fun _ ↦ Flush.append (by decide) _) k.bits

theorem Modifiers.clean_lead (m : Modifiers) : Clean m.lead := by
  have hnamed : ∀ e ∈ named, Clean e.2 := by decide
  rw [lead]
  split
  · decide
  · refine (all_intercalate (by decide) fun s hs ↦ ?_).append (by decide)
    obtain ⟨e, he, rfl⟩ := List.mem_map.1 hs
    exact hnamed e (List.mem_filter.1 he).1

theorem Position.clean_label (p : Position) : Clean p.label := by
  simp only [label, all_append, and_assoc]
  exact ⟨by decide, clean_intRepr _, by decide, clean_intRepr _⟩

theorem Property.clean_capabilities (p : Property) : ∀ s ∈ p.capabilities, Clean s := by
  have hwords : ∀ s ∈ ["get", "set", "init"], Clean s := by decide
  intro s hs
  obtain ⟨⟨on, word⟩, he, hword⟩ := List.mem_filterMap.1 hs
  obtain ⟨-, rfl⟩ := Option.ite_some_none_eq_some.1 hword
  exact hwords _ (List.mem_map_of_mem (f := Prod.snd) he)

theorem clean_argumentCaption (arg : String) : Clean (argumentCaption arg) := by
  rw [argumentCaption]
  split
  · decide
  · exact All.append (by decide) (clean_quote arg)

theorem Component.clean_caption (c : Component) : Clean c.caption := by
  have hcontext : Clean c.context.name := by cases c.context <;> decide
  simp only [caption, all_append, and_assoc]
  refine ⟨c.kind.clean_label, by decide, c.code.clean_label, by decide, hcontext, ?_,
    clean_argumentCaption c.arg, ?_, ?_⟩
  · split
    · decide
    · exact All.append (by decide) (clean_hex 0 _)
  · split
    · decide
    · refine (All.append (by decide) ?_).append (by decide)
      exact all_intercalate (by decide) (List.forall_mem_map.2 fun s _ ↦ clean_quote s)
  · split
    · decide
    · exact All.append (by decide) c.position.clean_label

section Names

variable {P : Char → Prop} (hP : ∀ c, ' '.toNat ≤ c.toNat → P c)

include hP

theorem all_worded {keyword text : String} (hk : Clean keyword) (ht : All P text) :
    All P (worded keyword text) :=
  ((hk.mono hP).append (All.mono hP (by decide))).append ht

theorem Parameter.all_caption {p : Parameter} (h : ∀ s ∈ [p.type.name, p.name], All P s) :
    All P p.caption := by
  have htype : All P p.type.name := h _ (by simp)
  have hname : All P p.name := h _ (by simp)
  exact (htype.append (All.mono hP (by decide))).append hname

theorem Method.all_caption {m : Method} (h : ∀ s ∈ (Node.method m).names, All P s) :
    All P m.caption := by
  have hname : All P m.name := h _ (by simp [Node.names])
  have htype : All P m.returnType.name := h _ (by simp [Node.names])
  have hparameters : ∀ p ∈ m.parameters, ∀ s ∈ [p.type.name, p.name], All P s := fun p hp s hs ↦
    h s (List.mem_cons_of_mem _ (List.mem_cons_of_mem _ (List.mem_flatMap.2 ⟨p, hp, hs⟩)))
  apply all_worded hP
  · split <;> decide
  · simp only [all_append, and_assoc]
    refine ⟨m.modifiers.clean_lead.mono hP, hname, All.mono hP (by decide), ?_,
      All.mono hP (by decide), htype, All.mono hP (by decide), m.position.clean_label.mono hP⟩
    refine all_intercalate (All.mono hP (by decide)) (List.forall_mem_map.2 fun p hp ↦ ?_)
    exact p.all_caption hP (hparameters p hp)

theorem Property.all_caption {p : Property} (hname : All P p.name)
    (htype : All P p.returnType.name) : All P p.caption := by
  refine all_worded hP (by decide) ?_
  simp only [all_append, and_assoc]
  exact ⟨p.modifiers.clean_lead.mono hP, hname, All.mono hP (by decide), htype,
    All.mono hP (by decide),
    (all_intercalate (by decide) p.clean_capabilities).mono hP, All.mono hP (by decide),
    p.position.clean_label.mono hP⟩

theorem Statement.all_caption {s : Statement} (h : All P s.target.name) : All P s.caption := by
  simp only [caption, all_append, and_assoc]
  exact ⟨s.kind.clean_label.mono hP, All.mono hP (by decide), s.code.clean_label.mono hP,
    All.mono hP (by decide), h, (clean_argumentCaption s.arg).mono hP⟩

theorem Node.all_caption {n : Node} (h : ∀ s ∈ n.names, All P s) : All P n.caption := by
  cases n with
  | byte v => exact all_worded hP (by decide) ((clean_natRepr _).mono hP)
  | int32 v => exact all_worded hP (by decide) ((clean_intRepr _).mono hP)
  | uint32 v => exact all_worded hP (by decide) ((clean_natRepr _).mono hP)
  | uint64 v => exact all_worded hP (by decide) ((clean_natRepr _).mono hP)
  | string s => exact all_worded hP (by decide) ((clean_quote s).mono hP)
  | classDef c =>
    have hkeyword : Clean c.kind.keyword := by cases c.kind <;> decide
    have hname : All P c.name := h _ (List.mem_singleton_self _)
    exact all_worded hP hkeyword ((c.modifiers.clean_lead.mono hP).append hname)
  | method m => exact m.all_caption hP h
  | parameter p => exact all_worded hP (by decide) (p.all_caption hP h)
  | property p => exact p.all_caption hP (h _ (by simp [names])) (h _ (by simp [names]))
  | position p => exact all_worded hP (by decide) (p.clean_label.mono hP)
  | codeBlock b => exact All.mono hP (show Clean "block" by decide)
  | statement s => exact s.all_caption hP (h _ (List.mem_singleton_self _))
  | component c => exact c.clean_caption.mono hP

theorem Part.all_caption {p : Part} (h : ∀ s ∈ p.names, All P s) : All P p.caption := by
  have hrole (r : Role) : All P r.label := All.mono hP (by cases r <;> decide)
  have hheading (k : Heading) : All P k.label := All.mono hP (by cases k <;> decide)
  cases p with
  | root n => exact n.all_caption hP h
  | importing s => exact all_worded hP (by decide) (h s (List.mem_singleton_self s))
  | typeParameter s => exact all_worded hP (by decide) (h s (List.mem_singleton_self s))
  | superclass t => exact all_worded hP (by decide) (h t.name (List.mem_singleton_self _))
  | interface t => exact all_worded hP (by decide) (h t.name (List.mem_singleton_self _))
  | member m => exact m.toNode.all_caption hP h
  | statement role s => exact (hrole role).append ((Node.statement s).all_caption hP h)
  | component role c => exact (hrole role).append ((Node.component c).all_caption hP h)
  | block heading b => exact hheading heading

end Names

namespace Part

variable {p : Part} {x : Char}

/-- A control character is on a line only if it is in a name. -/
theorem not_mem_caption (hx : x.toNat < ' '.toNat) (h : ∀ s ∈ p.names, x ∉ s.toList) :
    x ∉ p.caption.toList := by
  have hP : ∀ c, ' '.toNat ≤ c.toNat → c ≠ x := fun c hc he ↦ absurd (he ▸ hc) (Nat.not_le.2 hx)
  have hnames : ∀ s ∈ p.names, All (· ≠ x) s := fun s hs c hc he ↦ h s hs (he ▸ hc)
  exact fun hmem ↦ all_caption hP hnames x hmem rfl

theorem not_mem_head (hx : x.toNat < ' '.toNat) (h : ∀ s ∈ p.names, x ∉ s.toList) :
    ∀ span ∈ p.outline.head, x ∉ span.text.toList := by
  have hcaption := not_mem_caption hx h
  rw [← p.join_head, Span.join, String.toList_join, List.flatMap_map] at hcaption
  exact fun span hspan hmem ↦ hcaption (List.mem_flatMap.2 ⟨span, hspan, hmem⟩)

end Part

theorem flush_worded {keyword : String} (h : Flush keyword) (text : String) :
    Flush (worded keyword text) :=
  (h.append " ").append text

theorem Statement.flush_caption (s : Statement) : Flush s.caption := by
  simp only [caption, String.append_assoc]
  exact s.kind.flush_label.append _

theorem Component.flush_caption (c : Component) : Flush c.caption := by
  simp only [caption, String.append_assoc]
  exact c.kind.flush_label.append _

theorem Node.flush_caption (n : Node) : Flush n.caption := by
  cases n with
  | classDef c => exact flush_worded (by cases c.kind <;> decide) _
  | method m => exact flush_worded (by split <;> decide) _
  | codeBlock b => exact (by decide : Flush "block")
  | statement s => exact s.flush_caption
  | component c => exact c.flush_caption
  | _ => exact flush_worded (by decide) _

theorem Part.flush_caption (p : Part) : Flush p.caption := by
  have hrole (r : Role) {s : String} (hs : Flush s) : Flush (r.label ++ s) := by
    cases r with
    | item => rwa [Role.label, String.empty_append]
    | _ => exact Flush.append (by decide) s
  have hheading (k : Heading) : Flush k.label := by cases k <;> decide
  cases p with
  | root n => exact n.flush_caption
  | member m => exact m.toNode.flush_caption
  | statement role s => exact hrole role s.flush_caption
  | component role c => exact hrole role c.flush_caption
  | block heading b => exact hheading heading
  | _ => exact flush_worded (by decide) _

end TreeBytecode
