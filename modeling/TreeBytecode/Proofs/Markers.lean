import TreeBytecode.Proofs.Migration

namespace TreeBytecode

open Wire

namespace Wire

namespace Field

mutual

def width : Field → Nat
  | .raw bs => bs.length
  | .count _ | .text _ => 4
  | .frame _ payload => 1 + widths payload
  | .refusal _ => 0

def widths : List Field → Nat
  | [] => 0
  | f :: fs => width f + widths fs

end

theorem widths_append (fs gs : List Field) : widths (fs ++ gs) = widths fs + widths gs := by
  induction fs with
  | nil => simp [widths]
  | cons f fs ih => rw [List.cons_append, widths, widths, ih, Nat.add_assoc]

end Field

theorem Written.length_eq {t t' : StringTable} {fs : List Field} {bs : Bytes}
    (h : Written t fs bs t') : bs.length = Field.widths fs := by
  induction h with
  | nil => rfl
  | raw bs _ ih => rw [List.length_append, ih, Field.widths, Field.width]
  | count _ _ ih => rw [List.length_append, ih, length_word, Field.widths, Field.width]
  | text _ _ ih => rw [List.length_append, ih, length_word, Field.widths, Field.width]
  | frame _ _ _ ih₁ ih₂ =>
    rw [List.length_append, List.length_cons, ih₁, ih₂, Field.widths, Field.width, Nat.add_comm 1]

end Wire

namespace Method

def marker (m : Method) : UInt8 :=
  match m.kind with
  | .plain => plainMarker
  | .constructor _ => constructorMarker

def front (m : Method) : List Field :=
  [.u8 MemberKind.method.code, .u32 m.modifiers.bits, .text m.name, .text m.returnType.name,
    m.position.frame] ++
    Field.array (m.parameters.map fun p ↦ .frame .parameter p.fields) ++ [CodeBlock.frame m.body]

theorem fields_eq (layout : Layout) {m : Method} (h : m.synthetic = false) :
    m.fields layout = m.front ++ m.ending layout := by
  rw [fields, h, if_neg Bool.false_ne_true, front]

def bodyEnd (m : Method) (offset : Nat) : Nat := offset + 1 + Field.widths m.front

def EndsWithBody (m : Method) (bs : Bytes) : Prop :=
  ∃ before body t t', Written t [CodeBlock.frame m.body] body t' ∧ bs = before ++ body

theorem EndsWithBody.append_left {m : Method} {bs : Bytes} (h : m.EndsWithBody bs)
    (cs : Bytes) : m.EndsWithBody (cs ++ bs) := by
  obtain ⟨before, body, t, t', hw, rfl⟩ := h
  exact ⟨cs ++ before, body, t, t', hw, (List.append_assoc ..).symm⟩

theorem endsWithBody_of_written {m : Method} {bs : Bytes} {t t' : StringTable}
    (h : Written t m.front bs t') : m.EndsWithBody bs := by
  obtain ⟨before, body, t₁, -, hbody, rfl⟩ := h.split
  exact ⟨before, body, t₁, t', hbody, rfl⟩

end Method

namespace Class

def front (c : Class) : List Field :=
  [.u8 MemberKind.nested.code, .u8 c.kind.code, .u32 c.modifiers.bits, .text c.name] ++
    Field.strings c.imports ++ Field.names (c.superclasses.map TypeRef.name) ++
    Field.names (c.interfaces.map TypeRef.name)

theorem fields_eq (layout : Layout) (c : Class) : c.fields layout =
    c.front ++ Field.array (memberFrames layout c.members) ++ Field.strings c.typeParameters := by
  cases c
  rw [fields, front]

end Class

mutual

/-- The methods at all levels, each with the offset at which its body ends under reserved names, if
the frame of the class begins at an offset. -/
def Class.bodyEnds : Class → (offset : Nat) → List (Nat × Method)
  | c@⟨_, _, _, _, _, _, members, _, _⟩, offset =>
    memberBodyEnds members (offset + 1 + Field.widths c.front + 4)

def ClassMember.bodyEnds : ClassMember → (offset : Nat) → List (Nat × Method)
  | .method m, offset => [(m.bodyEnd offset, m)]
  | .property _, _ => []
  | .nested c, offset => c.bodyEnds offset

def memberBodyEnds : List ClassMember → (offset : Nat) → List (Nat × Method)
  | [], _ => []
  | m :: ms, offset =>
    if m.isSynthetic then memberBodyEnds ms offset
    else m.bodyEnds offset ++ memberBodyEnds ms (offset + (m.frame .reservedName).width)

end

def Node.bodyEnds : Node → (offset : Nat) → List (Nat × Method)
  | .classDef c, offset => c.bodyEnds offset
  | .method m, offset => [(m.bodyEnd offset, m)]
  | _, _ => []

mutual

theorem Class.methods_bodyEnds : ∀ (c : Class) (offset : Nat),
    (c.bodyEnds offset).map Prod.snd = (Node.classDef c).methods
  | ⟨_, _, _, _, _, _, members, _, _⟩, offset => by
    rw [Class.bodyEnds, Node.methods_classDef, methods_memberBodyEnds]
    rfl

theorem ClassMember.methods_bodyEnds : ∀ (m : ClassMember) (offset : Nat),
    (m.bodyEnds offset).map Prod.snd = m.toNode.methods
  | .method m, offset => by
    rw [ClassMember.bodyEnds, ClassMember.toNode, Node.methods_method]
    rfl
  | .property p, offset => by
    rw [ClassMember.bodyEnds, ClassMember.toNode,
      Node.methods_eq_nil (by simp [Node.tag]) (by simp [Node.tag])]
    rfl
  | .nested c, offset => by
    rw [ClassMember.bodyEnds, ClassMember.toNode]
    exact c.methods_bodyEnds offset

theorem methods_memberBodyEnds : ∀ (ms : List ClassMember) (offset : Nat),
    (memberBodyEnds ms offset).map Prod.snd = (declared ms).flatMap fun m ↦ m.toNode.methods
  | [], offset => by
    rw [memberBodyEnds]
    rfl
  | m :: ms, offset => by
    have hm := m.methods_bodyEnds offset
    rw [memberBodyEnds]
    cases hs : m.isSynthetic with
    | true =>
      have hdeclared : declared (m :: ms) = declared ms := by simp [declared, hs]
      rw [if_pos rfl, hdeclared]
      exact methods_memberBodyEnds ms offset
    | false =>
      have hdeclared : declared (m :: ms) = m :: declared ms := by simp [declared, hs]
      rw [if_neg Bool.false_ne_true, hdeclared, List.map_append, List.flatMap_cons, hm,
        methods_memberBodyEnds]

end

theorem Node.methods_bodyEnds (n : Node) (offset : Nat) :
    (n.bodyEnds offset).map Prod.snd = n.methods := by
  cases n with
  | classDef c => exact c.methods_bodyEnds offset
  | method m => exact (methods_method m).symm
  | _ => exact (methods_eq_nil (by simp [tag]) (by simp [tag])).symm

/-- The second bytes are the first ones, which begin at an offset, except that a marker stands
behind the body of each method. -/
inductive Stamped : (offset : Nat) → List (Nat × Method) → Bytes → Bytes → Prop
  | rest (offset : Nat) (bs : Bytes) : Stamped offset [] bs bs
  | mark {offset : Nat} {marks : List (Nat × Method)} {m : Method} {front bs cs : Bytes}
      (body : m.EndsWithBody front) (h : Stamped (offset + front.length) marks bs cs) :
      Stamped offset ((offset + front.length, m) :: marks) (front ++ bs) (front ++ m.marker :: cs)

namespace Stamped

variable {offset : Nat} {marks marks' : List (Nat × Method)} {bs bs' cs cs' : Bytes}

theorem length_eq (h : Stamped offset marks bs cs) : cs.length = bs.length + marks.length := by
  induction h with
  | rest => rfl
  | mark _ _ ih =>
    simp only [List.length_append, List.length_cons, ih]
    omega

theorem eq_of_nil (h : Stamped offset [] bs cs) : cs = bs := by
  cases h
  rfl

/-- A marker that belongs behind all bytes comes behind all bytes. -/
theorem eq_of_last {last : Nat} {m : Method} (h : Stamped offset [(last, m)] bs cs)
    (hlast : last = offset + bs.length) : cs = bs ++ [m.marker] := by
  cases h with
  | @mark _ _ _ front bs cs _ h =>
    obtain rfl : bs = [] := by
      rw [List.length_append] at hlast
      exact List.eq_nil_of_length_eq_zero (by omega)
    rw [h.eq_of_nil, List.append_nil]

theorem append_left (front : Bytes) (h : Stamped (offset + front.length) marks bs cs) :
    Stamped offset marks (front ++ bs) (front ++ cs) := by
  cases h with
  | rest => exact .rest offset _
  | @mark _ _ m front' bs cs hbody h =>
    have hoffset : offset + front.length + front'.length = offset + (front ++ front').length := by
      rw [List.length_append, Nat.add_assoc]
    rw [hoffset] at h ⊢
    rw [← List.append_assoc, ← List.append_assoc]
    exact .mark (hbody.append_left front) h

theorem append (h : Stamped offset marks bs cs)
    (h' : Stamped (offset + bs.length) marks' bs' cs') :
    Stamped offset (marks ++ marks') (bs ++ bs') (cs ++ cs') := by
  induction h with
  | rest offset bs => exact h'.append_left bs
  | @mark offset marks m front bs cs hbody h ih =>
    rw [List.length_append, ← Nat.add_assoc] at h'
    rw [List.append_assoc, List.append_assoc]
    exact .mark hbody (ih h')

end Stamped

/-- Whenever the first fields are written, the second are written with the same strings, and with
the markers of some methods in addition. -/
def Marked (offset : Nat) (fs gs : List Field) (marks : List (Nat × Method)) : Prop :=
  ∀ t bs t', Written t fs bs t' → ∃ cs, Written t gs cs t' ∧ Stamped offset marks bs cs

namespace Marked

variable {offset : Nat} {fs fs' gs gs' : List Field} {marks marks' : List (Nat × Method)}

theorem refl (offset : Nat) (fs : List Field) : Marked offset fs fs [] :=
  fun _ bs _ h ↦ ⟨bs, h, .rest offset bs⟩

theorem append (h : Marked offset fs gs marks)
    (h' : Marked (offset + Field.widths fs) fs' gs' marks') :
    Marked offset (fs ++ fs') (gs ++ gs') (marks ++ marks') := by
  intro t bs t'' hw
  obtain ⟨b₁, b₂, t', hw₁, hw₂, rfl⟩ := hw.split
  obtain ⟨c₁, hc₁, hs₁⟩ := h t b₁ t' hw₁
  obtain ⟨c₂, hc₂, hs₂⟩ := h' t' b₂ t'' hw₂
  rw [← hw₁.length_eq] at hs₂
  exact ⟨c₁ ++ c₂, hc₁.append hc₂, hs₁.append hs₂⟩

theorem append_left (fs : List Field) (h : Marked (offset + Field.widths fs) gs gs' marks) :
    Marked offset (fs ++ gs) (fs ++ gs') marks := (refl offset fs).append h

theorem append_right (h : Marked offset fs gs marks) (hs : List Field) :
    Marked offset (fs ++ hs) (gs ++ hs) marks := by
  have happend := h.append (refl _ hs)
  rwa [List.append_nil] at happend

theorem frame (tag : Tag) (h : Marked (offset + 1) fs gs marks) :
    Marked offset [.frame tag fs] [.frame tag gs] marks := by
  intro t bs t' hw
  obtain ⟨bs, hin, rfl⟩ := hw.of_singleton_frame
  obtain ⟨cs, hc, hs⟩ := h t bs t' hin
  exact ⟨tag.code :: cs, hc.singleton_frame, hs.append_left [tag.code]⟩

theorem array (hl : fs.length = gs.length) (h : Marked (offset + 4) fs gs marks) :
    Marked offset (Field.array fs) (Field.array gs) marks := by
  rw [Field.array, Field.array, hl]
  exact h.append_left [.count gs.length]

theorem of_refusal (r : Refusal) : Marked offset (.refusal r :: fs) gs marks :=
  fun _ _ _ hw ↦ absurd hw Written.not_refusal

end Marked

theorem Method.written_marker {m : Method} {t t' : StringTable} {bs : Bytes}
    (h : Written t (m.ending .reservedName) bs t') :
    Written t (m.ending .kindMarker) (m.marker :: bs) t' := by
  cases hk : m.kind with
  | plain =>
    simp only [ending, marker, hk] at h ⊢
    split at h
    · exact absurd h Written.not_refusal
    · exact .raw [plainMarker] h
  | constructor calls =>
    simp only [ending, marker, hk] at h ⊢
    split at h
    · exact .raw [constructorMarker] h
    · exact absurd h Written.not_refusal

theorem Method.marked (m : Method) (offset : Nat) :
    Marked offset [.frame .method (m.fields .reservedName)]
      [.frame .method (m.fields .kindMarker)] [(m.bodyEnd offset, m)] := by
  cases hs : m.synthetic with
  | true =>
    apply Marked.frame
    rw [fields, hs, if_pos rfl]
    exact .of_refusal _
  | false =>
    apply Marked.frame
    rw [fields_eq _ hs, fields_eq _ hs]
    intro t bs t'' hw
    obtain ⟨front, rest, t', hfront, hrest, rfl⟩ := hw.split
    refine ⟨_, hfront.append (written_marker hrest), ?_⟩
    rw [bodyEnd, ← hfront.length_eq]
    exact .mark (endsWithBody_of_written hfront) (.rest _ rest)

theorem Method.length_of_plain {m : Method} (hm : m.kind = .plain) {t t' : StringTable}
    {bs : Bytes} (h : Written t [.frame .method (m.fields .reservedName)] bs t') :
    bs.length = m.bodyEnd 0 := by
  obtain ⟨cs, hin, rfl⟩ := h.of_singleton_frame
  cases hs : m.synthetic with
  | true =>
    rw [fields, hs, if_pos rfl] at hin
    exact absurd hin Written.not_refusal
  | false =>
    have hending : Field.widths (m.ending .reservedName) = 0 := by
      simp only [ending, hm]
      split <;> rfl
    rw [List.length_cons, hin.length_eq, fields_eq _ hs, Field.widths_append, hending, bodyEnd]
    omega

mutual

theorem Class.marked : ∀ (c : Class) (offset : Nat),
    Marked offset [.frame .classDef (c.fields .reservedName)]
      [.frame .classDef (c.fields .kindMarker)] (c.bodyEnds offset)
  | ⟨kind, modifiers, name, imports, superclasses, interfaces, members, typeParameters, index⟩,
      offset => by
    let c : Class := ⟨kind, modifiers, name, imports, superclasses, interfaces, members,
      typeParameters, index⟩
    have hlength : (memberFrames .reservedName members).length =
        (memberFrames .kindMarker members).length := by
      rw [memberFrames_eq, memberFrames_eq, List.length_map, List.length_map]
    have hmembers := memberFrames_marked members (offset + 1 + Field.widths c.front + 4)
    apply Marked.frame
    rw [Class.fields_eq, Class.fields_eq, Class.bodyEnds]
    exact ((hmembers.array hlength).append_left c.front).append_right _

theorem ClassMember.marked : ∀ (m : ClassMember) (offset : Nat),
    Marked offset [m.frame .reservedName] [m.frame .kindMarker] (m.bodyEnds offset)
  | .method m, offset => by
    rw [ClassMember.frame, ClassMember.frame, ClassMember.bodyEnds]
    exact m.marked offset
  | .property p, offset => by
    rw [ClassMember.frame, ClassMember.frame, ClassMember.bodyEnds]
    exact .refl offset _
  | .nested c, offset => by
    rw [ClassMember.frame, ClassMember.frame, ClassMember.bodyEnds]
    exact c.marked offset

theorem memberFrames_marked : ∀ (ms : List ClassMember) (offset : Nat),
    Marked offset (memberFrames .reservedName ms) (memberFrames .kindMarker ms)
      (memberBodyEnds ms offset)
  | [], offset => by
    rw [memberFrames, memberFrames, memberBodyEnds]
    exact .refl offset []
  | m :: ms, offset => by
    have hm := m.marked offset
    rw [memberFrames, memberFrames, memberBodyEnds]
    split
    · exact memberFrames_marked ms offset
    · have hms := memberFrames_marked ms (offset + (m.frame .reservedName).width)
      exact hm.append hms

end

namespace Node

/-- A node that can be written under reserved names can be written under kind markers. -/
theorem marked (n : Node) (offset : Nat) : Marked offset [n.frame .reservedName]
    [n.frame .kindMarker] (n.bodyEnds offset) := by
  cases n with
  | classDef c => exact c.marked offset
  | method m => exact m.marked offset
  | _ => exact .refl offset _

end Node

namespace Adapter

/-- A node that is written under reserved names is written under kind markers with the same strings
and in the same bytes, except for one byte behind the body of each of its methods. A plain method
has this byte last, so that it is read under reserved names as well, with the byte left over. -/
theorem markers_behind_bodies (v w : FormatVersion) (n : Node) (t : StringTable) {count : Nat}
    {e : Encoder}
    (h : (⟨v, .reservedName⟩ : Adapter).write n (.start (.empty none) t) = (.ok count, e)) :
    ∃ e', (⟨w, .kindMarker⟩ : Adapter).write n (.start (.empty none) t) =
        (.ok (count + n.methods.length), e') ∧
      e'.table = e.table ∧
      Stamped 0 (n.bodyEnds 0) e.sink.bytes e'.sink.bytes ∧
      (n.bodyEnds 0).map Prod.snd = n.methods ∧
      e'.sink.bytes.length = e.sink.bytes.length + n.methods.length ∧
      (n.methods = [] → e'.sink.bytes = e.sink.bytes) ∧
      ∀ m, n = .method m → m.kind = .plain →
        e'.sink.bytes = e.sink.bytes ++ [Method.plainMarker] ∧
        ∀ types maxDepth, e'.table.size ≤ UInt32.size →
          (∀ r ∈ n.typeRefs, types r.name = some r.handle) → n.depth ≤ maxDepth →
          ∀ further ending, (⟨v, .reservedName⟩ : Adapter).load ⟨e'.table, types⟩ maxDepth
              (.only .method) (.start (e'.sink.bytes ++ further) ending) =
            (.ok m, ⟨Method.plainMarker :: further, ending, count, []⟩) := by
  obtain ⟨bs, hbytes, hcount, hw⟩ := written_of_write h
  obtain rfl : e.sink.bytes = bs := hbytes
  obtain ⟨cs, hw', hstamped⟩ := n.marked 0 t e.sink.bytes e.table hw
  let e' : Encoder :=
    { Encoder.start ⟨none, (#[] : Array UInt8) ++ cs⟩ e.table with offset := cs.length }
  have hrun : (⟨w, .kindMarker⟩ : Adapter).write n (.start (.empty none) t) =
      (.ok cs.length, e') := write_of_written ⟨w, .kindMarker⟩ hw' #[]
  have hbytes' : e'.sink.bytes = cs := Array.toList_appendList ..
  have hmethods : (n.bodyEnds 0).length = n.methods.length := by
    rw [← n.methods_bodyEnds 0, List.length_map]
  have hlength : cs.length = e.sink.bytes.length + n.methods.length := by
    rw [hstamped.length_eq, hmethods]
  refine ⟨e', ?_, rfl, ?_, n.methods_bodyEnds 0, ?_, fun hnone ↦ ?_, fun m hm hplain ↦ ?_⟩
  · rw [hrun, hlength, hcount]
  · rwa [hbytes']
  · rwa [hbytes']
  · have hmarks : n.bodyEnds 0 = [] := by
      rw [← List.length_eq_zero_iff, hmethods, hnone, List.length_nil]
    rw [hmarks] at hstamped
    rw [hbytes', hstamped.eq_of_nil]
  · subst hm
    have hlast : cs = e.sink.bytes ++ [Method.plainMarker] := by
      have hmarker : m.marker = Method.plainMarker := by
        rw [Method.marker, hplain]
      rw [← hmarker]
      apply hstamped.eq_of_last
      rw [Nat.zero_add, Method.length_of_plain hplain hw]
    rw [hbytes']
    refine ⟨hlast, fun types maxDepth hs ht hd further ending ↦ ?_⟩
    have hb := hw.allBytes? List.prefix_rfl hs
    rw [Field.allBytes?_singleton] at hb
    rw [hlast, List.append_assoc, hcount]
    exact load_of_bytes? ⟨v, .reservedName⟩ hb ht hd rfl (Method.plainMarker :: further) ending

theorem markers_behind_bodies_nested :
    let method (name : String) (kind : MethodKind) : Method :=
      ⟨⟨0⟩, name, default, ⟨0, 0⟩, [], [], kind, false⟩
    let ctor : Method := method "ctor" (.constructor [])
    let run : Method := method "run" .plain
    let inner : Class := { (default : Class) with members := [.method run] }
    let outer : Node := .classDef { (default : Class) with
      members := [.method ctor, .nested inner] }
    (∃ e e', v0_10.write outer (.start (.empty none) .empty) = (.ok 130, e) ∧
      v0_11.write outer (.start (.empty none) .empty) = (.ok 132, e') ∧ e'.table = e.table ∧
      Stamped 0 [(59, ctor), (122, run)] e.sink.bytes e'.sink.bytes) ∧
    ∃ e', v0_11.write (.method run) (.start (.empty none) .empty) = (.ok 33, e') ∧
      v0_10.load ⟨e'.table, TypeUniverse.resolve? ⟨[("", 0)]⟩⟩ 2 (.only .method)
        (.start e'.sink.bytes .clean) = (.ok run, ⟨[0], .clean, 32, []⟩) := by
  intro method ctor run inner outer
  constructor
  · have hmarks : outer.bodyEnds 0 = [(59, ctor), (122, run)] := by decide +kernel
    obtain ⟨e, h⟩ : ∃ e, v0_10.write outer (.start (.empty none) .empty) = (.ok 130, e) :=
      Step.exists_of_toOption (by decide +kernel)
    obtain ⟨e', h', htable, hstamped, hmethods, -⟩ :=
      markers_behind_bodies .v0_10 .v0_11 outer .empty h
    rw [hmarks] at hstamped hmethods
    rw [← hmethods] at h'
    exact ⟨e, e', h, h', htable, hstamped⟩
  · obtain ⟨e, h⟩ : ∃ e, v0_10.write (.method run) (.start (.empty none) .empty) = (.ok 32, e) :=
      Step.exists_of_toOption (by decide +kernel)
    have hsize : e.table.size ≤ UInt32.size := by
      have htable : (v0_10.write (.method run) (.start (.empty none) .empty)).2.table.size ≤
          UInt32.size := by decide +kernel
      rwa [h] at htable
    have htypes : ∀ r ∈ (Node.method run).typeRefs,
        TypeUniverse.resolve? ⟨[("", 0)]⟩ r.name = some r.handle := by
      simp [run, method, Node.typeRefs, Node.frames_eq, Node.embedded, Node.ownTypes,
        Method.superCalls, default]
      decide
    have hdepth : (Node.method run).depth ≤ 2 := by
      simp [run, method, Node.depth_eq, Node.embedded, Method.superCalls]
    obtain ⟨e', h', htable, -, -, -, -, hplain⟩ :=
      markers_behind_bodies .v0_10 .v0_11 (.method run) .empty h
    rw [Node.methods_method] at h'
    obtain ⟨-, hload⟩ := hplain run rfl rfl
    rw [← htable] at hsize
    have hread := hload (TypeUniverse.resolve? ⟨[("", 0)]⟩) 2 hsize htypes hdepth [] .clean
    rw [List.append_nil] at hread
    exact ⟨e', h', hread⟩

end Adapter

end TreeBytecode
