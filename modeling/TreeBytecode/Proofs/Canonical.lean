import TreeBytecode.Proofs.Payload
import TreeBytecode.Proofs.Persistence
import TreeBytecode.Registry

namespace TreeBytecode

open Wire Wire.Plan

section Payload

variable {scope : Scope} {G : (e : Expectation) → Grammar e.Content} {layout : Layout}
  {P : Node → Prop}

theorem Node.tag_eq_iff {t : Tag} {n : Node} :
    n.tag = t ↔ ∃ v : (Expectation.only t).Content, n = (Expectation.only t).toNode v := by
  constructor
  · intro h
    have hs : ((Expectation.only t).ofNode? n).isSome = true := by
      rw [Expectation.isSome_ofNode?, h, Expectation.accepts, beq_self_eq_true]
    obtain ⟨v, hv⟩ := Option.isSome_iff_exists.1 hs
    exact ⟨v, Expectation.ofNode?_eq_some_iff.1 hv⟩
  · rintro ⟨v, rfl⟩
    cases t <;> rfl

/-- The plan of one kind of node mirrors the fields of nodes if it mirrors those of its values. -/
theorem Node.map_mirrors {t : Tag} {p : Plan (Expectation.only t).Content}
    {fields : (Expectation.only t).Content → List Field}
    {fits : (Expectation.only t).Content → Prop}
    (h : p.Mirrors scope G fields (fun _ ↦ True) fits)
    (hfields : ∀ v, ((Expectation.only t).toNode v).fields layout = fields v)
    (hfits : ∀ v, fits v ↔ ((Expectation.only t).toNode v).Settled scope.types ∧
      ∀ m ∈ ((Expectation.only t).toNode v).embedded, P m) :
    ((Expectation.only t).toNode <$> p).Mirrors scope G (Node.fields layout) (fun n ↦ n.tag = t)
      fun n ↦ n.Settled scope.types ∧ ∀ m ∈ n.embedded, P m := by
  intro bs n
  rw [map_yields]
  constructor
  · rintro ⟨v, hv, rfl⟩
    obtain ⟨-, hb, hf⟩ := (h bs v).1 hv
    exact ⟨tag_eq_iff.2 ⟨v, rfl⟩, by rwa [hfields], (hfits v).1 hf⟩
  · rintro ⟨ht, hb, hf⟩
    obtain ⟨v, rfl⟩ := tag_eq_iff.1 ht
    rw [hfields] at hb
    exact ⟨v, (h bs v).2 ⟨trivial, hb, (hfits v).2 hf⟩, rfl⟩

theorem Node.plan_mirrors (hG : ∀ e bs v, G e bs v ↔
      ((e.toNode v).frame layout).bytes? scope.table = some bs ∧ P (e.toNode v))
    (hP : ∀ m : Method, P (.method m) → m.synthetic = false) (t : Tag) :
    (Node.plan layout t).Mirrors scope G (Node.fields layout) (fun n ↦ n.tag = t)
      fun n ↦ n.Settled scope.types ∧ ∀ m ∈ n.embedded, P m := by
  cases t with
  | byte =>
    refine map_mirrors (t := .byte) u8_mirrors (fun _ ↦ rfl) fun v ↦ ?_
    simp [Expectation.toNode, Settled, ownTypes, isPlaceholder, embedded]
  | int32 =>
    refine map_mirrors (t := .int32) i32_mirrors (fun _ ↦ rfl) fun v ↦ ?_
    simp [Expectation.toNode, Settled, ownTypes, isPlaceholder, embedded]
  | uint32 =>
    refine map_mirrors (t := .uint32) u32_mirrors (fun _ ↦ rfl) fun v ↦ ?_
    simp [Expectation.toNode, Settled, ownTypes, isPlaceholder, embedded]
  | uint64 =>
    refine map_mirrors (t := .uint64) u64_mirrors (fun _ ↦ rfl) fun v ↦ ?_
    simp [Expectation.toNode, Settled, ownTypes, isPlaceholder, embedded]
  | string =>
    refine map_mirrors (t := .string) text_mirrors (fun _ ↦ rfl) fun s ↦ ?_
    simp [Expectation.toNode, Settled, ownTypes, isPlaceholder, embedded]
  | classDef =>
    refine map_mirrors (t := .classDef) (Class.plan_mirrors hG hP) (fun _ ↦ rfl) fun c ↦ ?_
    simp [Expectation.toNode, Settled, ownTypes, isPlaceholder, and_assoc]
  | method =>
    refine map_mirrors (t := .method) (Method.plan_mirrors hG) (fun _ ↦ rfl) fun m ↦ ?_
    simp [Expectation.toNode, Settled, ownTypes, isPlaceholder, and_assoc]
  | parameter =>
    refine map_mirrors (t := .parameter) Parameter.plan_mirrors (fun _ ↦ rfl) fun p ↦ ?_
    simp [Expectation.toNode, Settled, ownTypes, isPlaceholder, embedded]
  | property =>
    refine map_mirrors (t := .property) (Property.plan_mirrors hG) (fun _ ↦ rfl) fun p ↦ ?_
    simp [Expectation.toNode, Settled, ownTypes, isPlaceholder]
  | position =>
    refine map_mirrors (t := .position) Position.plan_mirrors (fun _ ↦ rfl) fun p ↦ ?_
    simp [Expectation.toNode, Settled, ownTypes, isPlaceholder, embedded]
  | codeBlock =>
    refine map_mirrors (t := .codeBlock) (CodeBlock.plan_mirrors hG) (fun _ ↦ rfl) fun b ↦ ?_
    simp [Expectation.toNode, Settled, ownTypes, isPlaceholder]
  | statement =>
    refine map_mirrors (t := .statement) (Statement.plan_mirrors hG) (fun _ ↦ rfl) fun s ↦ ?_
    simp [Expectation.toNode, Settled, ownTypes, isPlaceholder]
  | component =>
    refine map_mirrors (t := .component) (Component.plan_mirrors hG) (fun _ ↦ rfl) fun c ↦ ?_
    simp [Expectation.toNode, Settled, ownTypes, isPlaceholder]

end Payload

namespace Decoder

/-- What a reader accepts for a value is what a writer makes of it, and nothing else. -/
theorem accepts_iff (d : Decoder) (levels : Nat) (e : Expectation) (bs : Bytes) (v : e.Content) :
    d.Accepts levels e bs v ↔ ((e.toNode v).frame d.layout).bytes? d.scope.table = some bs ∧
      (e.toNode v).Readable d.scope.types levels := by
  induction levels generalizing e bs with
  | zero => exact ⟨False.elim, fun h ↦ h.2⟩
  | succ levels ih =>
    have hP (m : Method) (h : (Node.method m).Readable d.scope.types levels) :
        m.synthetic = false := by
      cases levels with
      | zero => exact h.elim
      | succ => exact h.1.2.1
    -- The frames inside are read with one level less, for which the statement is known.
    have hplan := Node.plan_mirrors (fun e bs v ↦ ih e bs v) hP
    rw [Node.frame, Field.bytes?_frame]
    constructor
    · rintro ⟨t, payload, n, rfl, -, hn, hv⟩
      obtain rfl := Expectation.ofNode?_eq_some_iff.1 hv
      obtain ⟨rfl, hb, hf⟩ := (hplan t payload _).1 hn
      exact ⟨⟨payload, hb, rfl⟩, hf⟩
    · rintro ⟨⟨payload, hb, rfl⟩, hf⟩
      have hv := Expectation.ofNode?_eq_some_iff.2 (Eq.refl (e.toNode v))
      refine ⟨_, payload, _, rfl, ?_, (hplan _ payload _).2 ⟨rfl, hb, hf⟩, hv⟩
      rw [← Expectation.isSome_ofNode?, hv, Option.isSome_some]

end Decoder

/-- What is read from some bytes is written back as the same bytes under the same table, which
stays. So these are the only bytes from which it is read, under any limit. -/
theorem Adapter.write_of_load (a : Adapter) (scope : Scope) (maxDepth : Nat) {bytes : Bytes}
    {fault? : Option Fault} {n : Node} {c : Cursor}
    (h : a.load scope maxDepth .any (.start bytes (.ofFault? fault?)) = (.ok n, c)) :
    ∃ consumed, bytes = consumed ++ c.rest ∧ c.offset = consumed.length ∧
      (∀ out : Array UInt8, a.write n (.start ⟨none, out⟩ scope.table) =
        (.ok consumed.length, { Encoder.start ⟨none, out ++ consumed⟩ scope.table with
          offset := consumed.length })) ∧
      ∀ maxDepth' bytes' fault?' c', a.load scope maxDepth' .any
          (.start bytes' (.ofFault? fault?')) = (.ok n, c') → bytes' = consumed ++ c'.rest := by
  have hload {levels : Nat} {bs : Bytes} {f? : Option Fault} {d : Cursor}
      (h : a.load scope levels .any (.start bs (.ofFault? f?)) = (.ok n, d)) :
      ∃ used, bs = used ++ d.rest ∧ d.offset = used.length ∧
        (n.frame a.layout).bytes? scope.table = some used := by
    obtain ⟨used, rest, rfl, hG, rfl⟩ := (Decoder.frame_parses _ _ _ _).sound h
    exact ⟨used, rfl, Nat.zero_add _, ((Decoder.accepts_iff _ _ _ _ _).1 hG).1⟩
  obtain ⟨consumed, rfl, ho, hb⟩ := hload h
  refine ⟨consumed, rfl, ho, fun out ↦ ?_, fun maxDepth' bytes' fault?' c' h' ↦ ?_⟩
  · have hput := Encoder.put_of_bytes? (n.frame a.layout)
      (e := .start ⟨none, out⟩ scope.table) rfl hb
    simp only [write, hput]
    simp only [Encoder.append, Encoder.start, Nat.zero_add]
  · obtain ⟨used, rfl, -, hb'⟩ := hload h'
    rw [Option.some.inj (hb.symm.trans hb')]

theorem Adapter.write_of_load_block :
    ∃ consumed : Bytes, [Tag.codeBlock.code, 1, 0, 0, 0, Tag.statement.code] ++
        List.replicate 21 0 ++ [7] = consumed ++ [7] ∧ 27 = consumed.length ∧
      ∀ out : Array UInt8, Adapter.v0_10.write (.codeBlock [default])
          (.start ⟨none, out⟩ (.ofList [""])) = (.ok consumed.length,
        { Encoder.start ⟨none, out ++ consumed⟩ (.ofList [""]) with
          offset := consumed.length }) := by
  let scope : Scope := ⟨.ofList [""], TypeUniverse.resolve? ⟨[("", 0)]⟩⟩
  have hread : (Node.codeBlock [default]).Readable scope.types 2 := by
    simp [Node.Readable, Node.Settled, Node.ownTypes, Node.isPlaceholder, Node.embedded,
      Slot.children, Statement.slots, default]
    decide
  have hbytes : ((Node.codeBlock [default]).frame .reservedName).bytes? scope.table =
      some ([Tag.codeBlock.code, 1, 0, 0, 0, Tag.statement.code] ++ List.replicate 21 0) := rfl
  have hload : Adapter.v0_10.load scope 2 .any
      (.start ([Tag.codeBlock.code, 1, 0, 0, 0, Tag.statement.code] ++ List.replicate 21 0 ++ [7])
        (.ofFault? none)) = (.ok (.codeBlock [default]), ⟨[7], .clean, 27, []⟩) :=
    (Decoder.frame_parses ⟨scope, .reservedName, 2⟩ 2 .top .any).complete
      ((Decoder.accepts_iff _ _ _ _ _).2 ⟨hbytes, hread⟩) [7] .clean 0 []
  obtain ⟨consumed, hb, ho, hw, -⟩ := Adapter.write_of_load .v0_10 scope 2 hload
  exact ⟨consumed, hb, ho, hw⟩

end TreeBytecode
