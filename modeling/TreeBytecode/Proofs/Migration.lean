import TreeBytecode.Proofs.Acceptance
import TreeBytecode.Proofs.RoundTrip

namespace TreeBytecode

open Wire

namespace Wire.Field

/-- Whenever the first fields have bytes under a table, the second have so many more. -/
def Longer (t : StringTable) (fs gs : List Field) (more : Nat) : Prop :=
  ∀ bs, allBytes? t fs = some bs → ∃ cs, allBytes? t gs = some cs ∧ cs.length = bs.length + more

namespace Longer

variable {t : StringTable} {fs fs' gs gs' : List Field} {k k' : Nat}

theorem refl (fs : List Field) : Longer t fs fs 0 := fun bs h ↦ ⟨bs, h, rfl⟩

/-- Fields that cannot be written do not matter. -/
theorem of_refusal (r : Refusal) : Longer t [.refusal r] gs k := by
  intro bs h
  rw [allBytes?_singleton, bytes?] at h
  cases h

theorem append (h : Longer t fs gs k) (h' : Longer t fs' gs' k') :
    Longer t (fs ++ fs') (gs ++ gs') (k + k') := by
  intro bs hbs
  obtain ⟨b₁, b₂, h₁, h₂, rfl⟩ := allBytes?_append.1 hbs
  obtain ⟨c₁, hc₁, hl₁⟩ := h b₁ h₁
  obtain ⟨c₂, hc₂, hl₂⟩ := h' b₂ h₂
  refine ⟨c₁ ++ c₂, allBytes?_append.2 ⟨c₁, c₂, hc₁, hc₂, rfl⟩, ?_⟩
  rw [List.length_append, List.length_append]
  omega

theorem append_left (h : Longer t gs gs' k) (fs : List Field) :
    Longer t (fs ++ gs) (fs ++ gs') k := by
  have hall := (refl fs).append h
  rwa [Nat.zero_add] at hall

theorem append_right (h : Longer t fs fs' k) (gs : List Field) :
    Longer t (fs ++ gs) (fs' ++ gs) k := h.append (refl gs)

theorem frame (tag : Tag) (h : Longer t fs gs k) :
    Longer t [.frame tag fs] [.frame tag gs] k := by
  intro bs hbs
  rw [allBytes?_singleton] at hbs ⊢
  obtain ⟨bs, hb, rfl⟩ := bytes?_frame.1 hbs
  obtain ⟨cs, hc, hl⟩ := h bs hb
  refine ⟨tag.code :: cs, bytes?_frame.2 ⟨cs, hc, rfl⟩, ?_⟩
  rw [List.length_cons, List.length_cons]
  omega

/-- One more byte for each of the values that stand behind the fields. -/
theorem map {α β : Type} {f g : α → Field} {values : α → List β} {as : List α}
    (h : ∀ a ∈ as, Longer t [f a] [g a] (values a).length) :
    Longer t (as.map f) (as.map g) (as.flatMap values).length := by
  induction as with
  | nil => exact refl []
  | cons a as ih =>
    obtain ⟨ha, has⟩ := List.forall_mem_cons.1 h
    rw [List.flatMap_cons, List.length_append]
    exact ha.append (ih has)

theorem array {α β : Type} {f g : α → Field} {values : α → List β} {as : List α}
    (h : ∀ a ∈ as, Longer t [f a] [g a] (values a).length) :
    Longer t (array (as.map f)) (array (as.map g)) (as.flatMap values).length := by
  rw [Field.array, Field.array, List.length_map, List.length_map]
  exact (map h).append_left [.count as.length]

end Longer

end Wire.Field

open Wire.Field (Longer)

namespace Node

theorem tag_of_mem_embedded {m n : Node} (hn : n.tag ≠ .classDef) (h : m ∈ n.embedded) :
    m.tag ≠ .classDef ∧ m.tag ≠ .method := by
  cases n with
  | classDef c => exact absurd rfl hn
  | method d =>
    obtain rfl | ⟨p, -, rfl⟩ | rfl | ⟨c, -, rfl⟩ := mem_embedded_method.1 h <;> simp [tag]
  | property p =>
    obtain rfl | ⟨b, -, rfl⟩ | ⟨b, -, rfl⟩ | ⟨b, -, rfl⟩ := mem_embedded_property.1 h <;>
      simp [tag]
  | codeBlock b =>
    obtain ⟨s, -, rfl⟩ := mem_embedded_codeBlock.1 h
    simp [tag]
  | statement s =>
    obtain ⟨c, -, rfl⟩ | ⟨b, -, rfl⟩ := mem_embedded_statement.1 h <;> simp [tag]
  | component c =>
    obtain ⟨s, -, rfl⟩ | rfl | ⟨s, -, rfl⟩ | ⟨s, -, rfl⟩ | ⟨d, -, rfl⟩ | ⟨d, -, rfl⟩ |
      ⟨d, -, rfl⟩ | ⟨b, -, rfl⟩ := mem_embedded_component.1 h <;> simp [tag]
  | byte | int32 | uint32 | uint64 | string | parameter | position =>
    exact absurd h List.not_mem_nil

theorem methods_eq (n : Node) : n.methods = n.method?.toList ++ n.embedded.flatMap methods := by
  rw [methods, frames_eq, List.filterMap_cons, List.filterMap_flatMap]
  cases n.method? <;> rfl

theorem methods_eq_nil {n : Node} (hc : n.tag ≠ .classDef) (hm : n.tag ≠ .method) :
    n.methods = [] := by
  induction n using induction with
  | step n ih =>
    have hown : n.method? = none := by
      cases n with
      | method => exact absurd rfl hm
      | _ => rfl
    have hinner : n.embedded.flatMap methods = [] := by
      rw [List.flatMap_eq_nil_iff]
      intro m h
      obtain ⟨hmc, hmm⟩ := tag_of_mem_embedded hc h
      exact ih m h hmc hmm
    rw [methods_eq, hown, hinner]
    rfl

theorem methods_method (m : Method) : (method m).methods = [m] := by
  have hinner : (method m).embedded.flatMap methods = [] := by
    rw [List.flatMap_eq_nil_iff]
    intro k h
    obtain ⟨hc, hm⟩ := tag_of_mem_embedded (by simp [tag]) h
    exact methods_eq_nil hc hm
  rw [methods_eq, hinner]
  rfl

theorem methods_classDef (c : Class) :
    (classDef c).methods = c.declaredMembers.flatMap fun m ↦ m.toNode.methods := by
  have hstring (s : String) : (string s).methods = [] :=
    methods_eq_nil (by simp [tag]) (by simp [tag])
  have hnone {α : Type} (as : List α) : as.flatMap (fun _ ↦ ([] : List Method)) = [] :=
    List.flatMap_eq_nil_iff.2 fun _ _ ↦ rfl
  rw [methods_eq]
  simp only [method?, Option.toList_none, List.nil_append, embedded, List.flatMap_append,
    List.flatMap_map, hstring, hnone, List.append_nil]

theorem longer_ending (t : StringTable) (m : Method) :
    Longer t (m.ending .reservedName) (m.ending .kindMarker) 1 := by
  have hmark (b : UInt8) (fs : List Field) : Longer t fs (.u8 b :: fs) 1 := by
    intro bs h
    exact ⟨b :: bs, Field.allBytes?_cons.2 ⟨[b], bs, rfl, h, rfl⟩, rfl⟩
  rw [Method.ending, Method.ending]
  cases m.kind with
  | plain =>
    dsimp only
    split
    · exact .of_refusal _
    · exact hmark _ []
  | constructor calls =>
    dsimp only
    split
    · exact hmark _ _
    · exact .of_refusal _

theorem longer_method (t : StringTable) (m : Method) :
    Longer t (m.fields .reservedName) (m.fields .kindMarker) 1 := by
  rw [Method.fields, Method.fields]
  split
  · exact .of_refusal _
  · exact (longer_ending t m).append_left _

/-- What can be stored under reserved names can be stored under kind markers. -/
theorem longer_frame (t : StringTable) (n : Node) :
    Longer t [n.frame .reservedName] [n.frame .kindMarker] n.methods.length := by
  induction n using induction with
  | step n ih =>
    cases n with
    | method m =>
      rw [methods_method]
      exact (longer_method t m).frame .method
    | classDef c =>
      have hmembers : Longer t (Field.array (memberFrames .reservedName c.members))
          (Field.array (memberFrames .kindMarker c.members)) (classDef c).methods.length := by
        rw [methods_classDef, memberFrames_eq, memberFrames_eq]
        refine .array fun m hm ↦ ?_
        rw [ClassMember.frame_eq, ClassMember.frame_eq]
        exact ih m.toNode (mem_embedded_classDef.2 (.inr (.inr (.inr (.inl ⟨m, hm, rfl⟩)))))
      refine .frame .classDef ?_
      obtain ⟨kind, modifiers, name, imports, supers, interfaces, members, parameters, index⟩ := c
      rw [fields, fields, Class.fields, Class.fields]
      exact (hmembers.append_left _).append_right _
    | _ =>
      rw [methods_eq_nil (by simp [tag]) (by simp [tag])]
      exact .refl _

theorem storable_reservedName_iff {n : Node} : n.Storable .reservedName ↔
    n.Storable .kindMarker ∧ ∀ m, n.method? = some m →
      m.isConstructor = decide (m.name = constructorName) := by
  simp only [Storable, reduceCtorEq, false_imp_iff, true_imp_iff, and_true, and_assoc]

end Node

namespace Adapter

theorem write_ok_iff (a : Adapter) (n : Node) (table : StringTable) (out : Array UInt8) :
    (∃ count e, a.write n (.start ⟨none, out⟩ table) = (.ok count, e)) ↔
      (n.frame a.layout).Writable := by
  obtain ⟨bs, e, -, hput, hw⟩ | ⟨bs, e, -, refusal, place, hput, -, hw⟩ :=
    Encoder.put_writes (n.frame a.layout) (e := .start ⟨none, out⟩ table) rfl
  · refine iff_of_true ⟨e.offset, e, ?_⟩ hw
    rw [write, hput]
  · refine iff_of_false ?_ hw
    rintro ⟨count, e', h⟩
    rw [write, hput] at h
    cases congrArg Prod.fst h

/-- A node that can be stored under kind markers can be stored under reserved names if its methods
keep to the name. -/
theorem v0_10_write_iff {n : Node} {t : StringTable} {bs : Bytes}
    (h : (n.frame .kindMarker).bytes? t = some bs) (table : StringTable) (out : Array UInt8) :
    (∃ count e, v0_10.write n (.start ⟨none, out⟩ table) = (.ok count, e)) ↔
      ∀ m ∈ n.methods, m.isConstructor = true ↔ m.name = constructorName := by
  have hstorable : ∀ m ∈ n.frames, m.Storable .kindMarker := by
    rw [← Node.writable_iff]
    exact Field.writable_of_bytes? h
  rw [write_ok_iff, Node.writable_iff]
  simp only [v0_10, Node.storable_reservedName_iff, Node.methods, List.mem_filterMap]
  constructor
  · rintro hframes m ⟨k, hk, hm⟩
    rw [(hframes k hk).2 m hm, decide_eq_true_iff]
  · intro hmethods k hk
    refine ⟨hstorable k hk, fun m hm ↦ ?_⟩
    rw [Bool.eq_iff_iff, decide_eq_true_iff]
    exact hmethods m ⟨k, hk, hm⟩

/-- A node that was read under reserved names can be written under kind markers, with the same table
and in one more byte for each of its methods; it is read from there as the same node, under the same
limit, and written back as the bytes from which it was read first. The other way, a node that was
read under kind markers can be written under reserved names if and only if just those of its methods
are constructors that have the name of one. -/
theorem migrate_of_load (scope : Scope) (maxDepth : Nat) (bytes : Bytes) (fault? : Option Fault)
    (n : Node) (c : Cursor) :
    (v0_10.load scope maxDepth .any (.start bytes (.ofFault? fault?)) = (.ok n, c) →
      ∃ consumed migrated : Bytes, bytes = consumed ++ c.rest ∧
        migrated.length = consumed.length + n.methods.length ∧
        (∀ out : Array UInt8, v0_11.write n (.start ⟨none, out⟩ scope.table) =
          (.ok migrated.length, { Encoder.start ⟨none, out ++ migrated⟩ scope.table with
            offset := migrated.length })) ∧
        (∀ further ending, v0_11.load scope maxDepth .any (.start (migrated ++ further) ending) =
          (.ok n, ⟨further, ending, migrated.length, []⟩)) ∧
        ∀ out : Array UInt8, v0_10.write n (.start ⟨none, out⟩ scope.table) =
          (.ok consumed.length, { Encoder.start ⟨none, out ++ consumed⟩ scope.table with
            offset := consumed.length })) ∧
    (v0_11.load scope maxDepth .any (.start bytes (.ofFault? fault?)) = (.ok n, c) →
      ∀ (table : StringTable) (out : Array UInt8),
        (∃ count e, v0_10.write n (.start ⟨none, out⟩ table) = (.ok count, e)) ↔
          ∀ m ∈ n.methods, m.isConstructor = true ↔ m.name = constructorName) := by
  constructor
  · intro h
    obtain ⟨consumed, rest, rfl, hG, rfl⟩ :=
      (Decoder.frame_parses ⟨scope, .reservedName, maxDepth⟩ maxDepth .top .any).sound h
    obtain ⟨hb, hread⟩ := (Decoder.accepts_iff _ _ _ _ _).1 hG
    -- The layouts differ in bytes alone, so that the node is as readable as it was.
    obtain ⟨migrated, hm, hlength⟩ := n.longer_frame scope.table consumed
      (Field.allBytes?_singleton.trans hb)
    rw [Field.allBytes?_singleton] at hm
    have hG' : Decoder.Accepts ⟨scope, .kindMarker, maxDepth⟩ maxDepth .any migrated n :=
      (Decoder.accepts_iff _ _ _ _ _).2 ⟨hm, hread⟩
    refine ⟨consumed, migrated, rfl, hlength, v0_11.write_of_bytes? hm, fun further ending ↦ ?_,
      v0_10.write_of_bytes? hb⟩
    have hload := (Decoder.frame_parses _ maxDepth .top .any).complete hG' further ending 0 []
    rwa [Nat.zero_add] at hload
  · intro h table out
    obtain ⟨consumed, rest, rfl, hG, rfl⟩ :=
      (Decoder.frame_parses ⟨scope, .kindMarker, maxDepth⟩ maxDepth .top .any).sound h
    exact v0_10_write_iff ((Decoder.accepts_iff _ _ _ _ _).1 hG).1 table out

theorem migrate_of_load_constructor :
    let scope : Scope := ⟨.ofList ["", "ctor"], TypeUniverse.resolve? ⟨[("", 0)]⟩⟩
    let ctor (kind : MethodKind) : Node :=
      .method ⟨⟨0⟩, "ctor", default, ⟨0, 0⟩, [], [], kind, false⟩
    (∃ consumed migrated : Bytes, migrated.length = consumed.length + 1 ∧
      ∀ further ending, v0_11.load scope 2 .any (.start (migrated ++ further) ending) =
        (.ok (ctor (.constructor [])), ⟨further, ending, migrated.length, []⟩)) ∧
    ∀ (table : StringTable) (out : Array UInt8),
      ¬ ∃ count e, v0_10.write (ctor .plain) (.start ⟨none, out⟩ table) = (.ok count, e) := by
  intro scope ctor
  have hread (kind : MethodKind) (hk : kind = .plain ∨ kind = .constructor []) :
      (ctor kind).Readable scope.types 2 := by
    obtain rfl | rfl := hk <;>
      simp [ctor, Node.Readable, Node.Settled, Node.ownTypes, Node.isPlaceholder, Node.embedded,
        Method.superCalls, default] <;> decide
  have hload (a : Adapter) (kind : MethodKind) (hk : kind = .plain ∨ kind = .constructor [])
      {bs : Bytes} (hb : ((ctor kind).frame a.layout).bytes? scope.table = some bs) :
      a.load scope 2 .any (.start (bs ++ []) (.ofFault? none)) =
        (.ok (ctor kind), ⟨[], .clean, 0 + bs.length, []⟩) := by
    have hG : Decoder.Accepts ⟨scope, a.layout, 2⟩ 2 .any bs (ctor kind) :=
      (Decoder.accepts_iff _ _ _ _ _).2 ⟨hb, hread kind hk⟩
    exact (Decoder.frame_parses _ 2 .top .any).complete hG [] .clean 0 []
  constructor
  · obtain ⟨consumed, migrated, -, hlength, -, hmigrated, -⟩ :=
      (migrate_of_load scope 2 _ none _ _).1 (hload v0_10 (.constructor []) (.inr rfl) rfl)
    rw [Node.methods_method] at hlength
    exact ⟨consumed, migrated, hlength, hmigrated⟩
  · intro table out
    rw [(migrate_of_load scope 2 _ none _ _).2 (hload v0_11 .plain (.inl rfl) rfl) table out,
      Node.methods_method, List.forall_mem_singleton]
    decide

end Adapter

end TreeBytecode
