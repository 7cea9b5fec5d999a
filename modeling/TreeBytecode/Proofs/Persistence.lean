import TreeBytecode.Proofs.Nesting

namespace TreeBytecode

open Wire

theorem ClassMember.toNode_persisted (m : ClassMember) :
    m.persisted.toNode = m.toNode.persisted := by
  cases m <;> rfl

theorem declared_persistedMembers (ms : List ClassMember) :
    declared (persistedMembers ms) = (declared ms).map ClassMember.persisted := by
  rw [persistedMembers_eq, declared, List.filter_map]
  refine congrArg _ (List.filter_eq_self.2 fun m hm ↦ ?_)
  simpa only [Function.comp_apply, ClassMember.isSynthetic_persisted] using
    (List.mem_filter.1 hm).2

namespace Node

/-- No class stands directly inside a node that is no class. -/
theorem persisted_of_mem_embedded {m n : Node} (hn : n.tag ≠ .classDef) (h : m ∈ n.embedded) :
    m.persisted = m := by
  cases n with
  | classDef c => exact absurd rfl hn
  | method d =>
    obtain rfl | ⟨p, -, rfl⟩ | rfl | ⟨c, -, rfl⟩ := mem_embedded_method.1 h <;> rfl
  | property p =>
    obtain rfl | ⟨b, -, rfl⟩ | ⟨b, -, rfl⟩ | ⟨b, -, rfl⟩ := mem_embedded_property.1 h <;> rfl
  | codeBlock b =>
    obtain ⟨s, -, rfl⟩ := mem_embedded_codeBlock.1 h
    rfl
  | statement s =>
    obtain ⟨c, -, rfl⟩ | ⟨b, -, rfl⟩ := mem_embedded_statement.1 h <;> rfl
  | component c =>
    obtain ⟨s, -, rfl⟩ | rfl | ⟨s, -, rfl⟩ | ⟨s, -, rfl⟩ | ⟨d, -, rfl⟩ | ⟨d, -, rfl⟩ |
      ⟨d, -, rfl⟩ | ⟨b, -, rfl⟩ := mem_embedded_component.1 h <;> rfl
  | byte | int32 | uint32 | uint64 | string | parameter | position =>
    exact absurd h List.not_mem_nil

theorem persisted_of_tag_ne {n : Node} (hn : n.tag ≠ .classDef) : n.persisted = n := by
  cases n with
  | classDef => exact absurd rfl hn
  | _ => rfl

theorem embedded_persisted (n : Node) : n.persisted.embedded = n.embedded.map persisted := by
  by_cases hn : n.tag = .classDef
  · cases n with
    | classDef c =>
      obtain ⟨kind, modifiers, name, imports, supers, interfaces, members, parameters, index⟩ := c
      simp only [persisted, Class.persisted, embedded, Class.declaredMembers, List.map_append,
        List.map_map, declared_persistedMembers]
      congr 3
      exact funext ClassMember.toNode_persisted
    | _ => exact absurd hn (by simp [tag])
  · rw [persisted_of_tag_ne hn]
    exact (List.map_id _).symm.trans
      (List.map_congr_left fun m hm ↦ (persisted_of_mem_embedded hn hm).symm)

theorem frames_persisted (n : Node) : n.persisted.frames = n.frames.map persisted := by
  induction n using induction with
  | step n ih =>
    rw [frames_eq, frames_eq n, embedded_persisted, List.map_cons, List.flatMap_map,
      List.map_flatMap]
    refine congrArg _ ?_
    simp only [List.flatMap_def]
    exact congrArg _ (List.map_congr_left ih)

theorem depth_persisted (n : Node) : n.persisted.depth = n.depth := by
  induction n using induction with
  | step n ih =>
    rw [depth_eq, depth_eq n, embedded_persisted, List.map_map]
    exact congrArg (fun ks ↦ 1 + List.foldr max 0 ks) (List.map_congr_left ih)

theorem ownTypes_persisted (n : Node) : n.persisted.ownTypes = n.ownTypes := by
  cases n with
  | classDef c => cases c; rfl
  | _ => rfl

theorem persisted_persisted (n : Node) : n.persisted.persisted = n.persisted := by
  induction n using induction with
  | step n ih =>
    cases n with
    | classDef c =>
      have hm : (declared c.members).map ((fun m ↦ m.persisted) ∘ ClassMember.persisted) =
          (declared c.members).map ClassMember.persisted := by
        refine List.map_congr_left fun m hm ↦ ?_
        have he := ih m.toNode (mem_embedded_classDef.2 (.inr (.inr (.inr (.inl ⟨m, hm, rfl⟩)))))
        cases m with
        | method | property => rfl
        | nested d => exact congrArg _ (classDef.inj he)
      obtain ⟨kind, modifiers, name, imports, supers, interfaces, members, parameters, index⟩ := c
      simp only [persisted, Class.persisted, persistedMembers_eq (persistedMembers members),
        declared_persistedMembers, List.map_map]
      rw [hm, persistedMembers_eq]
    | _ => rfl

theorem persisted_beq (n : Node) : (n.persisted == n) = true :=
  (same_iff_persisted_eq _ _).2 n.persisted_persisted

/-- What is written of a node is what is left of it. -/
theorem frame_persisted (layout : Layout) (n : Node) :
    n.persisted.frame layout = n.frame layout := by
  induction n using induction with
  | step n ih =>
    cases n with
    | classDef c =>
      have hm : (declared c.members).map (ClassMember.frame layout ∘ ClassMember.persisted) =
          (declared c.members).map (ClassMember.frame layout) := by
        refine List.map_congr_left fun m hm ↦ ?_
        have he := ih m.toNode (mem_embedded_classDef.2 (.inr (.inr (.inr (.inl ⟨m, hm, rfl⟩)))))
        rw [Function.comp_apply, ClassMember.frame_eq, ClassMember.frame_eq,
          ClassMember.toNode_persisted, he]
      obtain ⟨kind, modifiers, name, imports, supers, interfaces, members, parameters, index⟩ := c
      simp only [persisted, frame, fields, tag, Class.persisted, Class.fields, memberFrames_eq,
        declared_persistedMembers, List.map_map, hm]
    | _ => rfl

/-- A node as it stands in memory after reading, not counting the nodes inside it: types carry the
handles of the universe, there are no placeholders, and a class is frozen. -/
def Settled (types : TypeResolver) (n : Node) : Prop :=
  (∀ r ∈ n.ownTypes, types r.name = some r.handle) ∧ n.isPlaceholder = false ∧
    ∀ c, n = .classDef c →
      (∀ m ∈ c.members, m.isSynthetic = false) ∧ c.index = some (memberIndex c.members)

/-- All frames of a node are settled, and no more than `levels` of them are nested. -/
def Readable (types : TypeResolver) : (levels : Nat) → Node → Prop
  | 0, _ => False
  | levels + 1, n => n.Settled types ∧ ∀ m ∈ n.embedded, m.Readable types levels

variable {types : TypeResolver}

theorem readable_iff {levels : Nat} {n : Node} :
    n.Readable types levels ↔ n.depth ≤ levels ∧ ∀ m ∈ n.frames, m.Settled types := by
  induction levels generalizing n with
  | zero =>
    have := n.depth_pos
    simp only [Readable, false_iff, not_and]
    omega
  | succ levels ih =>
    rw [Readable, depth_le_succ_iff, forall_frames]
    constructor
    · rintro ⟨hs, h⟩
      exact ⟨fun m hm ↦ (ih.1 (h m hm)).1, hs, fun m hm ↦ (ih.1 (h m hm)).2⟩
    · rintro ⟨hd, hs, h⟩
      exact ⟨hs, fun m hm ↦ ih.2 ⟨hd m hm, h m hm⟩⟩

theorem settled_persisted {n : Node} (hp : n.isPlaceholder = false)
    (ht : ∀ r ∈ n.ownTypes, types r.name = some r.handle) :
    n.persisted.Settled types := by
  refine ⟨by rwa [ownTypes_persisted], ?_, ?_⟩
  · cases n <;> first | rfl | exact hp
  · rintro c hc
    cases n with
    | classDef d =>
      obtain ⟨kind, modifiers, name, imports, supers, interfaces, members, parameters, index⟩ := d
      obtain rfl := classDef.inj hc
      refine ⟨fun m hm ↦ ?_, rfl⟩
      simp only [Class.persisted, persistedMembers_eq, List.mem_map] at hm
      obtain ⟨k, hk, rfl⟩ := hm
      simpa only [ClassMember.isSynthetic_persisted, Bool.not_eq_true'] using
        (List.mem_filter.1 hk).2
    | _ => exact absurd hc (by simp [persisted])

theorem readable_persisted {levels : Nat} {n : Node} (hp : n.isPlaceholder = false)
    (ht : ∀ r ∈ n.typeRefs, types r.name = some r.handle) (hd : n.depth ≤ levels) :
    n.persisted.Readable types levels := by
  refine readable_iff.2 ⟨by rwa [depth_persisted], ?_⟩
  rw [frames_persisted, List.forall_mem_map]
  intro m hm
  exact settled_persisted (isPlaceholder_of_mem_frames hm hp)
    fun r hr ↦ ht r (List.mem_flatMap.2 ⟨m, hm, hr⟩)

end Node

end TreeBytecode
