import TreeBytecode.Proofs.RoundTrip

namespace TreeBytecode

namespace Wire

variable {α β : Type} {stop : Failure → Prop}

/-- The first step does the same as the second, unless it stops. -/
def Step.AgreesUntil (stop : Failure → Prop) (x y : Step Cursor α) : Prop :=
  ∀ c, x c = y c ∨ ∃ f d, stop f ∧ x c = (.error f, d)

namespace Step.AgreesUntil

theorem refl (x : Step Cursor α) : AgreesUntil stop x x := fun _ ↦ .inl rfl

theorem bind {x y : Step Cursor β} {k l : β → Step Cursor α} (h : AgreesUntil stop x y)
    (hk : ∀ b, AgreesUntil stop (k b) (l b)) : AgreesUntil stop (x >>= k) (y >>= l) := by
  intro c
  obtain he | ⟨f, d, hf, he⟩ := h c
  · rw [Step.bind_apply, Step.bind_apply, he]
    rcases y c with ⟨f | b, d⟩
    · exact .inl rfl
    · exact hk b d
  · exact .inr ⟨f, d, hf, Step.bind_of_error he⟩

theorem judged {x y : Step Cursor β} {judge judge' : β → Location → Except Failure α}
    (h : AgreesUntil stop x y)
    (hj : ∀ b at_, judge b at_ = judge' b at_ ∨ ∃ f, stop f ∧ judge b at_ = .error f) :
    AgreesUntil stop (x.judged judge) (y.judged judge') := by
  intro c
  simp only [Step.judged]
  obtain he | ⟨f, d, hf, he⟩ := h c
  · rw [he]
    rcases y c with ⟨f | b, d⟩
    · exact .inl rfl
    · obtain hb | ⟨f, hf, hb⟩ := hj b c.location
      · exact .inl (by simp only [hb])
      · exact .inr ⟨f, d, hf, by simp only [hb]⟩
  · exact .inr ⟨f, d, hf, by rw [he]⟩

theorem within {x y : Step Cursor α} (h : AgreesUntil stop x y) (t : Tag) :
    AgreesUntil stop (x.within t) (y.within t) := by
  intro c
  simp only [Step.within]
  obtain he | ⟨f, d, hf, he⟩ := h (c.enter t)
  · exact .inl (by rw [he])
  · exact .inr ⟨f, d, hf, by rw [he]⟩

end Step.AgreesUntil

structure Scope.AgreesUntil (stop : Failure → Prop) (s s' : Scope) : Prop where
  table (id : Nat) (place : Location) : s.table.get? id = s'.table.get? id ∨
    s.table.get? id = none ∧ stop (.unresolved (.stringId id) place)
  types (name : String) (place : Location) : s.types.typeRef? name = s'.types.typeRef? name ∨
    s.types.typeRef? name = none ∧ stop (.unresolved (.typeName name) place)

theorem Scope.AgreesUntil.refl (s : Scope) : s.AgreesUntil stop s where
  table _ _ := .inl rfl
  types _ _ := .inl rfl

theorem Scope.agreesUntil_of_prefix {s s' : Scope} (ht : s.table.words <+: s'.table.words)
    (hu : ∀ name handle, s.types name = some handle → s'.types name = some handle)
    (hstop : ∀ symbol place, stop (.unresolved symbol place)) : s.AgreesUntil stop s' := by
  constructor
  · intro id place
    cases hs : s.table.get? id with
    | none => exact .inr ⟨rfl, hstop _ _⟩
    | some w => exact .inl (StringTable.get?_mono ht hs).symm
  · intro name place
    simp only [TypeResolver.typeRef?]
    cases hs : s.types name with
    | none => exact .inr ⟨rfl, hstop _ _⟩
    | some handle => exact .inl (by rw [hu name handle hs])

theorem Plan.agreesUntil {s s' : Scope} {frame frame' : (e : Expectation) → Step Cursor e.Content}
    (hs : s.AgreesUntil stop s') (hframe : ∀ e, Step.AgreesUntil stop (frame e) (frame' e))
    (p : Plan α) : Step.AgreesUntil stop (p.run s frame) (p.run s' frame') := by
  induction p with
  | pure | word | bytes => exact .refl _
  | bind first next ih₁ ih₂ =>
    rw [run_bind, run_bind]
    exact ih₁.bind ih₂
  | text =>
    rw [run_text, run_text]
    refine .judged (.refl _) fun id at_ ↦ ?_
    obtain h | ⟨h, hstop⟩ := hs.table id at_
    · exact .inl (by rw [h])
    · exact .inr ⟨_, hstop, by rw [h]⟩
  | typed name ih =>
    rw [run_typed, run_typed]
    refine ih.judged fun name at_ ↦ ?_
    obtain h | ⟨h, hstop⟩ := hs.types name at_
    · exact .inl (by rw [h])
    · exact .inr ⟨_, hstop, by rw [h]⟩
  | checked value check ih =>
    rw [run_checked, run_checked]
    exact ih.judged fun _ _ ↦ .inl rfl
  | child e => exact hframe e

end Wire

open Wire

/-- Fewer levels and a smaller scope make no difference, unless the reader stops. -/
theorem Decoder.frame_agreesUntil {stop : Failure → Prop} (d : Decoder) {scope : Scope}
    {limit : Nat} (hs : d.scope.AgreesUntil stop scope) {levels levels' : Nat}
    (hlevels : levels ≤ levels')
    (hdeep : d.maxDepth = limit ∧ levels = levels' ∨ ∀ place, stop (.tooDeep d.maxDepth place))
    (p : Placement) (e : Expectation) :
    Step.AgreesUntil stop (d.frame levels p e) (frame ⟨scope, d.layout, limit⟩ levels' p e) := by
  induction levels generalizing levels' p e with
  | zero =>
    obtain ⟨rfl, rfl⟩ | hstop := hdeep
    · rw [frame_zero, frame_zero]
      exact .refl _
    · intro c
      rcases ho : opening p e c with ⟨f | t, c'⟩
      · refine .inl ?_
        cases levels' <;> simp only [frame, ho]
      · exact .inr ⟨_, c', hstop c.location, by simp only [frame, ho]⟩
  | succ levels ih =>
    obtain ⟨levels', rfl⟩ := Nat.exists_eq_add_one_of_ne_zero (Nat.ne_zero_of_lt hlevels)
    have hinner := ih (Nat.le_of_succ_le_succ hlevels)
      (hdeep.imp_left (And.imp_right Nat.succ.inj)) .embedded
    have hplan (t : Tag) : Step.AgreesUntil stop
        ((Node.plan d.layout t).run d.scope (d.frame levels .embedded))
        ((Node.plan d.layout t).run scope (frame ⟨scope, d.layout, limit⟩ levels' .embedded)) :=
      Plan.agreesUntil hs hinner (Node.plan d.layout t)
    rw [frame_succ, frame_succ]
    have hopening : Step.AgreesUntil stop (opening p e) (opening p e) := .refl _
    exact (hopening.bind fun t ↦ (hplan t).within t).judged fun _ _ ↦ .inl rfl

namespace Adapter

/-- Whatever a reader comes to, except for a name that is not known, it comes to when more strings
are interned and more types are declared: the same node or failure, and the same rest. -/
theorem load_of_grown (a : Adapter) (table : StringTable) (types : TypeUniverse) (maxDepth : Nat)
    (e : Expectation) (input : Cursor) {r : Except Failure e.Content} {c : Cursor}
    (h : a.load ⟨table, types.resolve?⟩ maxDepth e input = (r, c))
    (hr : ∀ symbol place, r ≠ .error (.unresolved symbol place)) (strings names : List String) :
    a.load ⟨strings.foldl (fun t s ↦ (t.intern s).2) table,
      (names.foldl (fun u s ↦ (u.declare s).2) types).resolve?⟩ maxDepth e input = (r, c) := by
  let grown : Scope := ⟨strings.foldl (fun t s ↦ (t.intern s).2) table,
    (names.foldl (fun u s ↦ (u.declare s).2) types).resolve?⟩
  let unresolved (f : Failure) : Prop := ∃ symbol place, f = .unresolved symbol place
  have hs : Scope.AgreesUntil unresolved ⟨table, types.resolve?⟩ grown :=
    Scope.agreesUntil_of_prefix (StringTable.prefix_foldl_insert table strings)
      (fun _ _ h ↦ TypeUniverse.resolve?_foldl_declare h names) fun symbol place ↦
        ⟨symbol, place, rfl⟩
  have hagree := Decoder.frame_agreesUntil ⟨⟨table, types.resolve?⟩, a.layout, maxDepth⟩ hs
    (Nat.le_refl (maxDepth - input.depth)) (.inl ⟨rfl, rfl⟩) .top e
  obtain heq | ⟨f, d, ⟨symbol, place, rfl⟩, hf⟩ := hagree input
  · exact heq.symm.trans h
  · exact absurd (congrArg Prod.fst (h.symm.trans hf)) (hr symbol place)

theorem load_of_grown_constructor : ∃ bs : Bytes, ∀ further ending,
    v0_10.load ⟨.ofList ["num", "ctor", "x"], TypeUniverse.resolve? ⟨[("num", 0), ("str", 1)]⟩⟩ 2
        .any (.start (bs ++ further) ending) =
      (.ok (.method ⟨⟨0⟩, "ctor", ⟨"num", 0⟩, ⟨0, 0⟩, [], [], .constructor [], false⟩),
        ⟨further, ending, bs.length, []⟩) := by
  let n : Node := .method ⟨⟨0⟩, "ctor", ⟨"num", 0⟩, ⟨0, 0⟩, [], [], .constructor [], false⟩
  let types : TypeUniverse := ⟨[("num", 0)]⟩
  let scope : Scope := ⟨.ofList ["num", "ctor"], types.resolve?⟩
  obtain ⟨bs, hb⟩ : ∃ bs, (n.frame v0_10.layout).bytes? scope.table = some bs := ⟨_, rfl⟩
  have ht : ∀ r ∈ n.typeRefs, scope.types r.name = some r.handle := by
    simp [n, Node.typeRefs, Node.frames_eq, Node.embedded, Node.ownTypes, Method.superCalls]
    decide
  have hd : n.depth ≤ 2 := by
    rw [Node.depth_eq]
    simp [n, Node.embedded, Method.superCalls, Node.depth_eq]
  refine ⟨bs, fun further ending ↦ ?_⟩
  have hload := v0_10.load_of_bytes? (e := .any) hb ht hd rfl further ending
  exact v0_10.load_of_grown scope.table types 2 .any _ hload (by simp) ["ctor", "x"] ["str"]

end Adapter

end TreeBytecode
