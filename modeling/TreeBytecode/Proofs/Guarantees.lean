import TreeBytecode.Proofs.RoundTrip
import TreeBytecode.Proofs.Lookup
import TreeBytecode.Proofs.Strings

namespace TreeBytecode

open Wire

namespace Node

/-- What is known of a node that was read, not counting the nodes inside it. -/
structure Vouched (layout : Layout) (scope : Scope) (n : Node) : Prop where
  frozen : ∀ c, n = .classDef c → c.isFrozen = true
  /-- The index gives what a search from the end gives. -/
  lookup : ∀ c, n = .classDef c → ∀ name,
    c.member? name = c.members.reverse.find? fun m ↦ m.name == name
  members : ∀ c, n = .classDef c → ∀ m ∈ c.members, m.isSynthetic = false
  genuine : n.isPlaceholder = false
  types : ∀ r ∈ n.ownTypes, scope.types.typeRef? r.name = some r
  strings : ∀ s ∈ n.ownStrings, s ∈ scope.table
  names : layout = .reservedName → ∀ m, n = .method m →
    (m.isConstructor = true ↔ m.name = constructorName)

theorem Settled.vouched {layout : Layout} {scope : Scope} {n : Node} (h : n.Settled scope.types)
    (hstorable : n.Storable layout) (hstrings : ∀ s ∈ n.ownStrings, s ∈ scope.table) :
    n.Vouched layout scope := by
  obtain ⟨htypes, hgenuine, hclass⟩ := h
  constructor
  case frozen =>
    intro c hc
    rw [Class.isFrozen, (hclass c hc).2, Option.isSome_some]
  case lookup =>
    intro c hc name
    exact Class.member?_of_index (hclass c hc).2 name
  case members =>
    intro c hc
    exact (hclass c hc).1
  case genuine => exact hgenuine
  case types =>
    intro r hr
    rw [TypeResolver.typeRef?, htypes r hr, Option.map_some]
  case strings => exact hstrings
  case names =>
    rintro hl m rfl
    rw [hstorable.2.2 hl m rfl, decide_eq_true_iff]

end Node

/-- Whatever bytes were read, and whatever was expected of them, no more frames are nested in the
result than the limit allows, and the reader vouches for each of them. -/
theorem Adapter.vouched_of_load (a : Adapter) (scope : Scope) (maxDepth : Nat) (e : Expectation)
    {bytes : Bytes} {fault? : Option Fault} {v : e.Content} {c : Cursor}
    (h : a.load scope maxDepth e (.start bytes (.ofFault? fault?)) = (.ok v, c)) :
    (e.toNode v).depth ≤ maxDepth ∧ ∀ n ∈ (e.toNode v).frames, n.Vouched a.layout scope := by
  obtain ⟨bs, rest, -, haccepted, -⟩ :=
    (Decoder.frame_parses ⟨scope, a.layout, maxDepth⟩ maxDepth .top e).sound h
  obtain ⟨hbytes, hreadable⟩ := (Decoder.accepts_iff _ _ _ _ _).1 haccepted
  obtain ⟨hdepth, hsettled⟩ := Node.readable_iff.1 hreadable
  -- The bytes are those of the frame, so what is known of frames that were written holds as well.
  have hstorable := (Node.writable_iff a.layout (e.toNode v)).1 (Field.writable_of_bytes? hbytes)
  have hstrings := Node.mem_of_bytes? hbytes
  refine ⟨hdepth, fun n hn ↦ ?_⟩
  apply (hsettled n hn).vouched (hstorable n hn)
  intro s hs
  exact hstrings s (List.mem_flatMap.2 ⟨n, hn, hs⟩)

theorem Adapter.vouched_of_load_constructor :
    let scope : Scope := ⟨.ofList ["", "ctor"], TypeUniverse.resolve? ⟨[("", 0)]⟩⟩
    let m : Method := { (default : Method) with name := "ctor", kind := .constructor [] }
    let c : Class := { (default : Class) with
      members := [.method m], index := some [("ctor", 0)] }
    ∃ bytes cursor, Adapter.v0_10.load scope 3 (.only .classDef) (.start bytes .clean) =
        (.ok c, cursor) ∧ (Node.classDef c).depth ≤ 3 ∧
      ∀ n ∈ (Node.classDef c).frames, n.Vouched .reservedName scope := by
  intro scope m c
  have hleaf {n : Node} (h : n.embedded = []) : n.frames = [n] ∧ n.depth = 1 := by
    simp [Node.frames_eq n, Node.depth_eq n, h]
  have hclass : (Node.classDef c).embedded = [.method m] := rfl
  have hmethod : (Node.method m).embedded = [.position default, .codeBlock []] := rfl
  have hposition := hleaf (n := .position default) rfl
  have hblock := hleaf (n := .codeBlock []) rfl
  have hframes : (Node.classDef c).frames = [.classDef c, .method m, .position default,
      .codeBlock []] := by
    simp [Node.frames_eq (.classDef c), Node.frames_eq (.method m), hclass, hmethod, hposition,
      hblock]
  have hdepth : (Node.classDef c).depth ≤ 3 := by
    simp [Node.depth_eq (.classDef c), Node.depth_eq (.method m), hclass, hmethod, hposition,
      hblock]
  have htypes : ∀ r ∈ (Node.classDef c).typeRefs, scope.types r.name = some r.handle := by
    rw [Node.typeRefs, hframes]
    decide
  obtain ⟨bs, hbs⟩ : ∃ bs, ((Node.classDef c).frame .reservedName).bytes? scope.table = some bs :=
    ⟨_, rfl⟩
  have hload := Adapter.v0_10.load_of_bytes? (e := .only .classDef) (v := c) hbs htypes hdepth rfl
    [] (.ofFault? none)
  rw [List.append_nil] at hload
  obtain ⟨hd, hv⟩ := Adapter.v0_10.vouched_of_load scope 3 (.only .classDef) (v := c) hload
  exact ⟨_, _, hload, hd, hv⟩

end TreeBytecode
