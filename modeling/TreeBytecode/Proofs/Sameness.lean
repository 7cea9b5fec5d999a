import TreeBytecode.Proofs.RoundTrip

namespace TreeBytecode

open Wire

namespace Node

/-- Neither placeholders nor indexes reach the frame, on any level of classes. -/
theorem frame_eq_of_same {m n : Node} (h : (m == n) = true) (layout : Layout) :
    m.frame layout = n.frame layout := by
  have hpersisted : m.persisted = n.persisted := (same_iff_persisted_eq m n).1 h
  rw [← frame_persisted layout m, hpersisted, frame_persisted]

/-- A reader takes the bytes for what is persisted of either node, and there is only one node that
it can take them for. -/
theorem same_of_bytes? {m n : Node} {layout : Layout} {table : StringTable} {types : TypeResolver}
    {bs : Bytes} (hm : (m.frame layout).bytes? table = some bs)
    (hn : (n.frame layout).bytes? table = some bs)
    (htm : ∀ r ∈ m.typeRefs, types r.name = some r.handle)
    (htn : ∀ r ∈ n.typeRefs, types r.name = some r.handle) : (m == n) = true := by
  let levels := max m.depth n.depth
  let d : Decoder := ⟨⟨table, types⟩, layout, levels⟩
  have hleft : d.Accepts levels .any bs m.persisted :=
    d.accepts_of_bytes? hm htm (Nat.le_max_left _ _) rfl
  have hright : d.Accepts levels .any bs n.persisted :=
    d.accepts_of_bytes? hn htn (Nat.le_max_right _ _) rfl
  have hparses := d.frame_parses levels .top .any
  have hone : m.persisted = n.persisted := (hparses.unique hleft hright (Eq.refl (bs ++ []))).1
  apply (same_iff_persisted_eq m n).2
  exact hone

end Node

namespace Adapter

/-- Nodes that are the same are written alike, wherever the writer stands and whether or not it
succeeds. Nodes of which the same bytes were written, from one table to another, are the same. -/
theorem same_iff_written_alike (a : Adapter) (m n : Node) :
    ((m == n) = true → ∀ e, a.write m e = a.write n e) ∧
    ∀ (sink : Sink) (table : StringTable) (types : TypeResolver) {count count' : Nat}
      {e e' : Encoder}, a.write m (.start sink table) = (.ok count, e) →
      a.write n (.start sink table) = (.ok count', e') → e.sink.bytes = e'.sink.bytes →
      e.table = e'.table → e.table.size ≤ UInt32.size →
      (∀ r ∈ m.typeRefs ++ n.typeRefs, types r.name = some r.handle) →
      (m == n) = true := by
  constructor
  · intro h e
    rw [write, write, Node.frame_eq_of_same h]
  · intro sink table types count count' e e' hm hn hbytes htable hsize htypes
    obtain ⟨bs, hbs, -, -, hframe⟩ := write_ok hm
    obtain ⟨bs', hbs', -, -, hframe'⟩ := write_ok hn
    have heq : sink.bytes ++ bs = sink.bytes ++ bs' := by
      rw [← hbs, hbytes, hbs']
    obtain rfl := List.append_cancel_left heq
    rw [← htable] at hframe'
    have hleft := hframe e.table List.prefix_rfl hsize
    have hright := hframe' e.table List.prefix_rfl hsize
    obtain ⟨htm, htn⟩ := List.forall_mem_append.1 htypes
    exact Node.same_of_bytes? hleft hright htm htn

theorem same_iff_written_alike_classes :
    let c : Class := { (default : Class) with superclasses := [⟨"", 0⟩] }
    let m : Node := .classDef { c with
      members := [.method { (default : Method) with synthetic := true }] }
    let n : Node := .classDef { c with index := some [] }
    (∀ e, v0_10.write m e = v0_10.write n e) ∧ ∃ count e e',
      v0_10.write m (.start (.empty none) (.ofList [""])) = (.ok count, e) ∧
      v0_10.write n (.start (.empty none) (.ofList [""])) = (.ok count, e') ∧
      e.sink.bytes = e'.sink.bytes ∧ (m == n) = true := by
  intro c m n
  obtain ⟨bs, hm⟩ : ∃ bs, (m.frame v0_10.layout).bytes? (.ofList [""]) = some bs := ⟨_, rfl⟩
  have hn : (n.frame v0_10.layout).bytes? (.ofList [""]) = some bs := hm
  have hmw := v0_10.write_of_bytes? hm #[]
  have hnw := v0_10.write_of_bytes? hn #[]
  have htypes {k : Node} (hembedded : k.embedded = [.string ""])
      (hown : k.ownTypes = [⟨"", 0⟩]) : k.typeRefs = [⟨"", 0⟩] := by
    have hstring : (Node.string "").frames = [.string ""] := by rw [Node.frames_eq]; rfl
    rw [Node.typeRefs, Node.frames_eq, hembedded]
    simp only [List.flatMap_cons, List.flatMap_nil, hown, hstring, List.append_nil]
    rfl
  have hresolved : ∀ r ∈ m.typeRefs ++ n.typeRefs,
      TypeUniverse.resolve? ⟨[("", 0)]⟩ r.name = some r.handle := by
    rw [htypes (k := m) rfl rfl, htypes (k := n) rfl rfl]
    decide
  have hsize : StringTable.size (.ofList [""]) ≤ UInt32.size := by decide
  have hsame := (v0_10.same_iff_written_alike m n).2 _ _ (TypeUniverse.resolve? ⟨[("", 0)]⟩)
    hmw hnw rfl rfl hsize hresolved
  exact ⟨(v0_10.same_iff_written_alike m n).1 rfl, _, _, _, hmw, hnw, rfl, hsame⟩

end Adapter

end TreeBytecode
