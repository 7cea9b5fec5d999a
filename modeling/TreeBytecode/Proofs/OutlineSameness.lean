import TreeBytecode.Outline.Node
import TreeBytecode.Proofs.RoundTrip

namespace TreeBytecode

open Wire

mutual

theorem Class.outline_persisted : ∀ c : Class, c.persisted.outline = c.outline
  | ⟨_, _, _, _, _, _, members, _, _⟩ => by
    simp only [Class.persisted, Class.outline, memberOutlines_persisted members]

theorem ClassMember.outline_persisted : ∀ m : ClassMember, m.persisted.outline = m.outline
  | .method _ | .property _ => rfl
  | .nested c => Class.outline_persisted c

theorem memberOutlines_persisted :
    ∀ ms : List ClassMember, memberOutlines (persistedMembers ms) = memberOutlines ms
  | [] => rfl
  | m :: ms => by
    by_cases h : m.isSynthetic
    · simp only [persistedMembers, memberOutlines, if_pos h, memberOutlines_persisted ms]
    · have h' : ¬m.persisted.isSynthetic := by rwa [ClassMember.isSynthetic_persisted]
      simp only [persistedMembers, memberOutlines, if_neg h, if_neg h',
        ClassMember.outline_persisted m, memberOutlines_persisted ms]

end

namespace Node

theorem outline_persisted (n : Node) : n.persisted.outline = n.outline := by
  cases n with
  | classDef c => exact c.outline_persisted
  | _ => rfl

theorem dump_persisted (n : Node) (p : Palette) : n.persisted.dump p = n.dump p := by
  rw [dump, outline_persisted, dump]

theorem dump_eq_of_same {m n : Node} (h : (m == n) = true) (p : Palette) :
    m.dump p = n.dump p := by
  have hpersisted : m.persisted = n.persisted := (same_iff_persisted_eq m n).1 h
  rw [← dump_persisted m, hpersisted, dump_persisted]

end Node

namespace Adapter

/-- Nodes that are the same are shown alike in all colours. So is each of the nodes that were
written one after another, and what is read in its place. -/
theorem shown_alike (a : Adapter) :
    (∀ m n : Node, (m == n) = true → ∀ p, m.dump p = n.dump p) ∧
    ∀ {ns : List Node} {sink sink' : Sink} {table table' : StringTable} (types : TypeResolver)
      (maxDepth : Nat), a.writeAll ns (sink, table) = (.ok (), (sink', table')) →
      table'.size ≤ UInt32.size →
      (∀ n ∈ ns, ∀ r ∈ n.typeRefs, types r.name = some r.handle) →
      (∀ n ∈ ns, n.depth ≤ maxDepth) →
      ∃ out ms, sink'.bytes = sink.bytes ++ out ∧
        (∀ further ending, a.loadAll ⟨table', types⟩ maxDepth ns.length (out ++ further, ending) =
          (.ok ms, (further, ending))) ∧
        ∀ p : Palette, ms.map (·.dump p) = ns.map (·.dump p) := by
  constructor
  · intro m n h p
    exact Node.dump_eq_of_same h p
  · intro ns sink sink' table table' types maxDepth hw hs ht hd
    obtain ⟨-, out, hbytes, hout⟩ := writeAll_ok hw hs
    refine ⟨out, ns.map Node.persisted, hbytes, a.loadAll_of_bytes? hout ht hd, fun p ↦ ?_⟩
    rw [List.map_map]
    exact List.map_congr_left fun n _ ↦ n.dump_persisted p

theorem shown_alike_classes :
    let m : Node := .classDef { (default : Class) with
      members := [.method { (default : Method) with synthetic := true }] }
    let n : Node := .classDef { (default : Class) with index := some [] }
    (∀ p, m.dump p = n.dump p) ∧ ∃ (out : Bytes) (ms : List Node),
      (∀ further ending, v0_10.loadAll ⟨.ofList [""], TypeUniverse.empty.resolve?⟩ 1 2
        (out ++ further, ending) = (.ok ms, (further, ending))) ∧
      ∀ p : Palette, ms.map (·.dump p) = [m.dump p, n.dump p] := by
  intro m n
  have hok : (v0_10.writeAll [m, n] (.empty none, .empty)).1.isOk = true := by decide +kernel
  have htable : (v0_10.writeAll [m, n] (.empty none, .empty)).2.2.words = [""] := by
    decide +kernel
  rcases hw : v0_10.writeAll [m, n] (.empty none, .empty) with ⟨r, sink, table⟩
  rw [hw] at hok htable
  obtain rfl : table = .ofList [""] := StringTable.ext htable
  cases r with
  | error => cases hok
  | ok =>
    have leaf (k : Node) (he : k.embedded = []) (ho : k.ownTypes = []) :
        (∀ r ∈ k.typeRefs, TypeUniverse.resolve? .empty r.name = some r.handle) ∧ k.depth ≤ 1 := by
      simp [Node.typeRefs, Node.frames_eq k, Node.depth_eq k, he, ho]
    have hn : ∀ k ∈ [m, n],
        (∀ r ∈ k.typeRefs, TypeUniverse.resolve? .empty r.name = some r.handle) ∧ k.depth ≤ 1 :=
      List.forall_mem_cons.2 ⟨leaf _ rfl rfl, List.forall_mem_singleton.2 (leaf _ rfl rfl)⟩
    obtain ⟨out, ms, -, hload, hdump⟩ :=
      v0_10.shown_alike.2 TypeUniverse.empty.resolve? 1 hw (by decide)
        (fun k hk ↦ (hn k hk).1) fun k hk ↦ (hn k hk).2
    exact ⟨v0_10.shown_alike.1 m n rfl, out, ms, hload, hdump⟩

end Adapter

end TreeBytecode
