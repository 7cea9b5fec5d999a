import Mathlib.Data.List.Forall2
import TreeBytecode.Proofs.RoundTrip
import TreeBytecode.Proofs.Shape

namespace TreeBytecode

open Wire

namespace Piece

variable {S : Node → Bytes → Prop} {layout : Layout} {ps qs : List Piece} {bs cs : Bytes}

/-- Bytes for a row of pieces, with bytes for a node wherever its frame is. -/
inductive Row (S : Node → Bytes → Prop) : List Piece → Bytes → Prop
  | nil : Row S [] []
  | own {count : Nat} {ps : List Piece} {bs cs : Bytes} (h : bs.length = count)
      (rest : Row S ps cs) : Row S (.own count :: ps) (bs ++ cs)
  | inner {m : Node} {ps : List Piece} {bs cs : Bytes} (h : S m bs) (rest : Row S ps cs) :
      Row S (.inner m :: ps) (bs ++ cs)

namespace Row

theorem single {count : Nat} (h : bs.length = count) : Row S [.own count] bs := by
  have := Row.own (S := S) h .nil
  rwa [List.append_nil] at this

theorem append (h : Row S ps bs) (h' : Row S qs cs) : Row S (ps ++ qs) (bs ++ cs) := by
  induction h with
  | nil => exact h'
  | own hl _ ih =>
    rw [List.append_assoc]
    exact .own hl ih
  | inner hm _ ih =>
    rw [List.append_assoc]
    exact .inner hm ih

theorem length_eq (hS : ∀ m bs, S m bs → bs.length = m.width layout) (h : Row S ps bs) :
    bs.length = widths layout ps := by
  induction h with
  | nil => rfl
  | own hl _ ih => rw [List.length_append, widths_cons, ih, hl, width]
  | inner hm _ ih => rw [List.length_append, widths_cons, ih, hS _ _ hm, width]

end Row

def Tagged (bs : Bytes) (offset : Nat) (place : Location) (m : Node) : Prop :=
  ∃ k, place.offset = offset + k ∧ bs[k]? = some m.tag.code

theorem Tagged.append {offset : Nat} {place : Location} {m : Node} (h : Tagged bs offset place m)
    (cs : Bytes) : Tagged (bs ++ cs) offset place m := by
  obtain ⟨k, hk, htag⟩ := h
  exact ⟨k, hk, by rw [List.getElem?_append_left (List.getElem?_eq_some_iff.1 htag).1, htag]⟩

theorem Tagged.append_left (bs : Bytes) {offset : Nat} {place : Location} {m : Node}
    (h : Tagged cs (offset + bs.length) place m) : Tagged (bs ++ cs) offset place m := by
  obtain ⟨k, hk, htag⟩ := h
  refine ⟨bs.length + k, by rw [hk, Nat.add_assoc], ?_⟩
  rwa [List.getElem?_append_right (Nat.le_add_right _ _), Nat.add_sub_cancel_left]

theorem Tagged.getElem? {place : Location} {m : Node} (h : Tagged bs 0 place m) (rest : Bytes) :
    (bs ++ rest)[place.offset]? = some m.tag.code := by
  obtain ⟨k, hk, htag⟩ := h.append rest
  rwa [hk, Nat.zero_add]

theorem Row.tags {f : Nat → Node → List Location} {g : Node → List Node} (h : Row S ps bs)
    (hS : ∀ m bs, S m bs → bs.length = m.width layout)
    (hf : ∀ m bs offset, S m bs → List.Forall₂ (Tagged bs offset) (f offset m) (g m))
    (offset : Nat) :
    List.Forall₂ (Tagged bs offset) (collect layout f offset ps) ((nodes ps).flatMap g) := by
  induction h generalizing offset with
  | nil => exact .nil
  | own hl _ ih =>
    rw [collect, nodes, ← hl]
    exact (ih _).imp fun _ _ ↦ Tagged.append_left _
  | inner hm _ ih =>
    rw [collect, nodes, List.flatMap_cons, ← hS _ _ hm]
    exact List.rel_append ((hf _ _ offset hm).imp fun _ _ ht ↦ ht.append _)
      ((ih _).imp fun _ _ ↦ Tagged.append_left _)

end Piece

theorem Wire.Plan.rows {scope : Scope} {G : (e : Expectation) → Grammar e.Content}
    {S : Node → Bytes → Prop} (h : ∀ e bs v, G e bs v → S (e.toNode v) bs) {α : Type} (p : Plan α)
    {bs : Bytes} {a : α} (ha : p.Yields scope G bs a) :
    ∃ ps, p.Spells ps a ∧ Piece.Row S ps bs := by
  induction p generalizing bs with
  | pure b =>
    obtain ⟨rfl, rfl⟩ := ha
    exact ⟨[], ⟨rfl, rfl⟩, .nil⟩
  | bind first next ih₁ ih₂ =>
    obtain ⟨b, bs₁, bs₂, h₁, h₂, rfl⟩ := ha
    obtain ⟨ps₁, hs₁, hr₁⟩ := ih₁ h₁
    obtain ⟨ps₂, hs₂, hr₂⟩ := ih₂ b h₂
    exact ⟨ps₁ ++ ps₂, ⟨b, ps₁, ps₂, hs₁, hs₂, rfl⟩, hr₁.append hr₂⟩
  | word | bytes | text => exact ⟨_, rfl, .single ha.1⟩
  | typed name ih =>
    obtain ⟨s, hs, ht⟩ := ha
    obtain ⟨handle, -, rfl⟩ := Option.map_eq_some_iff.1 ht
    exact ih hs
  | checked value check ih =>
    obtain ⟨b, hb, hc⟩ := ha
    obtain ⟨ps, hs, hr⟩ := ih hb
    exact ⟨ps, ⟨b, hs, hc⟩, hr⟩
  | child e =>
    refine ⟨[.inner (e.toNode a)], rfl, ?_⟩
    have hr := Piece.Row.inner (h e bs a ha) .nil
    rwa [List.append_nil] at hr

namespace Decoder

variable {d : Decoder} {levels : Nat} {e : Expectation} {bs : Bytes} {v : e.Content}

theorem members_of_accepts (h : d.Accepts levels e bs v) (c : Class)
    (hc : e.toNode v = .classDef c) : ∀ m ∈ c.members, m.isSynthetic = false := by
  cases levels with
  | zero => exact h.elim
  | succ levels =>
    have hread := ((d.accepts_iff _ _ _ _).1 h).2
    exact (hread.1.2.2 c hc).1

/-- The bytes stand for the frame of a node with a number of levels at most. -/
def Frames (d : Decoder) (levels : Nat) (m : Node) (bs : Bytes) : Prop :=
  ∃ e v, m = Expectation.toNode e v ∧ d.Accepts levels e bs v

/-- Behind its tag, the frame of a node is the row of the node's pieces. -/
theorem row_of_accepts (h : d.Accepts (levels + 1) e bs v) : ∃ payload,
    bs = (e.toNode v).tag.code :: payload ∧
      Piece.Row (d.Frames levels) ((e.toNode v).pieces d.layout) payload := by
  have hmembers := members_of_accepts h
  obtain ⟨t, payload, n, rfl, -, hn, hv⟩ := h
  obtain rfl := Expectation.ofNode?_eq_some_iff.1 hv
  obtain ⟨ps, hs, hr⟩ := Plan.rows (S := d.Frames levels) (fun e bs v hv ↦ ⟨e, v, rfl, hv⟩)
    (Node.plan d.layout t) hn
  obtain rfl := Node.tag_of_plan_spells hs
  obtain rfl := Node.plan_spells hmembers hs
  exact ⟨payload, rfl, hr⟩

theorem length_of_accepts (h : d.Accepts levels e bs v) :
    bs.length = (e.toNode v).width d.layout := by
  induction levels generalizing e bs v with
  | zero => exact h.elim
  | succ levels ih =>
    obtain ⟨payload, rfl, hr⟩ := row_of_accepts h
    rw [List.length_cons, Node.width_eq, Nat.add_comm, hr.length_eq]
    rintro m bs ⟨e, v, rfl, hv⟩
    exact ih hv

/-- Where the frames of a level begin are the tags of the nodes of that level, one for each and in
their order. -/
theorem tags_of_accepts (below : Nat) (h : d.Accepts levels e bs v) (place : Location) :
    List.Forall₂ (Piece.Tagged bs place.offset) ((e.toNode v).starts d.layout below place)
      ((e.toNode v).level below) := by
  induction below generalizing levels e bs v place with
  | zero =>
    cases levels with
    | zero => exact h.elim
    | succ levels =>
      obtain ⟨payload, rfl, -⟩ := row_of_accepts h
      exact .cons ⟨0, rfl, rfl⟩ .nil
  | succ below ih =>
    cases levels with
    | zero => exact h.elim
    | succ levels =>
      obtain ⟨payload, rfl, hr⟩ := row_of_accepts h
      have htags := hr.tags (g := Node.level below)
        (f := fun offset m ↦ m.starts d.layout below ⟨some (e.toNode v).tag, offset⟩)
        (by
          rintro m bs ⟨e, v, rfl, hv⟩
          exact length_of_accepts hv)
        (by
          rintro m bs offset ⟨e, v, rfl, hv⟩
          exact ih hv ⟨_, offset⟩)
        (place.offset + 1)
      rw [Node.nodes_pieces] at htags
      exact htags.imp fun _ _ ↦ Piece.Tagged.append_left [_]

end Decoder

end TreeBytecode
