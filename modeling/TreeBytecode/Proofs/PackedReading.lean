import TreeBytecode.Artifact
import TreeBytecode.Proofs.Demands
import TreeBytecode.Proofs.Runs
import TreeBytecode.StringTable.SideFile

namespace TreeBytecode

namespace Wire

variable {α β : Type}

namespace Cursor

structure Packs (c d : Cursor) : Prop where
  clean : d.ending = .clean
  holds : c.Holds d.rest
  offset : c.offset = d.offset
  frames : c.frames = d.frames

variable {c d : Cursor}

theorem Packs.location (h : c.Packs d) : c.location = d.location := by
  rw [Cursor.location, Cursor.location, h.offset, h.frames]

theorem Packs.depth (h : c.Packs d) : c.depth = d.depth := by
  rw [Cursor.depth, Cursor.depth, h.frames]

theorem Packs.enter (h : c.Packs d) (t : Tag) : (c.enter t).Packs (d.enter t) :=
  ⟨h.clean, h.holds, h.offset, congrArg (List.cons t) h.frames⟩

theorem Packs.leave (h : c.Packs d) : c.leave.Packs d.leave :=
  ⟨h.clean, h.holds, h.offset, congrArg List.tail h.frames⟩

theorem Packs.restart (h : c.Packs d) : (start c.rest c.ending).Packs (start d.rest d.ending) :=
  ⟨h.clean, h.holds, rfl, rfl⟩

theorem Packs.fill (h : c.Packs d) (count : Nat) : (c.fill count).Packs (d.fill count) ∧
    (c.fill count).rest.take count = (d.fill count).rest.take count := by
  obtain ⟨hholds, htake, hoffset, hframes⟩ := fill_of_holds h.holds count
  have hd : d.fill count = d := by
    obtain ⟨rest, ending, offset, frames⟩ := d
    obtain rfl : ending = .clean := h.clean
    exact fill_clean ..
  rw [hd]
  exact ⟨⟨h.clean, hholds, hoffset.trans h.offset, hframes.trans h.frames⟩, htake⟩

theorem Packs.endFault? (h : c.Packs d) : c.endFault? = none ∧ d.endFault? = none :=
  ⟨endFault?_of_holds h.holds, by rw [Cursor.endFault?, h.clean]⟩

theorem Packs.drop (h : c.Packs d) {count : Nat}
    (hcount : ((d.fill count).rest.take count).length = count) :
    Packs { c.fill count with
        rest := (c.fill count).rest.drop count, offset := (c.fill count).offset + count }
      { d.fill count with
        rest := (d.fill count).rest.drop count, offset := (d.fill count).offset + count } := by
  obtain ⟨hfill, htake⟩ := h.fill count
  obtain ⟨more, hrest, hmore⟩ := hfill.holds
  rw [← htake, List.length_take] at hcount
  refine ⟨hfill.clean, ⟨more, ?_, hmore⟩, congrArg (· + count) hfill.offset, hfill.frames⟩
  dsimp only
  rw [hrest, List.drop_append_of_le_length (by omega)]

end Cursor

/-- A step that comes to the same on a packed stream and on a plain one. -/
def Step.SeesThrough (x : Step Cursor α) : Prop :=
  ∀ c d, c.Packs d → (∃ f c' d', x c = (.error f, c') ∧ x d = (.error f, d')) ∨
    ∃ a c' d', x c = (.ok a, c') ∧ x d = (.ok a, d') ∧ c'.Packs d'

namespace Step.SeesThrough

theorem pure (a : α) : (Pure.pure a : Step Cursor α).SeesThrough :=
  fun c d h ↦ .inr ⟨a, c, d, rfl, rfl, h⟩

theorem fail (f : Failure) : (Step.fail f : Step Cursor α).SeesThrough :=
  fun c d _ ↦ .inl ⟨f, c, d, rfl, rfl⟩

theorem bind {x : Step Cursor β} {k : β → Step Cursor α} (hx : x.SeesThrough)
    (hk : ∀ b, (k b).SeesThrough) : (x >>= k).SeesThrough := by
  intro c d h
  obtain ⟨f, c', d', hc, hd⟩ | ⟨b, c', d', hc, hd, h'⟩ := hx c d h
  · exact .inl ⟨f, c', d', Step.bind_of_error hc, Step.bind_of_error hd⟩
  · rw [Step.bind_of_ok hc, Step.bind_of_ok hd]
    exact hk b c' d' h'

theorem judged {x : Step Cursor β} {judge : β → Location → Except Failure α}
    (hx : x.SeesThrough) : (x.judged judge).SeesThrough := by
  intro c d h
  simp only [Step.judged, h.location]
  obtain ⟨f, c', d', hc, hd⟩ | ⟨b, c', d', hc, hd, h'⟩ := hx c d h
  · exact .inl ⟨f, c', d', by rw [hc], by rw [hd]⟩
  · rw [hc, hd]
    cases hj : judge b d.location with
    | error f => exact .inl ⟨f, c', d', by simp only [hj], by simp only [hj]⟩
    | ok a => exact .inr ⟨a, c', d', by simp only [hj], by simp only [hj], h'⟩

theorem within {x : Step Cursor α} (hx : x.SeesThrough) (t : Tag) : (x.within t).SeesThrough := by
  intro c d h
  obtain ⟨f, c', d', hc, hd⟩ | ⟨a, c', d', hc, hd, h'⟩ := hx _ _ (h.enter t)
  · exact .inl ⟨f, c', d', by simp only [Step.within, hc], by simp only [Step.within, hd]⟩
  · exact .inr ⟨a, c'.leave, d'.leave, by simp only [Step.within, hc],
      by simp only [Step.within, hd], h'.leave⟩

theorem result_eq {x : Step Cursor α} (hx : x.SeesThrough) {c d : Cursor} (h : c.Packs d) :
    x.result c = x.result d := by
  obtain ⟨f, c', d', hc, hd⟩ | ⟨a, c', d', hc, hd, -⟩ := hx c d h
  · rw [Step.result, Step.result, hc, hd]
  · rw [Step.result, Step.result, hc, hd]

end Step.SeesThrough

namespace Cursor

theorem readWord_seesThrough (width : Nat) : (readWord width).SeesThrough := by
  intro c d h
  obtain ⟨hfill, htake⟩ := h.fill width
  simp only [readWord, htake, hfill.location, hfill.endFault?]
  split
  · next hl => exact .inr ⟨_, _, _, rfl, rfl, h.drop hl⟩
  · exact .inl ⟨_, _, _, rfl, rfl⟩

theorem readBytes_seesThrough (count : Nat) : (readBytes count).SeesThrough := by
  intro c d h
  obtain ⟨hfill, htake⟩ := h.fill count
  simp only [readBytes, htake, hfill.location, hfill.endFault?]
  split
  · next hl => exact .inr ⟨_, _, _, rfl, rfl, h.drop hl⟩
  · exact .inl ⟨_, _, _, rfl, rfl⟩

end Cursor

theorem Plan.seesThrough {scope : Scope} {frame : (e : Expectation) → Step Cursor e.Content}
    (hframe : ∀ e, (frame e).SeesThrough) (p : Plan α) :
    Step.SeesThrough (p.run scope frame) := by
  induction p with
  | pure a => exact .pure a
  | bind first next ih₁ ih₂ =>
    rw [run_bind]
    exact ih₁.bind ih₂
  | word width => exact Cursor.readWord_seesThrough width
  | bytes count => exact Cursor.readBytes_seesThrough count
  | text =>
    rw [run_text]
    exact (Cursor.readWord_seesThrough 4).judged
  | typed name ih =>
    rw [run_typed]
    exact ih.judged
  | checked value check ih =>
    rw [run_checked]
    exact ih.judged
  | child e => exact hframe e

end Wire

open Wire

theorem Decoder.opening_seesThrough (p : Placement) (e : Expectation) :
    (opening p e).SeesThrough := by
  have htag : Plan.tag.runPlain.SeesThrough := Plan.seesThrough (fun _ ↦ .fail _) Plan.tag
  rw [opening_eq]
  exact htag.judged

theorem Decoder.frame_seesThrough (d : Decoder) (levels : Nat) (p : Placement) (e : Expectation) :
    (d.frame levels p e).SeesThrough := by
  induction levels generalizing p e with
  | zero =>
    rw [frame_zero]
    exact (opening_seesThrough p e).judged
  | succ levels ih =>
    have hbody (t : Tag) :
        Step.SeesThrough ((Node.plan d.layout t).run d.scope (d.frame levels .embedded)) :=
      Plan.seesThrough (ih .embedded) (Node.plan d.layout t)
    rw [frame_succ]
    exact ((opening_seesThrough p e).bind fun t ↦ (hbody t).within t).judged

theorem Adapter.load_seesThrough (a : Adapter) (scope : Scope) (maxDepth : Nat) (e : Expectation) :
    (a.load scope maxDepth e).SeesThrough := by
  intro c d h
  simp only [Adapter.load, Decoder.load, h.depth]
  exact Decoder.frame_seesThrough _ _ _ _ c d h

theorem Header.read_seesThrough : Header.read.SeesThrough := by
  intro c d h
  simp only [Header.read]
  obtain ⟨f, c', d', hc, hd⟩ | ⟨bs, c', d', hc, hd, h'⟩ :=
    Cursor.readBytes_seesThrough Header.size c d h
  · rw [hc, hd]
    exact .inl ⟨f, c', d', rfl, rfl⟩
  · rw [hc, hd]
    dsimp only
    split
    · exact .inr ⟨_, c', d', rfl, rfl, h'⟩
    · exact .inl ⟨_, c', d', rfl, rfl⟩

theorem Artifact.read_seesThrough (r : Registry) (scope : Scope) (maxDepth : Nat)
    (e : Expectation) : (Artifact.read r scope maxDepth e).SeesThrough := by
  intro c d h
  simp only [Artifact.read]
  obtain ⟨f, c', d', hc, hd⟩ | ⟨header, c', d', hc, hd, h'⟩ := Header.read_seesThrough c d h
  · rw [hc, hd]
    exact .inl ⟨f, c', d', rfl, rfl⟩
  · rw [hc, hd]
    dsimp only
    split
    · next a _ => exact a.load_seesThrough scope maxDepth e _ _ h'.restart
    · exact .inl ⟨_, c', d', rfl, rfl⟩

theorem StringTable.load_seesThrough : StringTable.load.SeesThrough :=
  Plan.seesThrough (fun _ ↦ .fail _) StringTable.plan

/-- A stream is read from the beginning as its content is. -/
theorem Compression.open_packs {z : TreeBytecode.Stream.Codec} (hz : z.ReadsBack) (c : Compression)
    (content : Bytes) :
    (c.open_ z (c.pack z content) Option.none).Packs (.start content .clean) := by
  refine ⟨rfl, c.open_holds hz content, ?_, ?_⟩
  · cases c <;> rfl
  · cases c <;> rfl

end TreeBytecode
