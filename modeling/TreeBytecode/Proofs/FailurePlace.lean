import TreeBytecode.Proofs.Locality
import TreeBytecode.Proofs.Regularity

namespace TreeBytecode

namespace Wire

variable {α β : Type} {plain : Bool}

/-- A judge finds fault with what was read, where it begins; that is never a want of bytes. -/
def Step.Blames (judge : β → Location → Except Failure α) : Prop :=
  ∀ b at_ f, judge b at_ = .error f →
    f.place? = some at_ ∧ ¬ Truncated (.error f : Except Failure α)

namespace Plan

section Judges

variable (scope : Scope) (frame : (e : Expectation) → Step Cursor e.Content)

theorem text_judged : ∃ judge, Step.Blames judge ∧
    text.run scope frame = (Cursor.readWord 4).judged judge := by
  refine ⟨_, fun id at_ f h ↦ ?_, run_text⟩
  split at h
  · cases h
  · obtain rfl := Except.error.inj h
    exact ⟨rfl, by simp [Truncated]⟩

theorem typed_judged (name : Plan String) : ∃ judge, Step.Blames judge ∧
    (typed name).run scope frame = (name.run scope frame).judged judge := by
  refine ⟨_, fun s at_ f h ↦ ?_, run_typed name⟩
  split at h
  · cases h
  · obtain rfl := Except.error.inj h
    exact ⟨rfl, by simp [Truncated]⟩

theorem checked_judged (value : Plan β) (check : β → Except Defect α) :
    ∃ judge, Step.Blames judge ∧
      (checked value check).run scope frame = (value.run scope frame).judged judge := by
  refine ⟨_, fun b at_ f h ↦ ?_, run_checked value check⟩
  split at h
  · cases h
  · obtain rfl := Except.error.inj h
    exact ⟨rfl, by simp [Truncated]⟩

end Judges

end Plan

namespace Step

/-- Without any bytes, the step is short of some where it begins. -/
def Hungry (x : Step Cursor α) : Prop :=
  ∀ offset frames, ∃ wanted c, x ⟨[], .clean, offset, frames⟩ =
    (.error (.truncated wanted ⟨frames.head?, offset⟩), c)

namespace Hungry

variable {x : Step Cursor β}

theorem bind {k : β → Step Cursor α} (hx : x.Hungry) : (x >>= k).Hungry := by
  intro offset frames
  obtain ⟨wanted, c, hc⟩ := hx offset frames
  exact ⟨wanted, c, Step.bind_of_error hc⟩

theorem judged {judge : β → Location → Except Failure α} (hx : x.Hungry) :
    (x.judged judge).Hungry := by
  intro offset frames
  obtain ⟨wanted, c, hc⟩ := hx offset frames
  exact ⟨wanted, c, by simp only [Step.judged, hc]⟩

end Hungry

/-- With only the bytes before a place, the step is short of some at the place. -/
def Reaches (x : Step Cursor α) (bytes : Bytes) (offset : Nat) (frames : List Tag)
    (place : Location) : Prop :=
  ∃ k ≤ bytes.length, place.offset = offset + k ∧ ∃ wanted c,
    x ⟨bytes.take k, .clean, offset, frames⟩ = (.error (.truncated wanted place), c)

theorem Hungry.reaches {x : Step Cursor α} (hx : x.Hungry) (bytes : Bytes) (offset : Nat)
    (frames : List Tag) : x.Reaches bytes offset frames ⟨frames.head?, offset⟩ :=
  ⟨0, Nat.zero_le _, rfl, hx offset frames⟩

/-- The places of failures are reached, and in a `plain` step they are in no frame that it opens. -/
def Locates (plain : Bool) (x : Step Cursor α) : Prop :=
  ∀ bytes fault? offset frames f c, x ⟨bytes, .ofFault? fault?, offset, frames⟩ = (.error f, c) →
    ∀ place, f.place? = some place →
      (plain = true → place.frame = frames.head?) ∧ x.Reaches bytes offset frames place

namespace Locates

theorem pure (a : α) : (Pure.pure a : Step Cursor α).Locates plain := by
  intro bytes fault? offset frames f c h
  cases h

theorem of_start {x : Step Cursor α}
    (h : ∀ bytes fault? offset frames f c, x ⟨bytes, .ofFault? fault?, offset, frames⟩ =
      (.error f, c) → ∀ place, f.place? = some place →
        place = ⟨frames.head?, offset⟩ ∧ x.Hungry) : x.Locates plain := by
  intro bytes fault? offset frames f c hc place hplace
  obtain ⟨rfl, hx⟩ := h bytes fault? offset frames f c hc place hplace
  exact ⟨fun _ ↦ rfl, hx.reaches bytes offset frames⟩

theorem bind {G : Grammar β} {x : Step Cursor β} {k : β → Step Cursor α} (hx : x.Locates plain)
    (hp : x.Parses G) (hk : ∀ b, (k b).Locates plain) : (x >>= k).Locates plain := by
  intro bytes fault? offset frames f c h place hplace
  rcases h₁ : x ⟨bytes, .ofFault? fault?, offset, frames⟩ with ⟨g | b, d⟩
  · rw [Step.bind_of_error h₁] at h
    obtain ⟨⟨⟩, rfl⟩ := Prod.mk.inj h
    obtain ⟨hframe, j, hj, hoffset, wanted, c', hc'⟩ := hx _ _ _ _ _ _ h₁ place hplace
    exact ⟨hframe, j, hj, hoffset, wanted, c', Step.bind_of_error hc'⟩
  · obtain ⟨used, rest, rfl, hb, rfl⟩ := hp.sound h₁
    rw [Step.bind_of_ok h₁] at h
    obtain ⟨hframe, j, hj, hoffset, wanted, c', hc'⟩ := hk b _ _ _ _ _ _ h place hplace
    refine ⟨hframe, used.length + j, ?_, ?_, wanted, c', ?_⟩
    · rw [List.length_append]
      omega
    · omega
    · rw [List.take_length_add_append, Step.bind_of_ok (hp.complete hb ..)]
      exact hc'

theorem judged {x : Step Cursor β} {judge : β → Location → Except Failure α}
    (hx : x.Locates plain) (hhungry : x.Hungry) (hj : Blames judge) :
    (x.judged judge).Locates plain := by
  intro bytes fault? offset frames f c h place hplace
  simp only [Step.judged] at h
  split at h
  · next b d h₁ =>
    obtain rfl := Option.some.inj (hplace.symm.trans (hj b _ f (Prod.mk.inj h).1).1)
    exact ⟨fun _ ↦ rfl, hhungry.judged.reaches bytes offset frames⟩
  · next g d h₁ =>
    obtain ⟨⟨⟩, rfl⟩ := Prod.mk.inj h
    obtain ⟨hframe, j, hj, hoffset, wanted, c', hc'⟩ := hx _ _ _ _ _ _ h₁ place hplace
    exact ⟨hframe, j, hj, hoffset, wanted, c', by simp only [Step.judged, hc']⟩

theorem within {x : Step Cursor α} (hx : x.Locates false) (t : Tag) :
    (x.within t).Locates false := by
  intro bytes fault? offset frames f c h place hplace
  simp only [Step.within, Cursor.enter] at h
  split at h
  · cases h
  · next g d h₁ =>
    obtain ⟨⟨⟩, rfl⟩ := Prod.mk.inj h
    obtain ⟨-, j, hj, hoffset, wanted, c', hc'⟩ := hx _ _ _ _ _ _ h₁ place hplace
    refine ⟨fun h ↦ absurd h Bool.false_ne_true, j, hj, hoffset, wanted, c', ?_⟩
    simp only [Step.within, Cursor.enter, hc']

theorem of_plain {x : Step Cursor α} (hx : x.Locates true) : x.Locates false := by
  intro bytes fault? offset frames f c h place hplace
  exact ⟨fun h ↦ absurd h Bool.false_ne_true, (hx _ _ _ _ _ _ h place hplace).2⟩

end Locates

end Step

namespace Cursor

theorem readWord_hungry {width : Nat} (h : 0 < width) : (readWord width).Hungry :=
  fun offset frames ↦ ⟨width, readWord_short [] offset frames h⟩

theorem readBytes_hungry {count : Nat} (h : 0 < count) : (readBytes count).Hungry :=
  fun offset frames ↦ ⟨count, readBytes_short [] offset frames h⟩

theorem readWord_locates (width : Nat) : (readWord width).Locates plain := by
  refine .of_start fun bytes fault? offset frames f c h place hplace ↦ ?_
  have hpos : width ≠ 0 := by
    rintro rfl
    simp [readWord, fill_ofFault?] at h
  simp only [readWord, fill_ofFault?] at h
  split at h
  · cases h
  · obtain ⟨hf, -⟩ := Prod.mk.inj h
    obtain rfl := Except.error.inj hf
    split at hplace
    · exact ⟨(Option.some.inj hplace).symm, readWord_hungry (Nat.pos_of_ne_zero hpos)⟩
    · exact ⟨(Option.some.inj hplace).symm, readWord_hungry (Nat.pos_of_ne_zero hpos)⟩
    · cases hplace

theorem readBytes_locates (count : Nat) : (readBytes count).Locates plain := by
  refine .of_start fun bytes fault? offset frames f c h place hplace ↦ ?_
  have hpos : count ≠ 0 := by
    rintro rfl
    simp [readBytes, fill_ofFault?] at h
  simp only [readBytes, fill_ofFault?] at h
  split at h
  · cases h
  · split at h
    · obtain ⟨hf, -⟩ := Prod.mk.inj h
      obtain rfl := Except.error.inj hf
      exact ⟨(Option.some.inj hplace).symm, readBytes_hungry (Nat.pos_of_ne_zero hpos)⟩
    · obtain ⟨hf, -⟩ := Prod.mk.inj h
      obtain rfl := Except.error.inj hf
      cases hplace

end Cursor

namespace Plan

variable {scope : Scope} {G : (e : Expectation) → Grammar e.Content}
  {frame : (e : Expectation) → Step Cursor e.Content}

theorem hungry (hframe : plain = false → ∀ e, (frame e).Hungry) (p : Plan α)
    (h : p.Consuming plain) : Step.Hungry (p.run scope frame) := by
  induction p with
  | pure a => exact h.elim
  | bind first next ih =>
    rw [run_bind]
    exact (ih h).bind
  | word width => exact Cursor.readWord_hungry h
  | bytes count => exact Cursor.readBytes_hungry h
  | text =>
    rw [run_text]
    exact (Cursor.readWord_hungry (Nat.succ_pos 3)).judged
  | typed name ih =>
    rw [run_typed]
    exact (ih h).judged
  | checked value check ih =>
    rw [run_checked]
    exact (ih h).judged
  | child e => exact hframe h e

theorem locates (hG : ∀ e, (frame e).Parses (G e))
    (hframe : plain = false → ∀ e, (frame e).Hungry ∧ (frame e).Locates plain) (p : Plan α)
    (h : p.Regular plain) : Step.Locates plain (p.run scope frame) := by
  have hhungry : plain = false → ∀ e, (frame e).Hungry := fun hp e ↦ (hframe hp e).1
  induction p with
  | pure a => exact .pure a
  | bind first next ih₁ ih₂ =>
    rw [run_bind]
    exact (ih₁ h.1).bind (parses hG first) fun b ↦ ih₂ b (h.2 b)
  | word width => exact Cursor.readWord_locates width
  | bytes count => exact Cursor.readBytes_locates count
  | text =>
    obtain ⟨judge, hj, heq⟩ := text_judged scope frame
    rw [heq]
    exact (Cursor.readWord_locates 4).judged (Cursor.readWord_hungry (Nat.succ_pos 3)) hj
  | typed name ih =>
    obtain ⟨judge, hj, heq⟩ := typed_judged scope frame name
    rw [heq]
    exact (ih h.2).judged (hungry hhungry name h.1) hj
  | checked value check ih =>
    obtain ⟨judge, hj, heq⟩ := checked_judged scope frame value check
    rw [heq]
    exact (ih h.2).judged (hungry hhungry value h.1) hj
  | child e => exact (hframe h e).2

theorem runPlain_locates (p : Plan α) (h : p.Regular true) : p.runPlain.Locates true :=
  locates (fun _ ↦ Step.fail_parses _) (fun hp ↦ absurd hp.symm Bool.false_ne_true) p h

end Plan

end Wire

open Wire

namespace Decoder

theorem opening_judged (p : Placement) (e : Expectation) : ∃ judge, Step.Blames judge ∧
    opening p e = Plan.tag.runPlain.judged judge := by
  refine ⟨_, fun t at_ f h ↦ ?_, opening_eq p e⟩
  split at h
  · cases h
  · obtain rfl := Except.error.inj h
    cases p <;> exact ⟨rfl, by simp [Placement.mismatch, Truncated]⟩

theorem frame_zero_judged (d : Decoder) (p : Placement) (e : Expectation) :
    ∃ judge, Step.Blames judge ∧ d.frame 0 p e = (opening p e).judged judge := by
  refine ⟨_, fun t at_ f h ↦ ?_, d.frame_zero p e⟩
  obtain rfl := Except.error.inj h
  exact ⟨rfl, by simp [Truncated]⟩

theorem frame_succ_judged (d : Decoder) (levels : Nat) (p : Placement) (e : Expectation) :
    ∃ judge, Step.Blames judge ∧ d.frame (levels + 1) p e =
      Step.judged (opening p e >>= fun t ↦
        Step.within t ((Node.plan d.layout t).run d.scope (d.frame levels .embedded))) judge := by
  refine ⟨_, fun n at_ f h ↦ ?_, d.frame_succ levels p e⟩
  split at h
  · cases h
  · obtain rfl := Except.error.inj h
    exact ⟨rfl, by simp [Truncated]⟩

theorem tag_hungry : Plan.tag.runPlain.Hungry := by
  have htag : Plan.tag.Consuming true := Nat.one_pos
  exact Plan.hungry (fun hp ↦ absurd hp.symm Bool.false_ne_true) _ htag

theorem opening_hungry (p : Placement) (e : Expectation) : (opening p e).Hungry := by
  rw [opening_eq]
  exact tag_hungry.judged

theorem opening_locates (p : Placement) (e : Expectation) : (opening p e).Locates false := by
  obtain ⟨judge, hj, heq⟩ := opening_judged p e
  rw [heq]
  exact (Plan.runPlain_locates Plan.tag Plan.regular_tag).of_plain.judged tag_hungry hj

theorem frame_hungry (d : Decoder) (levels : Nat) (p : Placement) (e : Expectation) :
    (d.frame levels p e).Hungry := by
  cases levels with
  | zero =>
    rw [frame_zero]
    exact (opening_hungry p e).judged
  | succ levels =>
    rw [frame_succ]
    exact (opening_hungry p e).bind.judged

theorem frame_locates (d : Decoder) (levels : Nat) (p : Placement) (e : Expectation) :
    (d.frame levels p e).Locates false := by
  induction levels generalizing p e with
  | zero =>
    obtain ⟨judge, hj, heq⟩ := d.frame_zero_judged p e
    rw [heq]
    exact (opening_locates p e).judged (opening_hungry p e) hj
  | succ levels ih =>
    obtain ⟨judge, hj, heq⟩ := d.frame_succ_judged levels p e
    have hplan (t : Tag) :
        Step.Locates false ((Node.plan d.layout t).run d.scope (d.frame levels .embedded)) :=
      Plan.locates (d.frame_parses levels .embedded)
        (fun _ e ↦ ⟨d.frame_hungry levels .embedded e, ih .embedded e⟩) _
        (Node.plan_regular d.layout t)
    have hframe := (opening_locates p e).bind (opening_parses p e) fun t ↦ (hplan t).within t
    rw [heq]
    exact hframe.judged (opening_hungry p e).bind hj

end Decoder

/-- What a failure names is the start of a field in the input: all before it is read without fault,
and a reader of just these bytes is short of bytes there, in the same frame. No string table has a
frame. -/
theorem truncated_at_place (bytes : Bytes) (fault? : Option Fault) {f : Failure} {place : Location}
    (hplace : f.place? = some place) :
    (∀ (a : Adapter) (scope : Scope) (maxDepth : Nat) (e : Expectation) (c : Cursor),
      a.load scope maxDepth e (.start bytes (.ofFault? fault?)) = (.error f, c) →
      place.offset ≤ bytes.length ∧ ∃ wanted d,
        a.load scope maxDepth e (.start (bytes.take place.offset) .clean) =
          (.error (.truncated wanted place), d)) ∧
    ∀ c, StringTable.load (.start bytes (.ofFault? fault?)) = (.error f, c) →
      place.frame = none ∧ place.offset ≤ bytes.length ∧ ∃ wanted d,
        StringTable.load (.start (bytes.take place.offset) .clean) =
          (.error (.truncated wanted place), d) := by
  constructor
  · intro a scope maxDepth e c h
    obtain ⟨-, k, hk, hoffset, hshort⟩ :=
      Decoder.frame_locates ⟨scope, a.layout, maxDepth⟩ maxDepth .top e _ _ _ _ _ _ h place hplace
    obtain rfl : place.offset = k := hoffset.trans (Nat.zero_add k)
    exact ⟨hk, hshort⟩
  · intro c h
    obtain ⟨hframe, k, hk, hoffset, hshort⟩ :=
      Plan.runPlain_locates _ StringTable.plan_regular _ _ _ _ _ _ h place hplace
    obtain rfl : place.offset = k := hoffset.trans (Nat.zero_add k)
    exact ⟨hframe rfl, hk, hshort⟩

theorem truncated_at_place_block :
    (∃ wanted d, Adapter.v0_11.load .empty 8 .any
        (.start [Tag.codeBlock.code, 1, 0, 0, 0] .clean) =
      (.error (.truncated wanted ⟨some .codeBlock, 5⟩), d)) ∧
    ∃ wanted d, StringTable.load (.start [1, 0, 0, 0, 10] .clean) =
      (.error (.truncated wanted ⟨none, 5⟩), d) := by
  have hblock : (match Adapter.v0_11.load .empty 8 .any
      (.start [Tag.codeBlock.code, 1, 0, 0, 0, Tag.position.code] (.ofFault? none)) with
    | (.error f, _) => f.place?
    | (.ok _, _) => none) = some ⟨some .codeBlock, 5⟩ := by decide +kernel
  have htable : (match StringTable.load
      (.start [1, 0, 0, 0, 10, 1, 0, 0, 0, 0xff, 10] (.ofFault? none)) with
    | (.error f, _) => f.place?
    | (.ok _, _) => none) = some ⟨none, 5⟩ := by decide +kernel
  constructor
  · split at hblock
    · next f c h => exact ((truncated_at_place _ none hblock).1 .v0_11 .empty 8 .any c h).2
    · cases hblock
  · split at htable
    · next f c h => exact ((truncated_at_place _ none htable).2 c h).2.2
    · cases htable

end TreeBytecode
