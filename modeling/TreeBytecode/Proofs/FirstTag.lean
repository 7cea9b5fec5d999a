import TreeBytecode.Proofs.Runs
import TreeBytecode.Registry

namespace TreeBytecode

namespace Wire

variable {α β : Type}

namespace Cursor

variable {c : Cursor}

def next? (c : Cursor) : Option UInt8 := (c.fill 1).rest.head?

/-- An input that is not packed has its bytes at hand. -/
@[simp] theorem next?_start (bytes : Bytes) (fault? : Option Fault) :
    (start bytes (.ofFault? fault?)).next? = bytes.head? := by
  cases fault? with
  | none => rw [next?, start, Ending.ofFault?, fill_clean]
  | some fault => rw [next?, start, Ending.ofFault?, fill_faulty]

theorem readWord_one_ok_iff {n : Nat} :
    (∃ d, readWord 1 c = (.ok n, d)) ↔ ∃ b, c.next? = some b ∧ b.toNat = n := by
  rw [next?, readWord]
  cases (c.fill 1).rest with
  | nil => simp
  | cons b rest => simp [ofBytes]

end Cursor

theorem Tag.ofCode?_toNat_eq_some_iff {b : UInt8} {t : Tag} :
    ofCode? b.toNat = some t ↔ b = t.code := by
  constructor
  · intro h
    exact UInt8.toNat_inj.1 (code_of_ofCode? h).symm
  · rintro rfl
    exact ofCode?_code t

namespace Plan

theorem tag_run_ok_iff {c : Cursor} {t : Tag} :
    (∃ d, tag.runPlain c = (.ok t, d)) ↔ c.next? = some t.code := by
  rw [runPlain, tag, run_checked]
  simp only [Step.judged, run]
  constructor
  · rintro ⟨d, h⟩
    rcases hread : Cursor.readWord 1 c with ⟨f | code, d'⟩
    · rw [hread] at h
      cases congrArg Prod.fst h
    · obtain ⟨b, hb, rfl⟩ := Cursor.readWord_one_ok_iff.1 ⟨d', hread⟩
      rw [hread] at h
      cases ht : Tag.ofCode? b.toNat with
      | none =>
        simp only [ht] at h
        cases congrArg Prod.fst h
      | some u =>
        simp only [ht] at h
        obtain rfl : u = t := Except.ok.inj (congrArg Prod.fst h)
        rw [hb, Tag.ofCode?_toNat_eq_some_iff.1 ht]
  · intro h
    obtain ⟨d, hread⟩ := Cursor.readWord_one_ok_iff.2 ⟨t.code, h, rfl⟩
    refine ⟨d, ?_⟩
    rw [hread]
    simp only [Tag.ofCode?_code]

theorem exists_of_map_run {scope : Scope} {frame : (e : Expectation) → Step Cursor e.Content}
    {f : β → α} {p : Plan β} {c d : Cursor} {a : α}
    (h : (f <$> p).run scope frame c = (.ok a, d)) : ∃ b, a = f b := by
  have hrun : (f <$> p).run scope frame =
      p.run scope frame >>= fun b ↦ (Plan.pure (f b)).run scope frame :=
    run_bind p fun b ↦ Plan.pure (f b)
  rw [hrun] at h
  obtain ⟨b, c', -, hb⟩ := Step.bind_eq_ok.1 h
  exact ⟨b, (Except.ok.inj (congrArg Prod.fst hb)).symm⟩

end Plan

end Wire

open Wire

/-- The payload behind a tag is read as a node with this tag. -/
theorem Node.tag_of_run {layout : Layout} {t : Tag} {scope : Scope}
    {frame : (e : Expectation) → Step Cursor e.Content} {c d : Cursor} {n : Node}
    (h : (Node.plan layout t).run scope frame c = (.ok n, d)) : n.tag = t := by
  cases t <;> obtain ⟨v, rfl⟩ := Plan.exists_of_map_run h <;> rfl

namespace Decoder

variable {d : Decoder} {levels : Nat} {p : Placement} {e : Expectation} {c c' : Cursor} {t : Tag}

theorem opening_of_accepted (h : Plan.tag.runPlain c = (.ok t, c')) (he : e.accepts t = true) :
    opening p e c = (.ok t, c') := by
  simp only [opening, h, he, if_true]

theorem opening_of_refused (h : Plan.tag.runPlain c = (.ok t, c')) (he : e.accepts t = false) :
    opening p e c = (.error (p.mismatch e t c.location), c') := by
  simp only [opening, h, he, Bool.false_eq_true, if_false]

theorem opening_ok (h : opening p e c = (.ok t, c')) :
    Plan.tag.runPlain c = (.ok t, c') ∧ e.accepts t = true := by
  rw [opening] at h
  split at h
  · next u d' htag =>
    split at h
    · next he =>
      obtain ⟨hu, rfl⟩ := Prod.mk.inj h
      obtain rfl := Except.ok.inj hu
      exact ⟨htag, he⟩
    · cases congrArg Prod.fst h
  · cases congrArg Prod.fst h

theorem frame_of_refused (h : c.next? = some t.code) (he : e.accepts t = false) :
    (d.frame levels p e c).1 = .error (p.mismatch e t c.location) := by
  obtain ⟨c', htag⟩ := Plan.tag_run_ok_iff.2 h
  rw [d.frame_of_opening_error (opening_of_refused htag he)]

theorem exists_ofNode? {n : Node} {c'' : Cursor} (h : opening p e c = (.ok t, c'))
    (hn : (Node.plan d.layout t).run d.scope (d.frame levels .embedded) (c'.enter t) =
      (.ok n, c'')) : ∃ v, e.ofNode? n = some v := by
  rw [← Option.isSome_iff_exists, Expectation.isSome_ofNode?, Node.tag_of_run hn]
  exact (opening_ok h).2

/-- Behind a tag that is accepted, what is expected makes no difference any more. -/
theorem frame_of_accepted (h : ∀ t, c.next? = some t.code → e.accepts t = true) :
    match d.frame levels p .any c with
    | (.ok n, c') => ∃ v, e.ofNode? n = some v ∧ d.frame levels p e c = (.ok v, c')
    | (.error f, c') => d.frame levels p e c = (.error f, c') := by
  rcases htag : Plan.tag.runPlain c with ⟨f | t, c'⟩
  · have hopening (x : Expectation) : opening p x c = (.error f, c') := by
      simp only [opening, htag]
    rw [d.frame_of_opening_error (hopening .any)]
    exact d.frame_of_opening_error (hopening e)
  · have he := h t (Plan.tag_run_ok_iff.1 ⟨c', htag⟩)
    have hany : opening p .any c = (.ok t, c') := opening_of_accepted htag rfl
    have hopening : opening p e c = (.ok t, c') := opening_of_accepted htag he
    cases levels with
    | zero => simp only [frame, hany, hopening]
    | succ levels =>
      simp only [frame, hany, hopening]
      rcases hrun : (Node.plan d.layout t).run d.scope (d.frame levels .embedded) (c'.enter t)
        with ⟨f | n, c''⟩
      · rfl
      · obtain ⟨v, hv⟩ := exists_ofNode? hopening hrun
        have hself : Expectation.any.ofNode? n = some n := rfl
        simp only [hself, hv]
        exact ⟨v, rfl, rfl⟩

/-- A frame that is read begins with its own tag. -/
theorem tag_of_frame {v : e.Content} (h : d.frame levels p e c = (.ok v, c')) :
    e.accepts (e.toNode v).tag = true ∧ c.next? = some (e.toNode v).tag.code := by
  cases levels with
  | zero =>
    rw [frame_zero, Step.judged] at h
    split at h <;> cases congrArg Prod.fst h
  | succ levels =>
    simp only [frame] at h
    split at h
    · next t c₁ hopening =>
      split at h
      · next n c₂ hrun =>
        split at h
        · next w hw =>
          obtain rfl : w = v := Except.ok.inj (congrArg Prod.fst h)
          obtain ⟨htag, he⟩ := opening_ok hopening
          rw [← Expectation.ofNode?_eq_some_iff.1 hw, Node.tag_of_run hrun]
          exact ⟨he, Plan.tag_run_ok_iff.1 ⟨c₁, htag⟩⟩
        · cases congrArg Prod.fst h
      · cases congrArg Prod.fst h
    · cases congrArg Prod.fst h

end Decoder

namespace Wire

variable {α β : Type}

namespace Step

/-- A step that does not fail by a frame of a wrong type. -/
def NeverMistypes (x : Step Cursor α) : Prop :=
  ∀ c e t place d, x c ≠ (.error (.typeMismatch e t place), d)

namespace NeverMistypes

theorem fail {f : Failure} (hf : ∀ e t place, f ≠ .typeMismatch e t place) :
    NeverMistypes (Step.fail f : Step Cursor α) := by
  intro c e t place d h
  exact hf e t place (Except.error.inj (congrArg Prod.fst h))

theorem bind {x : Step Cursor β} {k : β → Step Cursor α} (hx : x.NeverMistypes)
    (hk : ∀ b, (k b).NeverMistypes) : (x >>= k).NeverMistypes := by
  intro c e t place d h
  rw [bind_apply] at h
  split at h
  · next b c' _ => exact hk b c' e t place d h
  · next f c' hc =>
    obtain rfl : f = _ := Except.error.inj (congrArg Prod.fst h)
    exact hx c e t place c' hc

theorem judged {x : Step Cursor β} {judge : β → Location → Except Failure α}
    (hx : x.NeverMistypes)
    (hj : ∀ b at_ e t place, judge b at_ ≠ .error (.typeMismatch e t place)) :
    (x.judged judge).NeverMistypes := by
  intro c e t place d h
  rw [Step.judged] at h
  split at h
  · next b _ _ => exact hj b c.location e t place (congrArg Prod.fst h)
  · next f c' hc =>
    obtain rfl : f = _ := Except.error.inj (congrArg Prod.fst h)
    exact hx c e t place c' hc

theorem within {t : Tag} {x : Step Cursor α} (hx : x.NeverMistypes) :
    (Step.within t x).NeverMistypes := by
  intro c e u place d h
  rw [Step.within] at h
  split at h
  · cases congrArg Prod.fst h
  · next f c' hc =>
    obtain rfl : f = _ := Except.error.inj (congrArg Prod.fst h)
    exact hx (c.enter t) e u place c' hc

end NeverMistypes

end Step

theorem Cursor.readWord_neverMistypes (width : Nat) : (readWord width).NeverMistypes := by
  intro c e t place d h
  simp only [readWord] at h
  split at h
  · cases congrArg Prod.fst h
  · have hf := Except.error.inj (congrArg Prod.fst h)
    split at hf <;> cases hf

theorem Cursor.readBytes_neverMistypes (count : Nat) : (readBytes count).NeverMistypes := by
  intro c e t place d h
  simp only [readBytes] at h
  split at h
  · cases congrArg Prod.fst h
  · split at h <;> cases congrArg Prod.fst h

theorem Plan.neverMistypes {scope : Scope} {frame : (e : Expectation) → Step Cursor e.Content}
    (hframe : ∀ e, (frame e).NeverMistypes) (p : Plan α) : (p.run scope frame).NeverMistypes := by
  induction p with
  | pure a =>
    intro c e t place d h
    cases congrArg Prod.fst h
  | bind first next ih₁ ih₂ =>
    rw [run_bind]
    exact ih₁.bind ih₂
  | word width => exact Cursor.readWord_neverMistypes width
  | bytes count => exact Cursor.readBytes_neverMistypes count
  | text =>
    rw [run_text]
    refine (Cursor.readWord_neverMistypes 4).judged fun id at_ e t place ↦ ?_
    split <;> simp
  | typed name ih =>
    rw [run_typed]
    refine ih.judged fun s at_ e t place ↦ ?_
    split <;> simp
  | checked value check ih =>
    rw [run_checked]
    refine ih.judged fun b at_ e t place ↦ ?_
    split <;> simp
  | child e => exact hframe e

theorem Plan.tag_neverMistypes : Plan.tag.runPlain.NeverMistypes :=
  Plan.neverMistypes (fun _ ↦ .fail (by simp)) Plan.tag

end Wire

namespace Decoder

variable {levels : Nat} {e : Expectation}

theorem opening_embedded_neverMistypes : (opening .embedded e).NeverMistypes := by
  rw [opening_eq]
  refine Plan.tag_neverMistypes.judged fun t at_ e' t' place ↦ ?_
  split <;> simp [Placement.mismatch]

/-- A frame inside of another one is never of a wrong type. -/
theorem frame_embedded_neverMistypes (d : Decoder) :
    (d.frame levels .embedded e).NeverMistypes := by
  induction levels generalizing e with
  | zero =>
    rw [frame_zero]
    exact opening_embedded_neverMistypes.judged fun t at_ e' t' place ↦ by simp
  | succ levels ih =>
    rw [frame_succ]
    have hplan (t : Tag) :
        ((Node.plan d.layout t).run d.scope (d.frame levels .embedded)).NeverMistypes :=
      Plan.neverMistypes (fun e ↦ ih) _
    refine (opening_embedded_neverMistypes.bind fun t ↦ (hplan t).within).judged
      fun n at_ e' t' place ↦ ?_
    split <;> simp

/-- A wrong type is that of the frame that was asked for. -/
theorem refused_of_frame_mistyped (d : Decoder) {x : Expectation} {t : Tag} {place : Location}
    {c c' : Cursor} (h : d.frame levels .top e c = (.error (.typeMismatch x t place), c')) :
    x = e ∧ place = c.location ∧ c.next? = some t.code ∧ e.accepts t = false := by
  rcases htag : Plan.tag.runPlain c with ⟨f | u, c₁⟩
  · have hopening : opening .top e c = (.error f, c₁) := by
      simp only [opening, htag]
    rw [d.frame_of_opening_error hopening] at h
    obtain rfl : f = _ := Except.error.inj (congrArg Prod.fst h)
    exact absurd htag (Plan.tag_neverMistypes c x t place c₁)
  · have hu := Plan.tag_run_ok_iff.1 ⟨c₁, htag⟩
    cases he : e.accepts u with
    | false =>
      rw [d.frame_of_opening_error (opening_of_refused htag he)] at h
      obtain ⟨⟩ : Failure.typeMismatch e u c.location = _ :=
        Except.error.inj (congrArg Prod.fst h)
      exact ⟨rfl, rfl, hu, he⟩
    | true =>
      -- behind the tag a frame asked for is read as an embedded one is
      have hplace : d.frame levels .top e c = d.frame levels .embedded e c := by
        have htop := opening_of_accepted (p := .top) htag he
        have hembedded := opening_of_accepted (p := .embedded) htag he
        cases levels <;> simp only [frame, htop, hembedded]
      rw [hplace] at h
      exact absurd h (d.frame_embedded_neverMistypes c x t place c')

end Decoder

/-- To read what is asked for is to read any frame once its first tag is accepted. A tag that is
not accepted is refused before all else, at the outermost frame as a wrong type and inside of it as
a defect; that a node which was read is not of the expected kind does not happen. -/
theorem Adapter.load_by_first_tag (a : Adapter) (scope : Scope) (maxDepth : Nat)
    (e : Expectation) (bytes : Bytes) (ending : Ending) :
    (∀ t, (Cursor.start bytes ending).next? = some t.code → e.accepts t = false →
      (a.load scope maxDepth e (.start bytes ending)).1 =
        .error (.typeMismatch e t .outside)) ∧
    ((∀ t, (Cursor.start bytes ending).next? = some t.code → e.accepts t = true) →
      match a.load scope maxDepth .any (.start bytes ending) with
      | (.ok n, c) =>
        ∃ v, e.ofNode? n = some v ∧ a.load scope maxDepth e (.start bytes ending) = (.ok v, c)
      | (.error f, c) => a.load scope maxDepth e (.start bytes ending) = (.error f, c)) ∧
    (∀ v c, a.load scope maxDepth e (.start bytes ending) = (.ok v, c) →
      e.accepts (e.toNode v).tag = true ∧
        (Cursor.start bytes ending).next? = some (e.toNode v).tag.code) ∧
    (∀ x t place c, a.load scope maxDepth e (.start bytes ending) =
        (.error (.typeMismatch x t place), c) →
      x = e ∧ place = .outside ∧ (Cursor.start bytes ending).next? = some t.code ∧
        e.accepts t = false) ∧
    ∀ (levels : Nat) (x : Expectation) (c : Cursor),
      (∀ t, c.next? = some t.code → x.accepts t = false →
        (Decoder.frame ⟨scope, a.layout, maxDepth⟩ levels .embedded x c).1 =
          .error (.malformed (.unexpectedFrame x t) c.location)) ∧
      (∀ y t place d, Decoder.frame ⟨scope, a.layout, maxDepth⟩ levels .embedded x c ≠
        (.error (.typeMismatch y t place), d)) ∧
      ∀ p t c₁ n c₂, Decoder.opening p x c = (.ok t, c₁) →
        (Node.plan a.layout t).run scope
            (Decoder.frame ⟨scope, a.layout, maxDepth⟩ levels .embedded) (c₁.enter t) =
          (.ok n, c₂) →
        ∃ v, x.ofNode? n = some v := by
  refine ⟨fun t ht he ↦ ?_, fun h ↦ ?_, fun v c h ↦ ?_, fun x t place c h ↦ ?_,
    fun levels x c ↦ ⟨fun t ht hx ↦ ?_, ?_, fun p t c₁ n c₂ ho hrun ↦ ?_⟩⟩
  · exact Decoder.frame_of_refused ht he
  · exact Decoder.frame_of_accepted h
  · exact Decoder.tag_of_frame h
  · exact Decoder.refused_of_frame_mistyped _ h
  · exact Decoder.frame_of_refused ht hx
  · exact Decoder.frame_embedded_neverMistypes _ c
  · exact Decoder.exists_ofNode? (d := ⟨scope, a.layout, maxDepth⟩) ho hrun

theorem load_by_first_tag_position :
    let bytes : Bytes := Tag.position.code :: word 4 7 ++ word 4 2
    (Adapter.v0_11.load .empty 0 (.only .method) (.start [Tag.position.code] .clean)).1 =
      .error (.typeMismatch (.only .method) .position .outside) ∧
    ∃ v, Adapter.v0_11.load .empty 1 (.only .position) (.start bytes .clean) =
      (.ok v, ⟨[], .clean, 9, []⟩) := by
  intro bytes
  constructor
  · exact (Adapter.load_by_first_tag .v0_11 .empty 0 (.only .method) [Tag.position.code]
      .clean).1 .position rfl rfl
  · have hread : (Adapter.v0_11.load .empty 1 .any (.start bytes .clean)).1.isOk = true := by
      decide +kernel
    have hend : (Adapter.v0_11.load .empty 1 .any (.start bytes .clean)).2 =
        ⟨[], .clean, 9, []⟩ := by decide +kernel
    have h := (Adapter.load_by_first_tag .v0_11 .empty 1 (.only .position) bytes .clean).2.1
      fun t ht ↦ by
        cases t with
        | position => rfl
        | _ => cases ht
    rcases hload : Adapter.v0_11.load .empty 1 .any (.start bytes .clean) with ⟨f | n, c⟩
    · rw [hload] at hread
      cases hread
    · rw [hload] at h hend
      obtain rfl : c = _ := hend
      obtain ⟨v, -, hv⟩ := h
      exact ⟨v, hv⟩

end TreeBytecode
