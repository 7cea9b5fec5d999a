import TreeBytecode.Proofs.RoundTrip
import TreeBytecode.Proofs.Streaming

namespace TreeBytecode

namespace Wire

variable {α β : Type}

def Truncated (r : Except Failure α) : Prop :=
  ∃ wanted place, r = .error (.truncated wanted place)

theorem not_truncated_ok (a : α) : ¬ Truncated (.ok a) := by
  rintro ⟨wanted, place, h⟩
  cases h

theorem truncated_error {f : Failure} :
    Truncated (.error f : Except Failure α) ↔ Truncated (.error f : Except Failure β) := by
  simp only [Truncated, Except.error.injEq]

namespace Step

/-- Between a cursor and the one it leaves, a step took some bytes, and it would have done the same
with anything else behind them. -/
def Confined (x : Step Cursor α) (bytes : Bytes) (offset : Nat) (frames : List Tag)
    (r : Except Failure α) (c : Cursor) : Prop :=
  ∃ used, bytes = used ++ c.rest ∧ ∀ behind ending, x ⟨used ++ behind, ending, offset, frames⟩ =
    (r, ⟨behind, ending, c.offset, c.frames⟩)

theorem Confined.append {x : Step Cursor α} {bytes : Bytes} {offset : Nat} {frames : List Tag}
    {r : Except Failure α} {c : Cursor} (h : x.Confined bytes offset frames r c)
    (hx : x ⟨bytes, .clean, offset, frames⟩ = (r, c)) (more : Bytes) :
    x ⟨bytes ++ more, .clean, offset, frames⟩ = (r, { c with rest := c.rest ++ more }) := by
  obtain ⟨used, rfl, hused⟩ := h
  have hclean : c = ⟨c.rest, .clean, c.offset, c.frames⟩ :=
    congrArg Prod.snd (hx.symm.trans (hused c.rest .clean))
  rw [List.append_assoc, hused (c.rest ++ more) .clean, hclean]

/-- Unless it is short of bytes, a step is confined to those that it took. -/
def IsLocal (x : Step Cursor α) : Prop :=
  ∀ bytes offset frames r c, x ⟨bytes, .clean, offset, frames⟩ = (r, c) →
    Truncated r ∨ x.Confined bytes offset frames r c

namespace IsLocal

theorem pure (a : α) : (Pure.pure a : Step Cursor α).IsLocal := by
  rintro bytes offset frames r c ⟨⟩
  exact .inr ⟨[], rfl, fun _ _ ↦ rfl⟩

theorem fail (f : Failure) : (Step.fail f : Step Cursor α).IsLocal := by
  rintro bytes offset frames r c ⟨⟩
  exact .inr ⟨[], rfl, fun _ _ ↦ rfl⟩

/-- A step that fails for want of bytes alone. -/
theorem of_parses {G : Grammar α} {x : Step Cursor α} (hp : x.Parses G)
    (hx : ∀ bytes offset frames f c, x ⟨bytes, .clean, offset, frames⟩ = (.error f, c) →
      Truncated (.error f : Except Failure α)) : x.IsLocal := by
  intro bytes offset frames r c h
  cases r with
  | error f => exact .inl (hx bytes offset frames f c h)
  | ok a =>
    obtain ⟨used, rest, rfl, ha, rfl⟩ := hp.sound_clean h
    exact .inr ⟨used, rfl, fun behind ending ↦ hp.complete ha behind ending offset frames⟩

theorem bind {x : Step Cursor β} {k : β → Step Cursor α} (hx : x.IsLocal)
    (hk : ∀ b, (k b).IsLocal) : (x >>= k).IsLocal := by
  intro bytes offset frames r c h
  rcases h₁ : x ⟨bytes, .clean, offset, frames⟩ with ⟨f | b, d⟩
  · rw [Step.bind_of_error h₁] at h
    obtain ⟨rfl, rfl⟩ := Prod.mk.inj h
    refine (hx _ _ _ _ _ h₁).imp truncated_error.1 ?_
    rintro ⟨used, hbytes, hused⟩
    exact ⟨used, hbytes, fun behind ending ↦ Step.bind_of_error (hused behind ending)⟩
  · rw [Step.bind_of_ok h₁] at h
    obtain ⟨used₁, rfl, hused₁⟩ := (hx _ _ _ _ _ h₁).resolve_left (not_truncated_ok b)
    have hd : d = ⟨d.rest, .clean, d.offset, d.frames⟩ :=
      congrArg Prod.snd (h₁.symm.trans (hused₁ d.rest .clean))
    rw [hd] at h
    refine (hk b _ _ _ _ _ h).imp_right ?_
    rintro ⟨used₂, hrest, hused₂⟩
    refine ⟨used₁ ++ used₂, by rw [hrest, List.append_assoc], fun behind ending ↦ ?_⟩
    rw [List.append_assoc, Step.bind_of_ok (hused₁ _ ending), hused₂]

theorem judged {x : Step Cursor β} {judge : β → Location → Except Failure α} (hx : x.IsLocal) :
    (x.judged judge).IsLocal := by
  intro bytes offset frames r c h
  simp only [Step.judged] at h
  split at h
  · next b d h₁ =>
    obtain ⟨hr, rfl⟩ := Prod.mk.inj h
    obtain ⟨used, hbytes, hused⟩ := (hx _ _ _ _ _ h₁).resolve_left (not_truncated_ok b)
    refine .inr ⟨used, hbytes, fun behind ending ↦ ?_⟩
    simp only [Step.judged, hused, ← hr]
    rfl
  · next f d h₁ =>
    obtain ⟨rfl, rfl⟩ := Prod.mk.inj h
    refine (hx _ _ _ _ _ h₁).imp truncated_error.1 ?_
    rintro ⟨used, hbytes, hused⟩
    refine ⟨used, hbytes, fun behind ending ↦ ?_⟩
    simp only [Step.judged, hused]

theorem within {x : Step Cursor α} (hx : x.IsLocal) (t : Tag) : (x.within t).IsLocal := by
  intro bytes offset frames r c h
  simp only [Step.within, Cursor.enter] at h
  split at h
  · next a d h₁ =>
    obtain ⟨rfl, rfl⟩ := Prod.mk.inj h
    obtain ⟨used, hbytes, hused⟩ := (hx _ _ _ _ _ h₁).resolve_left (not_truncated_ok a)
    refine .inr ⟨used, hbytes, fun behind ending ↦ ?_⟩
    simp only [Step.within, Cursor.enter, hused, Cursor.leave]
  · next f d h₁ =>
    obtain ⟨rfl, rfl⟩ := Prod.mk.inj h
    refine (hx _ _ _ _ _ h₁).imp_right ?_
    rintro ⟨used, hbytes, hused⟩
    refine ⟨used, hbytes, fun behind ending ↦ ?_⟩
    simp only [Step.within, Cursor.enter, hused]

end IsLocal

end Step

namespace Cursor

theorem readWord_isLocal (width : Nat) : (readWord width).IsLocal := by
  refine .of_parses (readWord_parses width) ?_
  intro bytes offset frames f c h
  simp only [readWord, fill_clean, endFault?] at h
  split at h
  · cases h
  · exact ⟨_, _, (Prod.mk.inj h).1.symm⟩

theorem readBytes_isLocal (count : Nat) : (readBytes count).IsLocal := by
  refine .of_parses (readBytes_parses count) ?_
  intro bytes offset frames f c h
  simp only [readBytes, fill_clean, endFault?] at h
  split at h
  · cases h
  · exact ⟨_, _, (Prod.mk.inj h).1.symm⟩

end Cursor

theorem Plan.isLocal {scope : Scope} {frame : (e : Expectation) → Step Cursor e.Content}
    (hframe : ∀ e, (frame e).IsLocal) (p : Plan α) : Step.IsLocal (p.run scope frame) := by
  induction p with
  | pure a => exact .pure a
  | bind first next ih₁ ih₂ =>
    rw [run_bind]
    exact ih₁.bind ih₂
  | word width => exact Cursor.readWord_isLocal width
  | bytes count => exact Cursor.readBytes_isLocal count
  | text =>
    rw [run_text]
    exact (Cursor.readWord_isLocal 4).judged
  | typed name ih =>
    rw [run_typed]
    exact ih.judged
  | checked value check ih =>
    rw [run_checked]
    exact ih.judged
  | child e => exact hframe e

end Wire

open Wire

theorem Decoder.opening_isLocal (p : Placement) (e : Expectation) : (opening p e).IsLocal := by
  have htag : Plan.tag.runPlain.IsLocal := Plan.isLocal (fun _ ↦ .fail _) Plan.tag
  rw [opening_eq]
  exact htag.judged

theorem Decoder.frame_isLocal (d : Decoder) (levels : Nat) (p : Placement) (e : Expectation) :
    (d.frame levels p e).IsLocal := by
  induction levels generalizing p e with
  | zero =>
    rw [frame_zero]
    exact (opening_isLocal p e).judged
  | succ levels ih =>
    rw [frame_succ]
    have hbody (t : Tag) :
        Step.IsLocal ((Node.plan d.layout t).run d.scope (d.frame levels .embedded)) :=
      Plan.isLocal (ih .embedded) (Node.plan d.layout t)
    exact ((opening_isLocal p e).bind fun t ↦ (hbody t).within t).judged

namespace Adapter

variable (a : Adapter) (scope : Scope) (maxDepth : Nat) (x : Expectation)

/-- A reader that does not run out of bytes comes to the same, node or failure, whatever stands
behind the bytes that it took; these are the first of the input, and the others are left. So it
comes to the same when bytes are added, and the front of an input comes to the same as the input
or is cut short. -/
theorem load_append {bytes : Bytes} {r : Except Failure x.Content} {c : Cursor}
    (h : a.load scope maxDepth x (.start bytes .clean) = (r, c)) :
    (Truncated r ∨ ∃ taken, bytes = taken ++ c.rest ∧ ∀ behind ending,
      a.load scope maxDepth x (.start (taken ++ behind) ending) =
        (r, { c with rest := behind, ending := ending })) ∧
    (Truncated r ∨ ∀ more, a.load scope maxDepth x (.start (bytes ++ more) .clean) =
      (r, { c with rest := c.rest ++ more })) ∧
    ∀ k, Truncated (a.load scope maxDepth x (.start (bytes.take k) .clean)).1 ∨
      ∃ rest, c.rest = rest ++ bytes.drop k ∧
        a.load scope maxDepth x (.start (bytes.take k) .clean) = (r, { c with rest := rest }) := by
  have hlocal := Decoder.frame_isLocal ⟨scope, a.layout, maxDepth⟩ maxDepth .top x
  refine ⟨hlocal bytes 0 [] r c h, (hlocal bytes 0 [] r c h).imp_right fun hr ↦ hr.append h, ?_⟩
  intro k
  rcases hk : a.load scope maxDepth x (.start (bytes.take k) .clean) with ⟨s, d⟩
  refine (hlocal _ 0 [] s d hk).imp_right fun hs ↦ ?_
  -- The front of the input is read as the whole, so that the outcomes are one.
  have hall := hs.append hk (bytes.drop k)
  rw [List.take_append_drop] at hall
  obtain ⟨rfl, rfl⟩ := Prod.mk.inj (h.symm.trans hall)
  exact ⟨d.rest, rfl, rfl⟩

theorem load_append_byte : ∃ taken, [Tag.byte.code, 7, 13] = taken ++ [13] ∧
    ∀ behind ending, v0_11.load .empty 1 .any (.start (taken ++ behind) ending) =
      (.ok (.byte 7), ⟨behind, ending, 2, []⟩) := by
  have ht : ∀ r ∈ (Node.byte 7).typeRefs, Scope.empty.types r.name = some r.handle := by
    simp [Node.typeRefs, Node.frames_eq, Node.embedded, Node.ownTypes]
  have hd : (Node.byte 7).depth ≤ 1 := by
    rw [Node.depth_eq]
    exact Nat.le_refl 1
  have h : v0_11.load .empty 1 .any (.start ([Tag.byte.code, 7] ++ [13]) .clean) =
      (.ok (.byte 7), ⟨[13], .clean, 2, []⟩) := v0_11.load_of_bytes? rfl ht hd rfl [13] .clean
  exact (v0_11.load_append .empty 1 .any h).1.resolve_left (not_truncated_ok _)

end Adapter

end TreeBytecode
