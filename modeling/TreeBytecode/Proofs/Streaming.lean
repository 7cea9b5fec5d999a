import TreeBytecode.Proofs.Grammar

namespace TreeBytecode

namespace Wire

/-- A step whose failures depend on nothing behind the bytes at hand. One for want of bytes is at
most where they end, and waits for some that are not there. -/
structure Step.Streams {α : Type} (x : Step Cursor α) : Prop where
  stays {bytes : Bytes} {offset : Nat} {frames : List Tag} {f : Failure} {c : Cursor}
    (h : x ⟨bytes, .clean, offset, frames⟩ = (.error f, c)) (more : Bytes)
    (hmore : ∀ wanted place, f = .truncated wanted place →
      offset + (bytes ++ more).length < place.offset + wanted) :
    ∃ d, x ⟨bytes ++ more, .clean, offset, frames⟩ = (.error f, d)
  waits {bytes : Bytes} {offset : Nat} {frames : List Tag} {wanted : Nat} {place : Location}
    {c : Cursor} (h : x ⟨bytes, .clean, offset, frames⟩ = (.error (.truncated wanted place), c)) :
    place.offset ≤ offset + bytes.length ∧ offset + bytes.length < place.offset + wanted

namespace Step

variable {α β : Type}

namespace Streams

theorem pure (a : α) : (Pure.pure a : Step Cursor α).Streams where
  stays h := by cases h
  waits h := by cases h

theorem fail {f : Failure} (hf : ∀ wanted place, f ≠ .truncated wanted place) :
    (Step.fail f : Step Cursor α).Streams := by
  constructor
  · rintro bytes offset frames f c ⟨⟩ more -
    exact ⟨_, rfl⟩
  · rintro bytes offset frames wanted place c ⟨⟩
    exact absurd rfl (hf wanted place)

theorem bind {G : Grammar β} {x : Step Cursor β} {k : β → Step Cursor α} (hp : x.Parses G)
    (hx : x.Streams) (hk : ∀ b, (k b).Streams) : (x >>= k).Streams := by
  constructor
  · intro bytes offset frames f c h more hmore
    rcases h₁ : x ⟨bytes, .clean, offset, frames⟩ with ⟨g | b, d⟩
    · rw [Step.bind_of_error h₁] at h
      obtain ⟨⟨⟩, rfl⟩ := Prod.mk.inj h
      obtain ⟨d', h'⟩ := hx.stays h₁ more hmore
      exact ⟨d', Step.bind_of_error h'⟩
    · obtain ⟨used, rest, rfl, hb, rfl⟩ := hp.sound_clean h₁
      rw [Step.bind_of_ok h₁] at h
      obtain ⟨d', h'⟩ := (hk b).stays h more fun wanted place hf ↦ by
        have := hmore wanted place hf
        simp only [List.length_append] at this ⊢
        omega
      rw [List.append_assoc, Step.bind_of_ok (hp.complete hb (rest ++ more) .clean offset frames)]
      exact ⟨d', h'⟩
  · intro bytes offset frames wanted place c h
    rcases h₁ : x ⟨bytes, .clean, offset, frames⟩ with ⟨g | b, d⟩
    · rw [Step.bind_of_error h₁] at h
      obtain ⟨⟨⟩, rfl⟩ := Prod.mk.inj h
      exact hx.waits h₁
    · obtain ⟨used, rest, rfl, hb, rfl⟩ := hp.sound_clean h₁
      rw [Step.bind_of_ok h₁] at h
      have := (hk b).waits h
      rw [List.length_append]
      omega

theorem of_short {G : Grammar α} {x : Step Cursor α} {count : Nat} (hp : x.Parses G)
    (hG : ∀ bs : Bytes, bs.length = count → ∃ a, G bs a)
    (hshort : ∀ (bytes : Bytes) (offset : Nat) (frames : List Tag), bytes.length < count →
      ∃ c, x ⟨bytes, .clean, offset, frames⟩ =
        (.error (.truncated count ⟨frames.head?, offset⟩), c)) : x.Streams := by
  have hfew {bytes : Bytes} {offset : Nat} {frames : List Tag} {f : Failure} {c : Cursor}
      (h : x ⟨bytes, .clean, offset, frames⟩ = (.error f, c)) : bytes.length < count := by
    refine Nat.lt_of_not_le fun hle ↦ ?_
    obtain ⟨a, ha⟩ := hG (bytes.take count) (List.length_take_of_le hle)
    have hall := hp.complete ha (bytes.drop count) .clean offset frames
    rw [List.take_append_drop, h] at hall
    cases hall
  constructor
  · intro bytes offset frames f c h more hmore
    obtain ⟨d, hd⟩ := hshort bytes offset frames (hfew h)
    obtain ⟨⟨⟩, -⟩ := Prod.mk.inj (h.symm.trans hd)
    exact hshort (bytes ++ more) offset frames (Nat.lt_of_add_lt_add_left (hmore count _ rfl))
  · intro bytes offset frames wanted place c h
    have hlt := hfew h
    obtain ⟨d, hd⟩ := hshort bytes offset frames hlt
    obtain ⟨⟨⟩, -⟩ := Prod.mk.inj (h.symm.trans hd)
    exact ⟨Nat.le_add_right offset bytes.length, Nat.add_lt_add_left hlt offset⟩

/-- A judge does not complain of missing bytes. -/
theorem judged {G : Grammar β} {x : Step Cursor β} {judge : β → Location → Except Failure α}
    (hp : x.Parses G) (hx : x.Streams)
    (hj : ∀ b at_ wanted place, judge b at_ ≠ .error (.truncated wanted place)) :
    (x.judged judge).Streams := by
  constructor
  · intro bytes offset frames f c h more hmore
    simp only [Step.judged] at h ⊢
    split at h
    · next b d h₁ =>
      obtain ⟨used, rest, rfl, hb, rfl⟩ := hp.sound_clean h₁
      rw [List.append_assoc, hp.complete hb]
      exact ⟨_, Prod.ext (Prod.mk.inj h).1 rfl⟩
    · next g d h₁ =>
      obtain ⟨⟨⟩, rfl⟩ := Prod.mk.inj h
      obtain ⟨d', h'⟩ := hx.stays h₁ more hmore
      rw [h']
      exact ⟨d', rfl⟩
  · intro bytes offset frames wanted place c h
    simp only [Step.judged] at h
    split at h
    · exact (hj _ _ _ _ (Prod.mk.inj h).1).elim
    · next g d h₁ =>
      obtain ⟨⟨⟩, rfl⟩ := Prod.mk.inj h
      exact hx.waits h₁

theorem within {x : Step Cursor β} (hx : x.Streams) (t : Tag) : (x.within t).Streams := by
  constructor
  · intro bytes offset frames f c h more hmore
    simp only [Step.within, Cursor.enter] at h ⊢
    split at h
    · cases h
    · next g d h₁ =>
      obtain ⟨⟨⟩, rfl⟩ := Prod.mk.inj h
      obtain ⟨d', h'⟩ := hx.stays h₁ more hmore
      rw [h']
      exact ⟨d', rfl⟩
  · intro bytes offset frames wanted place c h
    simp only [Step.within, Cursor.enter] at h
    split at h
    · cases h
    · next g d h₁ =>
      obtain ⟨⟨⟩, rfl⟩ := Prod.mk.inj h
      exact hx.waits h₁

/-- Bytes that stand for a value are cut short anywhere with the same kind of failure, which waits
for some of the bytes that were cut off and for no others. -/
theorem of_take {G : Grammar α} {x : Step Cursor α} (hx : x.Streams) (hp : x.Parses G)
    {bs : Bytes} {a : α} (hb : G bs a) {k : Nat} (hk : k < bs.length) (offset : Nat)
    (frames : List Tag) : ∃ wanted place c,
      x ⟨bs.take k, .clean, offset, frames⟩ = (.error (.truncated wanted place), c) ∧
        place.offset ≤ offset + k ∧ offset + k < place.offset + wanted ∧
        place.offset + wanted ≤ offset + bs.length := by
  have hlen : (bs.take k).length = k := List.length_take_of_le (Nat.le_of_lt hk)
  have hall := hp.complete hb [] .clean offset frames
  rw [List.append_nil] at hall
  rcases h : x ⟨bs.take k, .clean, offset, frames⟩ with ⟨f | a', d⟩
  · by_cases hmore : ∀ wanted place, f = .truncated wanted place →
        offset + (bs.take k ++ bs.drop k).length < place.offset + wanted
    · obtain ⟨d', h'⟩ := hx.stays h (bs.drop k) hmore
      rw [List.take_append_drop, hall] at h'
      cases h'
    · simp only [Classical.not_forall, Nat.not_lt, List.take_append_drop] at hmore
      obtain ⟨wanted, place, rfl, hle⟩ := hmore
      obtain ⟨hplace, hlt⟩ := hx.waits h
      rw [hlen] at hplace hlt
      exact ⟨wanted, place, d, rfl, hplace, hlt, hle⟩
  · -- What was read from the front is read from all of it, and more is left than the end allows.
    obtain ⟨used, rest, hbs, ha', rfl⟩ := hp.sound_clean h
    have hmore := hp.complete ha' (rest ++ bs.drop k) .clean offset frames
    rw [← List.append_assoc, ← hbs, List.take_append_drop, hall] at hmore
    have hnil := congrArg (fun r ↦ r.2.rest.length) hmore
    simp only [List.length_nil, List.length_append, List.length_drop] at hnil
    omega

end Streams

end Step

namespace Cursor

theorem readWord_short {width : Nat} (bytes : Bytes) (offset : Nat) (frames : List Tag)
    (h : bytes.length < width) : ∃ c, readWord width ⟨bytes, .clean, offset, frames⟩ =
      (.error (.truncated width ⟨frames.head?, offset⟩), c) := by
  have hne : (bytes.take width).length ≠ width := by
    rw [List.length_take]
    omega
  simp only [readWord, fill_clean, if_neg hne, endFault?]
  exact ⟨_, rfl⟩

theorem readBytes_short {count : Nat} (bytes : Bytes) (offset : Nat) (frames : List Tag)
    (h : bytes.length < count) : ∃ c, readBytes count ⟨bytes, .clean, offset, frames⟩ =
      (.error (.truncated count ⟨frames.head?, offset⟩), c) := by
  have hne : (bytes.take count).length ≠ count := by
    rw [List.length_take]
    omega
  simp only [readBytes, fill_clean, if_neg hne, endFault?]
  exact ⟨_, rfl⟩

theorem readWord_streams (width : Nat) : (readWord width).Streams :=
  .of_short (readWord_parses width) (fun _ h ↦ ⟨_, h, rfl⟩) readWord_short

theorem readBytes_streams (count : Nat) : (readBytes count).Streams :=
  .of_short (readBytes_parses count) (fun _ h ↦ ⟨_, h, rfl⟩) readBytes_short

end Cursor

namespace Plan

variable {scope : Scope} {G : (e : Expectation) → Grammar e.Content}
  {frame : (e : Expectation) → Step Cursor e.Content} {α β : Type}

theorem streams (hG : ∀ e, (frame e).Parses (G e)) (hframe : ∀ e, (frame e).Streams)
    (p : Plan α) : Step.Streams (p.run scope frame) := by
  induction p with
  | pure a => exact .pure a
  | bind first next ih₁ ih₂ =>
    rw [run_bind]
    exact .bind (parses hG first) ih₁ ih₂
  | word width => exact Cursor.readWord_streams width
  | bytes count => exact Cursor.readBytes_streams count
  | text =>
    rw [run_text]
    refine .judged (Cursor.readWord_parses 4) (Cursor.readWord_streams 4)
      fun id at_ wanted place ↦ ?_
    split <;> simp
  | typed name ih =>
    rw [run_typed]
    refine .judged (parses hG name) ih fun s at_ wanted place ↦ ?_
    split <;> simp
  | checked value check ih =>
    rw [run_checked]
    refine .judged (parses hG value) ih fun b at_ wanted place ↦ ?_
    split <;> simp
  | child e => exact hframe e

end Plan

end Wire

open Wire

namespace Decoder

theorem opening_streams (p : Placement) (e : Expectation) : (opening p e).Streams := by
  have hplan : Plan.tag.runPlain.Streams :=
    Plan.streams (fun _ ↦ Step.fail_parses _) (fun _ ↦ .fail (by simp)) Plan.tag
  rw [opening_eq]
  refine .judged (Plan.runPlain_parses Plan.tag) hplan fun t at_ wanted place ↦ ?_
  cases p <;> split <;> simp [Placement.mismatch]

theorem frame_streams (d : Decoder) (levels : Nat) (p : Placement) (e : Expectation) :
    (d.frame levels p e).Streams := by
  induction levels generalizing p e with
  | zero =>
    rw [frame_zero]
    exact .judged (opening_parses p e) (opening_streams p e) fun _ _ _ _ ↦ by simp
  | succ levels ih =>
    have hbody (t : Tag) :
        Step.Streams ((Node.plan d.layout t).run d.scope (d.frame levels .embedded)) :=
      Plan.streams (d.frame_parses levels .embedded) (ih .embedded) (Node.plan d.layout t)
    rw [frame_succ]
    refine .judged ((opening_parses p e).bind fun t ↦ (d.plan_parses levels t).within t)
      (.bind (opening_parses p e) (opening_streams p e) fun t ↦ (hbody t).within t)
      fun n at_ wanted place ↦ ?_
    split <;> simp

end Decoder

end TreeBytecode
