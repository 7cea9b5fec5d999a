import TreeBytecode.Proofs.Grammar

namespace TreeBytecode

namespace Wire

open TreeBytecode.Stream (Demand)

inductive Ending.Brings : Ending → Bytes → Ending → Prop
  | nothing (e : Ending) : Brings e [] e
  | supply (d : Demand) {e e' : Ending} {more : Bytes} (h : Brings (e.supply d).2 more e') :
      Brings e ((e.supply d).1 ++ more) e'

theorem Ending.Brings.trans {e₁ e₂ e₃ : Ending} {bs cs : Bytes} (h : e₁.Brings bs e₂)
    (h' : e₂.Brings cs e₃) : e₁.Brings (bs ++ cs) e₃ := by
  induction h with
  | nothing => exact h'
  | supply d _ ih =>
    rw [List.append_assoc]
    exact .supply d (ih h')

theorem Ending.Brings.of_ofFault? {fault? : Option Fault} {e : Ending} {bs : Bytes}
    (h : (ofFault? fault?).Brings bs e) : bs = [] ∧ e = .ofFault? fault? := by
  have hsupply (d : Demand) : (ofFault? fault?).supply d = ([], .ofFault? fault?) := by
    cases fault? <;> rfl
  generalize hstart : ofFault? fault? = start at h
  induction h with
  | nothing => exact ⟨rfl, rfl⟩
  | supply d _ ih =>
    subst hstart
    rw [hsupply] at ih ⊢
    exact ih rfl

namespace Cursor

/-- From one cursor to another, these bytes were taken off the front of the input. -/
def Consumes (c : Cursor) (used : Bytes) (c' : Cursor) : Prop :=
  ∃ brought, c.ending.Brings brought c'.ending ∧ c.rest ++ brought = used ++ c'.rest

theorem Consumes.refl (c : Cursor) : c.Consumes [] c := ⟨[], .nothing _, List.append_nil _⟩

theorem Consumes.trans {c₁ c₂ c₃ : Cursor} {used used' : Bytes} (h : c₁.Consumes used c₂)
    (h' : c₂.Consumes used' c₃) : c₁.Consumes (used ++ used') c₃ := by
  obtain ⟨brought, hends, hrest⟩ := h
  obtain ⟨brought', hends', hrest'⟩ := h'
  refine ⟨brought ++ brought', hends.trans hends', ?_⟩
  rw [← List.append_assoc, hrest, List.append_assoc, hrest', List.append_assoc]

/-- The bytes at hand are all there is of an input that is not packed. -/
theorem consumes_iff {c c' : Cursor} {fault? : Option Fault} (hc : c.ending = .ofFault? fault?)
    {used : Bytes} :
    c.Consumes used c' ↔ c'.ending = .ofFault? fault? ∧ c.rest = used ++ c'.rest := by
  rw [Consumes, hc]
  constructor
  · rintro ⟨brought, hends, hrest⟩
    obtain ⟨rfl, hending⟩ := hends.of_ofFault?
    exact ⟨hending, by rw [← hrest, List.append_nil]⟩
  · rintro ⟨hending, hrest⟩
    exact ⟨[], hending ▸ .nothing _, by rw [hrest, List.append_nil]⟩

theorem fill_consumes (count : Nat) (c : Cursor) : c.Consumes [] (c.fill count) := by
  rw [fill]
  split
  · exact .refl c
  · exact ⟨_, .supply _ (.nothing _), by rw [List.append_nil, List.nil_append]⟩

theorem fill_offset (count : Nat) (c : Cursor) : (c.fill count).offset = c.offset := by
  rw [fill]
  split <;> rfl

theorem fill_frames (count : Nat) (c : Cursor) : (c.fill count).frames = c.frames := by
  rw [fill]
  split <;> rfl

/-- Bringing bytes to hand takes none of them yet. -/
theorem consumes_of_fill {c c' : Cursor} {count : Nat} {used : Bytes}
    (hending : c'.ending = (c.fill count).ending)
    (hrest : (c.fill count).rest = used ++ c'.rest) : c.Consumes used c' := by
  refine (fill_consumes count c).trans ⟨[], ?_, ?_⟩
  · rw [hending]
    exact .nothing _
  · rw [hrest, List.append_nil]

/-- These bytes were taken and counted, and the same frames are open as before. -/
structure Passes (c : Cursor) (used : Bytes) (c' : Cursor) : Prop where
  consumes : c.Consumes used c'
  offset : c'.offset = c.offset + used.length
  frames : c'.frames = c.frames

end Cursor

/-- The input failed: it had not the bytes that were wanted, or it had a fault. -/
def Failure.ofInput : Failure → Bool
  | .truncated .. | .device _ => true
  | _ => false

namespace Cursor

/-- What is left of a cursor by a failure inside at most `levels` frames. -/
structure Stops (c : Cursor) (levels : Nat) (f : Failure) (c' : Cursor) : Prop where
  frames : c.frames <:+ c'.frames
  depth_le : c'.depth ≤ c.depth + levels
  counted : ∃ used, c.Consumes used c' ∧ c'.offset ≤ c.offset + used.length ∧
    (f.ofInput = false → c'.offset = c.offset + used.length)

variable {c c' c'' : Cursor} {used used' : Bytes} {levels : Nat} {f : Failure}

theorem Passes.refl (c : Cursor) : c.Passes [] c := ⟨.refl c, rfl, rfl⟩

theorem Passes.trans (h : c.Passes used c') (h' : c'.Passes used' c'') :
    c.Passes (used ++ used') c'' where
  consumes := h.consumes.trans h'.consumes
  offset := by rw [h'.offset, h.offset, List.length_append, Nat.add_assoc]
  frames := h'.frames.trans h.frames

theorem Stops.refl (c : Cursor) (levels : Nat) (f : Failure) : c.Stops levels f c where
  frames := List.suffix_rfl
  depth_le := Nat.le_add_right _ _
  counted := ⟨[], .refl c, Nat.le_refl _, fun _ ↦ rfl⟩

theorem Passes.stops (h : c.Passes used c') (h' : c'.Stops levels f c'') :
    c.Stops levels f c'' := by
  obtain ⟨hframes, hdepth, used', hconsumes, hle, heq⟩ := h'
  rw [h.frames] at hframes
  rw [depth, depth, h.frames] at hdepth
  rw [h.offset, Nat.add_assoc, ← List.length_append] at hle heq
  exact ⟨hframes, hdepth, used ++ used', h.consumes.trans hconsumes, hle, heq⟩

theorem Passes.stop (h : c.Passes used c') (levels : Nat) (f : Failure) : c.Stops levels f c' :=
  h.stops (.refl c' levels f)

theorem Stops.mono (h : c.Stops levels f c') {more : Nat} (hle : levels ≤ more) :
    c.Stops more f c' :=
  ⟨h.frames, Nat.le_trans h.depth_le (Nat.add_le_add_left hle _), h.counted⟩

theorem Passes.leave {t : Tag} (h : (c.enter t).Passes used c') : c.Passes used c'.leave where
  consumes := h.consumes
  offset := h.offset
  frames := by rw [Cursor.leave, h.frames, enter, List.tail_cons]

theorem Stops.within {t : Tag} (h : (c.enter t).Stops levels f c') : c.Stops (levels + 1) f c' where
  frames := (List.suffix_cons t c.frames).trans h.frames
  depth_le := by
    have hdepth : c'.depth ≤ c.depth + 1 + levels := h.depth_le
    omega
  counted := h.counted

end Cursor

variable {α β : Type}

/-- A step that takes the bytes of `G` for its values, and opens at most `levels` frames. -/
structure Step.Tracks (x : Step Cursor α) (G : Grammar α) (levels : Nat) : Prop where
  ok {c c' : Cursor} {a : α} (h : x c = (.ok a, c')) : ∃ used, G used a ∧ c.Passes used c'
  error {c c' : Cursor} {f : Failure} (h : x c = (.error f, c')) : c.Stops levels f c'

namespace Step.Tracks

variable {G H : Grammar β} {x : Step Cursor β} {levels : Nat}

theorem mono (hx : x.Tracks G levels) (hG : ∀ bs b, G bs b → H bs b) {more : Nat}
    (hle : levels ≤ more) : x.Tracks H more where
  ok h := by
    obtain ⟨used, hb, hpasses⟩ := hx.ok h
    exact ⟨used, hG used _ hb, hpasses⟩
  error h := (hx.error h).mono hle

theorem pure (a : α) :
    (Pure.pure a : Step Cursor α).Tracks (fun bs b ↦ bs = [] ∧ b = a) levels where
  ok {c _ _} h := by
    cases h
    exact ⟨[], ⟨rfl, rfl⟩, .refl c⟩
  error h := by cases h

theorem fail (f : Failure) : (Step.fail f : Step Cursor α).Tracks (fun _ _ ↦ False) levels where
  ok h := by cases h
  error {c _ _} h := by
    cases h
    exact .refl c levels f

theorem bind {K : β → Grammar α} {k : β → Step Cursor α} (hx : x.Tracks G levels)
    (hk : ∀ b, (k b).Tracks (K b) levels) : (x >>= k).Tracks (fun bs a ↦
      ∃ b bs₁ bs₂, G bs₁ b ∧ K b bs₂ a ∧ bs = bs₁ ++ bs₂) levels where
  ok h := by
    obtain ⟨b, d, h₁, h₂⟩ := Step.bind_eq_ok.1 h
    obtain ⟨bs₁, hb, hpasses₁⟩ := hx.ok h₁
    obtain ⟨bs₂, ha, hpasses₂⟩ := (hk b).ok h₂
    exact ⟨bs₁ ++ bs₂, ⟨b, bs₁, bs₂, hb, ha, rfl⟩, hpasses₁.trans hpasses₂⟩
  error {c c' f} h := by
    rcases h₁ : x c with ⟨g | b, d⟩
    · rw [Step.bind_of_error h₁] at h
      cases h
      exact hx.error h₁
    · rw [Step.bind_of_ok h₁] at h
      obtain ⟨bs₁, -, hpasses⟩ := hx.ok h₁
      exact hpasses.stops ((hk b).error h)

/-- What a judge does not let pass was taken and counted all the same. -/
theorem judged {judge : β → Location → Except Failure α} {J : β → α → Prop}
    (hx : x.Tracks G levels) (hj : ∀ b at_ a, judge b at_ = .ok a → J b a) :
    (x.judged judge).Tracks (fun bs a ↦ ∃ b, G bs b ∧ J b a) levels where
  ok {c c' a} h := by
    simp only [Step.judged] at h
    split at h
    · next b d h₁ =>
      obtain ⟨ha, rfl⟩ := Prod.mk.inj h
      obtain ⟨used, hb, hpasses⟩ := hx.ok h₁
      exact ⟨used, ⟨b, hb, hj b _ a ha⟩, hpasses⟩
    · cases h
  error {c c' f} h := by
    simp only [Step.judged] at h
    split at h
    · next b d h₁ =>
      obtain ⟨-, rfl⟩ := Prod.mk.inj h
      obtain ⟨used, -, hpasses⟩ := hx.ok h₁
      exact hpasses.stop levels f
    · next g d h₁ =>
      cases h
      exact hx.error h₁

theorem within (hx : x.Tracks G levels) (t : Tag) : (x.within t).Tracks G (levels + 1) where
  ok {c c' b} h := by
    simp only [Step.within] at h
    split at h
    · next b' d h₁ =>
      cases h
      obtain ⟨used, hb, hpasses⟩ := hx.ok h₁
      exact ⟨used, hb, hpasses.leave⟩
    · cases h
  error {c c' f} h := by
    simp only [Step.within] at h
    split at h
    · cases h
    · next g d h₁ =>
      cases h
      exact (hx.error h₁).within

end Step.Tracks

namespace Cursor

theorem stops_of_short {c c' : Cursor} {count levels : Nat} {f : Failure} (hf : f.ofInput = true)
    (hending : c'.ending = (c.fill count).ending) (hrest : c'.rest = [])
    (hoffset : c'.offset ≤ (c.fill count).offset + (c.fill count).rest.length)
    (hframes : c'.frames = (c.fill count).frames) : c.Stops levels f c' where
  frames := by simp only [hframes, fill_frames, List.suffix_rfl]
  depth_le := by
    rw [depth, hframes, fill_frames]
    exact Nat.le_add_right _ _
  counted := by
    rw [fill_offset] at hoffset
    have hlost : (c.fill count).rest = (c.fill count).rest ++ c'.rest := by
      rw [hrest, List.append_nil]
    refine ⟨(c.fill count).rest, consumes_of_fill hending hlost, hoffset, fun hf' ↦ ?_⟩
    rw [hf] at hf'
    cases hf'

theorem passes_of_fill {c : Cursor} {count : Nat}
    (hl : ((c.fill count).rest.take count).length = count) :
    c.Passes ((c.fill count).rest.take count) { c.fill count with
      rest := (c.fill count).rest.drop count, offset := (c.fill count).offset + count } where
  consumes := consumes_of_fill rfl (List.take_append_drop ..).symm
  offset := by rw [hl, fill_offset]
  frames := fill_frames count c

theorem readWord_tracks (width levels : Nat) :
    (readWord width).Tracks (fun bs n ↦ bs.length = width ∧ n = ofBytes bs) levels where
  ok {c c' n} h := by
    simp only [readWord] at h
    split at h
    · next hl =>
      obtain ⟨hn, rfl⟩ := Prod.mk.inj h
      exact ⟨_, ⟨hl, (Except.ok.inj hn).symm⟩, passes_of_fill hl⟩
    · cases h
  error {c c' f} h := by
    simp only [readWord] at h
    split at h
    · cases h
    · obtain ⟨hf, rfl⟩ := Prod.mk.inj h
      refine stops_of_short ?_ rfl rfl (Nat.le_add_right _ _) rfl
      rw [← Except.error.inj hf]
      split <;> rfl

theorem readBytes_tracks (count levels : Nat) :
    (readBytes count).Tracks (fun bs cs ↦ bs.length = count ∧ cs = bs) levels where
  ok {c c' cs} h := by
    simp only [readBytes] at h
    split at h
    · next hl =>
      obtain ⟨hcs, rfl⟩ := Prod.mk.inj h
      exact ⟨_, ⟨hl, (Except.ok.inj hcs).symm⟩, passes_of_fill hl⟩
    · split at h <;> cases h
  error {c c' f} h := by
    simp only [readBytes] at h
    split at h
    · cases h
    · split at h
      · obtain ⟨⟨⟩, rfl⟩ := Prod.mk.inj h
        -- The bytes that were there count as read.
        refine stops_of_short rfl rfl rfl (Nat.add_le_add_left ?_ _) rfl
        exact List.length_take_le' _ _
      · obtain ⟨⟨⟩, rfl⟩ := Prod.mk.inj h
        exact stops_of_short rfl rfl rfl (Nat.le_add_right _ _) rfl

end Cursor

namespace Plan

variable {scope : Scope} {G : (e : Expectation) → Grammar e.Content}
  {frame : (e : Expectation) → Step Cursor e.Content} {levels : Nat}

theorem tracks (hG : ∀ e, (frame e).Tracks (G e) levels) (p : Plan α) :
    Step.Tracks (p.run scope frame) (p.Yields scope G) levels := by
  induction p with
  | pure a => exact .pure a
  | bind first next ih₁ ih₂ =>
    rw [run_bind]
    exact ih₁.bind ih₂
  | word width => exact Cursor.readWord_tracks width levels
  | bytes count => exact Cursor.readBytes_tracks count levels
  | text =>
    rw [run_text]
    refine ((Cursor.readWord_tracks 4 levels).judged
      (J := fun id s ↦ scope.table.get? id = some s) fun id at_ s h ↦ ?_).mono ?_ (Nat.le_refl _)
    · split at h
      · next hs => rw [hs, Except.ok.inj h]
      · cases h
    · rintro bs s ⟨id, ⟨hl, rfl⟩, hs⟩
      exact ⟨hl, hs⟩
  | typed name ih =>
    rw [run_typed]
    refine ih.judged fun s at_ t h ↦ ?_
    split at h
    · next ht => rw [ht, Except.ok.inj h]
    · cases h
  | checked value check ih =>
    rw [run_checked]
    refine ih.judged fun b at_ a h ↦ ?_
    split at h
    · next ha => rw [ha, Except.ok.inj h]
    · cases h
  | child e => exact hG e

theorem runPlain_tracks (p : Plan α) :
    p.runPlain.Tracks (p.Yields Scope.empty fun _ _ _ ↦ False) 0 :=
  tracks (fun _ ↦ Step.Tracks.fail _) p

end Plan

end Wire

open Wire

namespace Decoder

theorem opening_tracks (p : Placement) (e : Expectation) :
    (opening p e).Tracks (fun bs t ↦ bs = [t.code] ∧ e.accepts t = true) 0 := by
  have hjudge (t : Tag) (at_ : Location) (u : Tag)
      (h : (if e.accepts t then .ok t else .error (p.mismatch e t at_)) = Except.ok u) :
      e.accepts t = true ∧ t = u := by
    split at h
    · next ht => exact ⟨ht, Except.ok.inj h⟩
    · cases h
  rw [opening_eq]
  refine ((Plan.runPlain_tracks Plan.tag).judged hjudge).mono ?_ (Nat.le_refl _)
  rintro bs _ ⟨t, ht, haccepts, rfl⟩
  exact ⟨Plan.tag_yields.1 ht, haccepts⟩

/-- A frame opens as many frames as it has levels. -/
theorem frame_tracks (d : Decoder) (levels : Nat) (p : Placement) (e : Expectation) :
    (d.frame levels p e).Tracks (d.Accepts levels e) levels := by
  induction levels generalizing p e with
  | zero =>
    rw [frame_zero]
    refine ((opening_tracks p e).judged (J := fun _ _ ↦ False) fun t at_ v h ↦ ?_).mono ?_
      (Nat.le_refl _)
    · cases h
    · rintro bs v ⟨_, _, h⟩
      exact h
  | succ levels ih =>
    have hbody (t : Tag) : (Step.within t
        ((Node.plan d.layout t).run d.scope (d.frame levels .embedded))).Tracks
          ((Node.plan d.layout t).Yields d.scope (d.Accepts levels)) (levels + 1) :=
      (Plan.tracks (ih .embedded) (Node.plan d.layout t)).within t
    have hopening := (opening_tracks p e).mono (fun _ _ h ↦ h) (Nat.zero_le (levels + 1))
    rw [frame_succ]
    refine ((hopening.bind hbody).judged (J := fun n v ↦ e.ofNode? n = some v)
      fun n at_ v h ↦ ?_).mono ?_ (Nat.le_refl _)
    · split at h
      · next hv => rw [hv, Except.ok.inj h]
      · cases h
    · rintro bs v ⟨n, ⟨t, _, payload, ⟨rfl, ht⟩, hn, rfl⟩, hv⟩
      exact ⟨t, payload, n, rfl, ht, hn, hv⟩

theorem plan_tracks (d : Decoder) (levels : Nat) {α : Type} (p : Plan α) :
    Step.Tracks (p.run d.scope (d.frame levels .embedded))
      (p.Yields d.scope (d.Accepts levels)) levels :=
  Plan.tracks (d.frame_tracks levels .embedded) p

end Decoder

end TreeBytecode
