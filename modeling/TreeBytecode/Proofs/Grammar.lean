import TreeBytecode.Proofs.Runs

namespace TreeBytecode

namespace Wire

/-- Bytes, and a value that they stand for. -/
abbrev Grammar (α : Type) := Bytes → α → Prop

/-- Soundness is about inputs that are not packed, for which the bytes at hand are all there is. -/
structure Step.Parses {α : Type} (x : Step Cursor α) (G : Grammar α) : Prop where
  complete {bs : Bytes} {a : α} (h : G bs a) (rest : Bytes) (ending : Ending) (offset : Nat)
    (frames : List Tag) : x ⟨bs ++ rest, ending, offset, frames⟩ =
      (.ok a, ⟨rest, ending, offset + bs.length, frames⟩)
  sound {bytes : Bytes} {fault? : Option Fault} {offset : Nat} {frames : List Tag} {a : α}
    {c : Cursor} (h : x ⟨bytes, .ofFault? fault?, offset, frames⟩ = (.ok a, c)) :
    ∃ bs rest, bytes = bs ++ rest ∧ G bs a ∧
      c = ⟨rest, .ofFault? fault?, offset + bs.length, frames⟩

namespace Step

variable {α β : Type}

theorem fail_parses (f : Failure) : (fail f : Step Cursor α).Parses fun _ _ ↦ False := by
  refine ⟨False.elim, fun h ↦ ?_⟩
  rw [fail_apply] at h
  cases h

namespace Parses

variable {G H : Grammar β} {x : Step Cursor β}

theorem congr (hx : x.Parses G) (h : ∀ bs b, G bs b ↔ H bs b) : x.Parses H := by
  have he : G = H := funext fun bs ↦ funext fun b ↦ propext (h bs b)
  rwa [← he]

/-- Bytes stand for one value at most, and so does the front of an input. -/
theorem unique (hx : x.Parses G) {bs bs' rest rest' : Bytes} {b b' : β} (h : G bs b)
    (h' : G bs' b') (heq : bs ++ rest = bs' ++ rest') : b = b' ∧ rest = rest' := by
  have hrun := hx.complete h rest .clean 0 []
  rw [heq, hx.complete h'] at hrun
  obtain ⟨hb, hc⟩ := Prod.mk.inj hrun
  exact ⟨(Except.ok.inj hb).symm, (congrArg Cursor.rest hc).symm⟩

theorem sound_clean (hx : x.Parses G) {bytes : Bytes} {offset : Nat} {frames : List Tag} {b : β}
    {c : Cursor} (h : x ⟨bytes, .clean, offset, frames⟩ = (.ok b, c)) :
    ∃ bs rest, bytes = bs ++ rest ∧ G bs b ∧ c = ⟨rest, .clean, offset + bs.length, frames⟩ :=
  @sound _ _ _ hx _ none _ _ _ _ h

theorem pure (a : α) : (Pure.pure a : Step Cursor α).Parses fun bs b ↦ bs = [] ∧ b = a := by
  constructor
  · rintro _ _ ⟨rfl, rfl⟩ rest ending offset frames
    rfl
  · rintro bytes fault? offset frames b c ⟨⟩
    exact ⟨[], bytes, rfl, ⟨rfl, rfl⟩, rfl⟩

theorem bind {K : β → Grammar α} {k : β → Step Cursor α} (hx : x.Parses G)
    (hk : ∀ b, (k b).Parses (K b)) : (x >>= k).Parses fun bs a ↦
      ∃ b bs₁ bs₂, G bs₁ b ∧ K b bs₂ a ∧ bs = bs₁ ++ bs₂ := by
  constructor
  · rintro _ a ⟨b, bs₁, bs₂, h₁, h₂, rfl⟩ rest ending offset frames
    rw [List.append_assoc, Step.bind_of_ok (hx.complete h₁ ..), (hk b).complete h₂,
      List.length_append, Nat.add_assoc]
  · intro bytes fault? offset frames a c h
    obtain ⟨b, d, h₁, h₂⟩ := Step.bind_eq_ok.1 h
    obtain ⟨bs₁, rest₁, rfl, hb, rfl⟩ := hx.sound h₁
    obtain ⟨bs₂, rest₂, rfl, ha, rfl⟩ := (hk b).sound h₂
    refine ⟨bs₁ ++ bs₂, rest₂, (List.append_assoc ..).symm, ⟨b, bs₁, bs₂, hb, ha, rfl⟩, ?_⟩
    rw [List.length_append, Nat.add_assoc]

/-- What a judge lets pass does not depend on the place. -/
theorem judged {judge : β → Location → Except Failure α} {J : β → α → Prop} (hx : x.Parses G)
    (hj : ∀ b at_ a, judge b at_ = .ok a ↔ J b a) :
    (x.judged judge).Parses fun bs a ↦ ∃ b, G bs b ∧ J b a := by
  constructor
  · rintro bs a ⟨b, hb, ha⟩ rest ending offset frames
    simp only [Step.judged, hx.complete hb, (hj b _ a).2 ha]
  · intro bytes fault? offset frames a c h
    simp only [Step.judged] at h
    split at h
    · next b d h₁ =>
      obtain ⟨bs, rest, rfl, hb, rfl⟩ := hx.sound h₁
      obtain ⟨ha, rfl⟩ := Prod.mk.inj h
      exact ⟨bs, rest, rfl, ⟨b, hb, (hj b _ a).1 ha⟩, rfl⟩
    · cases h

theorem within (t : Tag) (hx : x.Parses G) : (x.within t).Parses G := by
  constructor
  · intro bs b hb rest ending offset frames
    simp only [Step.within, Cursor.enter, hx.complete hb, Cursor.leave, List.tail_cons]
  · intro bytes fault? offset frames b c h
    simp only [Step.within, Cursor.enter] at h
    split at h
    · next b' d h₁ =>
      obtain ⟨bs, rest, rfl, hb, rfl⟩ := hx.sound h₁
      obtain ⟨⟨⟩, rfl⟩ := Prod.mk.inj h
      exact ⟨bs, rest, rfl, hb, rfl⟩
    · cases h

end Parses

end Step

namespace Cursor

theorem fill_append {bs : Bytes} {count : Nat} (h : bs.length = count) (rest : Bytes)
    (ending : Ending) (offset : Nat) (frames : List Tag) :
    fill count ⟨bs ++ rest, ending, offset, frames⟩ = ⟨bs ++ rest, ending, offset, frames⟩ := by
  subst h
  simp [fill]

theorem fill_ofFault? (count : Nat) (bytes : Bytes) (fault? : Option Fault) (offset : Nat)
    (frames : List Tag) : fill count ⟨bytes, .ofFault? fault?, offset, frames⟩ =
      ⟨bytes, .ofFault? fault?, offset, frames⟩ := by
  cases fault? with
  | none => exact fill_clean ..
  | some fault => exact fill_faulty ..

theorem readWord_parses (width : Nat) :
    (readWord width).Parses fun bs n ↦ bs.length = width ∧ n = ofBytes bs where
  complete := by
    rintro bs _ ⟨rfl, rfl⟩ rest ending offset frames
    simp only [readWord, fill_append rfl, List.take_left, if_true, List.drop_left]
  sound := by
    intro bytes fault? offset frames n c h
    simp only [readWord, fill_ofFault?] at h
    split at h
    · next hl =>
      obtain ⟨hn, rfl⟩ := Prod.mk.inj h
      refine ⟨bytes.take width, bytes.drop width, (List.take_append_drop ..).symm,
        ⟨hl, (Except.ok.inj hn).symm⟩, ?_⟩
      rw [hl]
    · cases h

theorem readBytes_parses (count : Nat) :
    (readBytes count).Parses fun bs cs ↦ bs.length = count ∧ cs = bs where
  complete := by
    rintro bs _ ⟨rfl, rfl⟩ rest ending offset frames
    simp only [readBytes, fill_append rfl, List.take_left, if_true, List.drop_left]
  sound := by
    intro bytes fault? offset frames cs c h
    simp only [readBytes, fill_ofFault?] at h
    split at h
    · next hl =>
      obtain ⟨hn, rfl⟩ := Prod.mk.inj h
      refine ⟨bytes.take count, bytes.drop count, (List.take_append_drop ..).symm,
        ⟨hl, (Except.ok.inj hn).symm⟩, ?_⟩
      rw [hl]
    · split at h <;> cases h

end Cursor

namespace Plan

variable {scope : Scope} {G : (e : Expectation) → Grammar e.Content}
  {frame : (e : Expectation) → Step Cursor e.Content} {α β : Type}

/-- The grammar of a plan, with `G` for the frames inside. -/
def Yields (scope : Scope) (G : (e : Expectation) → Grammar e.Content) :
    {α : Type} → Plan α → Grammar α
  | _, .pure a => fun bs b ↦ bs = [] ∧ b = a
  | _, .bind first next => fun bs a ↦
    ∃ b bs₁ bs₂, first.Yields scope G bs₁ b ∧ (next b).Yields scope G bs₂ a ∧ bs = bs₁ ++ bs₂
  | _, .word width => fun bs n ↦ bs.length = width ∧ n = ofBytes bs
  | _, .bytes count => fun bs cs ↦ bs.length = count ∧ cs = bs
  | _, .text => fun bs s ↦ bs.length = 4 ∧ scope.table.get? (ofBytes bs) = some s
  | _, .typed name => fun bs t ↦
    ∃ s, name.Yields scope G bs s ∧ scope.types.typeRef? s = some t
  | _, .checked value check => fun bs a ↦ ∃ b, value.Yields scope G bs b ∧ check b = .ok a
  | _, .child e => G e

/-- A plan reads what its grammar derives, if that holds of the frames inside. -/
theorem parses (hG : ∀ e, (frame e).Parses (G e)) (p : Plan α) :
    Step.Parses (p.run scope frame) (p.Yields scope G) := by
  induction p with
  | pure a => exact .pure a
  | bind first next ih₁ ih₂ =>
    rw [run_bind]
    exact ih₁.bind ih₂
  | word width => exact Cursor.readWord_parses width
  | bytes count => exact Cursor.readBytes_parses count
  | text =>
    rw [run_text]
    refine ((Cursor.readWord_parses 4).judged (J := fun id s ↦ scope.table.get? id = some s)
      fun id at_ s ↦ ?_).congr fun bs s ↦ ?_
    · cases scope.table.get? id <;> simp
    · simp only [Yields, and_assoc, exists_and_left, exists_eq_left]
  | typed name ih =>
    rw [run_typed]
    refine ih.judged fun s at_ t ↦ ?_
    cases scope.types.typeRef? s <;> simp
  | checked value check ih =>
    rw [run_checked]
    refine ih.judged fun b at_ a ↦ ?_
    cases check b <;> simp
  | child e => exact hG e

theorem runPlain_parses (p : Plan α) : p.runPlain.Parses (p.Yields Scope.empty fun _ _ _ ↦ False) :=
  parses (fun _ ↦ Step.fail_parses _) p

theorem tag_yields {bs : Bytes} {t : Tag} : tag.Yields scope G bs t ↔ bs = [t.code] := by
  constructor
  · rintro ⟨n, ⟨hl, rfl⟩, hc⟩
    dsimp only at hc
    split at hc
    · next u hu =>
      cases hc
      have hcode := Tag.code_of_ofCode? hu
      obtain ⟨b, rfl⟩ := List.length_eq_one_iff.1 hl
      rw [ofBytes, ofBytes, Nat.mul_zero, Nat.add_zero] at hcode
      rw [UInt8.toNat_inj.1 hcode]
    · cases hc
  · rintro rfl
    refine ⟨t.code.toNat, ⟨rfl, rfl⟩, ?_⟩
    simp only [Tag.ofCode?_code]

end Plan

end Wire

open Wire

namespace Decoder

theorem opening_parses (p : Placement) (e : Expectation) :
    (opening p e).Parses fun bs t ↦ bs = [t.code] ∧ e.accepts t = true := by
  rw [opening_eq]
  refine ((Plan.runPlain_parses Plan.tag).judged (J := fun t u ↦ e.accepts t = true ∧ t = u)
    fun t at_ u ↦ ?_).congr fun bs t ↦ ?_
  · cases e.accepts t <;> simp
  · simp only [Plan.tag_yields]
    constructor
    · rintro ⟨u, hu, ht, rfl⟩
      exact ⟨hu, ht⟩
    · rintro ⟨hb, ht⟩
      exact ⟨t, hb, ht, rfl⟩

/-- The grammar of frames of which at most `levels` are nested. -/
def Accepts (d : Decoder) : (levels : Nat) → (e : Expectation) → Grammar e.Content
  | 0, _ => fun _ _ ↦ False
  | levels + 1, e => fun bs v ↦ ∃ t payload n, bs = t.code :: payload ∧ e.accepts t = true ∧
    (Node.plan d.layout t).Yields d.scope (d.Accepts levels) payload n ∧ e.ofNode? n = some v

theorem frame_parses (d : Decoder) (levels : Nat) (p : Placement) (e : Expectation) :
    (d.frame levels p e).Parses (d.Accepts levels e) := by
  induction levels generalizing p e with
  | zero =>
    rw [frame_zero]
    refine ((opening_parses p e).judged (J := fun _ _ ↦ False) fun t at_ v ↦ ?_).congr
      fun bs v ↦ ?_
    · refine ⟨fun h ↦ ?_, False.elim⟩
      cases h
    · refine ⟨?_, False.elim⟩
      rintro ⟨_, _, h⟩
      exact h
  | succ levels ih =>
    rw [frame_succ]
    have hplan (t : Tag) :
        Step.Parses ((Node.plan d.layout t).run d.scope (d.frame levels .embedded))
          ((Node.plan d.layout t).Yields d.scope (d.Accepts levels)) :=
      Plan.parses (ih .embedded) (Node.plan d.layout t)
    have hbody := (opening_parses p e).bind fun t ↦ (hplan t).within t
    refine (hbody.judged (J := fun n v ↦ e.ofNode? n = some v) fun n at_ v ↦ ?_).congr
      fun bs v ↦ ?_
    · cases e.ofNode? n <;> simp
    · constructor
      · rintro ⟨n, ⟨t, _, payload, ⟨rfl, ht⟩, hn, rfl⟩, hv⟩
        exact ⟨t, payload, n, rfl, ht, hn, hv⟩
      · rintro ⟨t, payload, n, rfl, ht, hn, hv⟩
        exact ⟨n, ⟨t, [t.code], payload, ⟨rfl, ht⟩, hn, rfl⟩, hv⟩

theorem plan_parses (d : Decoder) (levels : Nat) (t : Tag) :
    Step.Parses ((Node.plan d.layout t).run d.scope (d.frame levels .embedded))
      ((Node.plan d.layout t).Yields d.scope (d.Accepts levels)) :=
  Plan.parses (d.frame_parses levels .embedded) (Node.plan d.layout t)

end Decoder

end TreeBytecode
