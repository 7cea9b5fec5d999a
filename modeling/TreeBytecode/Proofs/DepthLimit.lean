import TreeBytecode.Proofs.Agreement
import TreeBytecode.Proofs.Levels

namespace TreeBytecode

namespace Wire.Step

variable {α β : Type}

/-- The first step does the same as the second, or ends before it at a limit. -/
def CutsOff (limit : Nat) (x y : Step Cursor α) : Prop :=
  ∀ c, x c = y c ∨ ∃ place d, x c = (.error (.tooDeep limit place), d)

/-- With no more bytes than so many levels, a step does not end at a limit. -/
def Fits (levels : Nat) (x : Step Cursor α) : Prop :=
  ∀ bytes fault? offset frames, bytes.length ≤ levels → ∀ limit place c,
    x ⟨bytes, .ofFault? fault?, offset, frames⟩ ≠ (.error (.tooDeep limit place), c)

namespace Fits

variable {levels : Nat}

theorem pure (a : α) : Fits levels (Pure.pure a : Step Cursor α) := by
  rintro bytes fault? offset frames - limit place c ⟨⟩

theorem fail {f : Failure} (hf : ∀ limit place, f ≠ .tooDeep limit place) :
    Fits levels (Step.fail f : Step Cursor α) := by
  rintro bytes fault? offset frames - limit place c ⟨⟩
  exact hf limit place rfl

/-- What comes after a step has no more bytes than there were before it, and has fewer by those
that the step took. -/
theorem bind {G : Grammar β} {x : Step Cursor β} {k : β → Step Cursor α} {left : Nat}
    (hp : x.Parses G) (hG : ∀ bs b, G bs b → levels ≤ bs.length + left) (hx : x.Fits levels)
    (hk : ∀ b, (k b).Fits left) : (x >>= k).Fits levels := by
  intro bytes fault? offset frames hl limit place c h
  rcases h₁ : x ⟨bytes, .ofFault? fault?, offset, frames⟩ with ⟨f | b, d⟩
  · rw [Step.bind_of_error h₁] at h
    obtain ⟨⟨⟩, rfl⟩ := Prod.mk.inj h
    exact hx _ _ _ _ hl _ _ _ h₁
  · obtain ⟨used, rest, rfl, hb, rfl⟩ := hp.sound h₁
    rw [Step.bind_of_ok h₁] at h
    have hleft := hG used b hb
    rw [List.length_append] at hl
    exact hk b _ _ _ _ (by omega) _ _ _ h

theorem judged {x : Step Cursor β} {judge : β → Location → Except Failure α}
    (hx : x.Fits levels)
    (hj : ∀ b at_ limit place, judge b at_ ≠ .error (.tooDeep limit place)) :
    (x.judged judge).Fits levels := by
  intro bytes fault? offset frames hl limit place c h
  simp only [Step.judged] at h
  split at h
  · exact hj _ _ _ _ (Prod.mk.inj h).1
  · next f d h₁ =>
    obtain ⟨⟨⟩, rfl⟩ := Prod.mk.inj h
    exact hx _ _ _ _ hl _ _ _ h₁

theorem within {x : Step Cursor α} (hx : x.Fits levels) (t : Tag) : (x.within t).Fits levels := by
  intro bytes fault? offset frames hl limit place c h
  simp only [Step.within, Cursor.enter] at h
  split at h
  · cases h
  · next f d h₁ =>
    obtain ⟨⟨⟩, rfl⟩ := Prod.mk.inj h
    exact hx _ _ _ _ hl _ _ _ h₁

end Fits

/-- What a step comes to on bytes that stand for a value: the value, unless there are frames in
these bytes that are too deep; if there are, it fails at the first of them. -/
structure Reads (limit : Nat) (deep : Nat → Option Tag → List Location) (x : Step Cursor α)
    (bs : Bytes) (a : α) : Prop where
  all (rest : Bytes) (ending : Ending) (offset : Nat) (frames : List Tag)
    (h : deep offset frames.head? = []) : x ⟨bs ++ rest, ending, offset, frames⟩ =
      (.ok a, ⟨rest, ending, offset + bs.length, frames⟩)
  upTo (rest : Bytes) (ending : Ending) (offset : Nat) (frames : List Tag) {place : Location}
    {places : List Location} (h : deep offset frames.head? = place :: places) :
    ∃ c, x ⟨bs ++ rest, ending, offset, frames⟩ = (.error (.tooDeep limit place), c)

namespace Reads

variable {limit : Nat} {deep : Nat → Option Tag → List Location} {bs : Bytes}

theorem of_parses {G : Grammar α} {x : Step Cursor α} {a : α} (hp : x.Parses G) (ha : G bs a)
    (hd : ∀ offset frame?, deep offset frame? = []) : Reads limit deep x bs a where
  all rest ending offset frames _ := hp.complete ha rest ending offset frames
  upTo rest ending offset frames place places h := by
    rw [hd] at h
    cases h

theorem bind {deep' : Nat → Option Tag → List Location} {x : Step Cursor β}
    {k : β → Step Cursor α} {bs' : Bytes} {b : β} {a : α} (hx : Reads limit deep x bs b)
    (hk : Reads limit deep' (k b) bs' a) : Reads limit (fun offset frame? ↦
      deep offset frame? ++ deep' (offset + bs.length) frame?) (x >>= k) (bs ++ bs') a where
  all rest ending offset frames h := by
    obtain ⟨h, h'⟩ := List.append_eq_nil_iff.1 h
    rw [List.append_assoc, Step.bind_of_ok (hx.all _ ending offset frames h), hk.all _ _ _ _ h',
      List.length_append, Nat.add_assoc]
  upTo rest ending offset frames place places h := by
    rw [List.append_assoc]
    cases hd : deep offset frames.head? with
    | nil =>
      rw [hd, List.nil_append] at h
      rw [Step.bind_of_ok (hx.all _ ending offset frames hd)]
      exact hk.upTo _ _ _ _ h
    | cons first others =>
      rw [hd, List.cons_append] at h
      obtain ⟨rfl, -⟩ := List.cons.inj h
      obtain ⟨c, hc⟩ := hx.upTo (bs' ++ rest) ending offset frames hd
      exact ⟨c, Step.bind_of_error hc⟩

theorem judged {x : Step Cursor β} {judge : β → Location → Except Failure α} {b : β} {a : α}
    (hx : Reads limit deep x bs b) (hj : ∀ at_, judge b at_ = .ok a) :
    Reads limit deep (x.judged judge) bs a where
  all rest ending offset frames h := by
    simp only [Step.judged, hx.all rest ending offset frames h, hj]
  upTo rest ending offset frames place places h := by
    obtain ⟨c, hc⟩ := hx.upTo rest ending offset frames h
    exact ⟨c, by simp only [Step.judged, hc]⟩

theorem within {x : Step Cursor α} {a : α} (hx : Reads limit deep x bs a) (t : Tag) :
    Reads limit (fun offset _ ↦ deep offset (some t)) (x.within t) bs a where
  all rest ending offset frames h := by
    simp only [Step.within, Cursor.enter, hx.all rest ending offset (t :: frames) h, Cursor.leave,
      List.tail_cons]
  upTo rest ending offset frames place places h := by
    obtain ⟨c, hc⟩ := hx.upTo rest ending offset (t :: frames) h
    exact ⟨c, by simp only [Step.within, Cursor.enter, hc]⟩

end Reads

end Wire.Step

open Wire

namespace Wire.Plan

variable {scope : Scope} {frame : (e : Expectation) → Step Cursor e.Content} {α : Type}

theorem word_fits {levels : Nat} (width : Nat) : (Cursor.readWord width).Fits levels := by
  intro bytes fault? offset frames _ limit place c h
  simp only [Cursor.readWord] at h
  split at h
  · cases h
  · split at h <;> cases h

theorem bytes_fits {levels : Nat} (count : Nat) : (Cursor.readBytes count).Fits levels := by
  intro bytes fault? offset frames _ limit place c h
  simp only [Cursor.readBytes] at h
  split at h
  · cases h
  · split at h <;> cases h

theorem fits {G : (e : Expectation) → Grammar e.Content} (hG : ∀ e, (frame e).Parses (G e))
    {levels : Nat} (h : ∀ e, (frame e).Fits levels) (p : Plan α) :
    Step.Fits levels (p.run scope frame) := by
  induction p with
  | pure a => exact .pure a
  | bind first next ih₁ ih₂ =>
    rw [run_bind]
    exact .bind (parses hG first) (fun bs _ _ ↦ Nat.le_add_left levels bs.length) ih₁ ih₂
  | word width => exact word_fits width
  | bytes count => exact bytes_fits count
  | text =>
    rw [run_text]
    refine (word_fits 4).judged fun id at_ limit place ↦ ?_
    split <;> simp
  | typed name ih =>
    rw [run_typed]
    refine ih.judged fun s at_ limit place ↦ ?_
    split <;> simp
  | checked value check ih =>
    rw [run_checked]
    refine ih.judged fun b at_ limit place ↦ ?_
    split <;> simp
  | child e => exact h e

/-- A plan reads a value from a row of pieces, up to the first frame in the row that is too deep. -/
theorem reads {G : (e : Expectation) → Grammar e.Content} {layout : Layout} {limit levels : Nat}
    (h : ∀ e bs v, G e bs v → bs.length = (e.toNode v).width layout ∧
      Step.Reads limit (fun offset frame? ↦ (e.toNode v).starts layout levels ⟨frame?, offset⟩)
        (frame e) bs v) (p : Plan α) {bs : Bytes} {a : α} (ha : p.Yields scope G bs a) :
    ∃ ps, p.Spells ps a ∧ bs.length = Piece.widths layout ps ∧
      Step.Reads limit (fun offset frame? ↦ Piece.collect layout (fun offset m ↦
        m.starts layout levels ⟨frame?, offset⟩) offset ps) (p.run scope frame) bs a := by
  induction p generalizing bs with
  | pure b =>
    obtain ⟨rfl, rfl⟩ := ha
    exact ⟨[], ⟨rfl, rfl⟩, rfl, .of_parses (.pure a) ⟨rfl, rfl⟩ fun _ _ ↦ rfl⟩
  | bind first next ih₁ ih₂ =>
    obtain ⟨b, bs₁, bs₂, h₁, h₂, rfl⟩ := ha
    obtain ⟨ps₁, hs₁, hw₁, hr₁⟩ := ih₁ h₁
    obtain ⟨ps₂, hs₂, hw₂, hr₂⟩ := ih₂ b h₂
    refine ⟨ps₁ ++ ps₂, ⟨b, ps₁, ps₂, hs₁, hs₂, rfl⟩, ?_, ?_⟩
    · rw [Piece.widths_append, List.length_append, hw₁, hw₂]
    · have hr := Step.Reads.bind (k := fun b ↦ (next b).run scope frame) hr₁ hr₂
      rw [run_bind]
      simpa only [Piece.collect_append, hw₁] using hr
  | word width => exact ⟨_, rfl, ha.1, .of_parses (Cursor.readWord_parses _) ha fun _ _ ↦ rfl⟩
  | bytes count => exact ⟨_, rfl, ha.1, .of_parses (Cursor.readBytes_parses _) ha fun _ _ ↦ rfl⟩
  | text =>
    obtain ⟨hl, hs⟩ := ha
    have hword : Step.Reads limit (fun _ _ ↦ []) (Cursor.readWord 4) bs (ofBytes bs) :=
      .of_parses (Cursor.readWord_parses 4) ⟨hl, rfl⟩ fun _ _ ↦ rfl
    refine ⟨_, rfl, hl, ?_⟩
    rw [run_text]
    exact hword.judged fun at_ ↦ by rw [hs]
  | typed name ih =>
    obtain ⟨s, hs, ht⟩ := ha
    obtain ⟨handle, -, rfl⟩ := Option.map_eq_some_iff.1 ht
    obtain ⟨ps, hspells, hw, hr⟩ := ih hs
    refine ⟨ps, hspells, hw, ?_⟩
    rw [run_typed]
    exact hr.judged fun at_ ↦ by rw [ht]
  | checked value check ih =>
    obtain ⟨b, hb, hc⟩ := ha
    obtain ⟨ps, hspells, hw, hr⟩ := ih hb
    refine ⟨ps, ⟨b, hspells, hc⟩, hw, ?_⟩
    rw [run_checked]
    exact hr.judged fun at_ ↦ by rw [hc]
  | child e =>
    obtain ⟨hw, hr⟩ := h e bs a ha
    refine ⟨[.inner (e.toNode a)], rfl, hw, ?_⟩
    simp only [Piece.collect, List.append_nil]
    exact hr

end Wire.Plan

namespace Decoder

theorem opening_fits (p : Placement) (e : Expectation) (levels : Nat) :
    (opening p e).Fits levels := by
  have htag : Plan.tag.runPlain.Fits levels :=
    Plan.fits (fun _ ↦ Step.fail_parses _) (fun _ ↦ .fail (by simp)) Plan.tag
  rw [opening_eq]
  refine htag.judged fun t at_ limit place ↦ ?_
  cases p <;> split <;> simp [Placement.mismatch]

theorem frame_cutsOff (d : Decoder) (limit : Nat) {levels levels' : Nat} (h : levels ≤ levels')
    (p : Placement) (e : Expectation) :
    Step.CutsOff d.maxDepth (d.frame levels p e)
      ({ d with maxDepth := limit }.frame levels' p e) := by
  let stop (f : Failure) : Prop := ∃ place, f = .tooDeep d.maxDepth place
  have hagree : Step.AgreesUntil stop (d.frame levels p e)
      (frame ⟨d.scope, d.layout, limit⟩ levels' p e) :=
    d.frame_agreesUntil (.refl d.scope) h (.inr fun place ↦ ⟨place, rfl⟩) p e
  intro c
  obtain heq | ⟨_, c', ⟨place, rfl⟩, hc⟩ := hagree c
  · exact .inl heq
  · exact .inr ⟨place, c', hc⟩

/-- Each frame takes a byte for its tag before its depth counts. -/
theorem frame_fits (d : Decoder) (levels : Nat) (p : Placement) (e : Expectation) :
    (d.frame levels p e).Fits levels := by
  induction levels generalizing p e with
  | zero =>
    intro bytes fault? offset frames hl limit place c h
    obtain rfl := List.eq_nil_of_length_eq_zero (Nat.le_zero.1 hl)
    rcases ho : opening p e ⟨[], .ofFault? fault?, offset, frames⟩ with ⟨f | t, c'⟩
    · rw [d.frame_of_opening_error ho] at h
      obtain ⟨⟨⟩, rfl⟩ := Prod.mk.inj h
      exact opening_fits p e 0 _ _ _ _ hl _ _ _ ho
    · obtain ⟨bs, rest, hbs, ⟨rfl, -⟩, -⟩ := (opening_parses p e).sound ho
      cases hbs
  | succ levels ih =>
    have hplan (t : Tag) : Step.Fits levels
        ((Node.plan d.layout t).run d.scope (d.frame levels .embedded)) :=
      Plan.fits (d.frame_parses levels .embedded) (ih .embedded) (Node.plan d.layout t)
    have htag (bs : Bytes) (t : Tag) (h : bs = [t.code] ∧ e.accepts t = true) :
        levels + 1 ≤ bs.length + levels := by
      obtain ⟨rfl, -⟩ := h
      exact Nat.le_of_eq (Nat.add_comm levels 1)
    rw [frame_succ]
    refine (Step.Fits.bind (opening_parses p e) htag (opening_fits p e _) fun t ↦
      (hplan t).within t).judged fun n at_ limit place ↦ ?_
    split <;> simp

/-- What stands for a value does not depend on the limit that an error would name. -/
theorem accepts_maxDepth {scope : Scope} {layout : Layout} {limit limit' levels : Nat}
    {e : Expectation} {bs : Bytes} {v : e.Content} :
    Accepts ⟨scope, layout, limit⟩ levels e bs v ↔
      Accepts ⟨scope, layout, limit'⟩ levels e bs v := by
  rw [accepts_iff, accepts_iff]

/-- A node that some limit lets pass is read under any other limit up to the first frame that is
too deep for it. -/
theorem frame_reads (d : Decoder) {levels' : Nat} (levels : Nat) (p : Placement) {e : Expectation}
    {bs : Bytes} {v : e.Content} (h : d.Accepts levels' e bs v) :
    Step.Reads d.maxDepth (fun offset frame? ↦
      (e.toNode v).starts d.layout levels ⟨frame?, offset⟩) (d.frame levels p e) bs v := by
  induction levels' generalizing levels p e bs with
  | zero => exact h.elim
  | succ levels' ih =>
    have hmembers := members_of_accepts h
    obtain ⟨t, payload, n, rfl, ht, hn, hv⟩ := h
    obtain rfl := Expectation.ofNode?_eq_some_iff.1 hv
    cases levels with
    | zero =>
      have hopen := (opening_parses p e).complete (show [t.code] = [t.code] ∧ _ from ⟨rfl, ht⟩)
      constructor
      · intro rest ending offset frames h
        cases h
      · intro rest ending offset frames place places h
        obtain ⟨rfl, -⟩ := List.cons.inj h
        have htop := hopen (payload ++ rest) ending offset frames
        rw [List.singleton_append] at htop
        refine ⟨⟨payload ++ rest, ending, offset + 1, frames⟩, ?_⟩
        simp only [frame, List.cons_append, htop, Cursor.location, List.length_singleton]
    | succ levels =>
      obtain ⟨ps, hs, -, hplan⟩ := Plan.reads
        (fun e bs v hv ↦ ⟨length_of_accepts hv, ih levels .embedded hv⟩) (Node.plan d.layout t) hn
      obtain rfl := Node.tag_of_plan_spells hs
      obtain rfl := Node.plan_spells hmembers hs
      have hopens : Step.Reads d.maxDepth (fun _ _ ↦ []) (opening p e) [(e.toNode v).tag.code]
          (e.toNode v).tag := .of_parses (opening_parses p e) ⟨rfl, ht⟩ fun _ _ ↦ rfl
      have hbody := hopens.bind (k := fun t ↦ Step.within t ((Node.plan d.layout t).run d.scope
        (d.frame levels .embedded))) (hplan.within _)
      rw [frame_succ]
      exact hbody.judged fun at_ ↦ by rw [hv]

end Decoder

namespace Adapter

/-- What is read, under any limit, from bytes that some limit lets pass. -/
theorem load_of_accepts (a : Adapter) {scope : Scope} {limit : Nat} {e : Expectation} {bs : Bytes}
    {v : e.Content} (h : Decoder.Accepts ⟨scope, a.layout, limit⟩ limit e bs v) (d : Nat)
    (rest : Bytes) (ending : Ending) :
    ((e.toNode v).depth ≤ d → a.load scope d e (.start (bs ++ rest) ending) =
      (.ok v, ⟨rest, ending, 0 + bs.length, []⟩)) ∧
    (d < (e.toNode v).depth → ∃ place m c,
      ((e.toNode v).starts a.layout d .outside).head? = some place ∧
        ((e.toNode v).level d).head? = some m ∧ (bs ++ rest)[place.offset]? = some m.tag.code ∧
        a.load scope d e (.start (bs ++ rest) ending) = (.error (.tooDeep d place), c)) := by
  have hreads := Decoder.frame_reads ⟨scope, a.layout, d⟩ d .top (Decoder.accepts_maxDepth.1 h)
  constructor
  · intro hd
    exact hreads.all rest ending 0 [] (Node.starts_eq_nil_iff.2 hd)
  · intro hd
    have htags := Decoder.tags_of_accepts d h .outside
    cases hs : (e.toNode v).starts a.layout d .outside with
    | nil => exact absurd (Node.starts_eq_nil_iff.1 hs) (Nat.not_le_of_lt hd)
    | cons place places =>
      obtain ⟨c, hc⟩ := hreads.upTo rest ending 0 [] hs
      rw [hs] at htags
      obtain ⟨m, ms, htag, -, hm⟩ := List.forall₂_cons_left_iff.1 htags
      exact ⟨place, m, c, rfl, by rw [hm, List.head?_cons], htag.getElem? rest, hc⟩

/-- A node is read under each limit that its depth does not exceed, and under any other the reader
stops at the first frame that is one level too deep, where the tag of the first node on that level
is. A failure stays, unless the limit is met before. So a higher limit loses nothing that a lower
one gives, and one that is not below the number of bytes is never met. -/
theorem load_maxDepth (a : Adapter) (scope : Scope) (e : Expectation) (bytes : Bytes)
    (fault? : Option Fault) {limit : Nat} (hlimit : bytes.length ≤ limit) :
    let input := Cursor.start bytes (.ofFault? fault?)
    (∀ v c, a.load scope limit e input = (.ok v, c) → ∀ d,
      ((e.toNode v).depth ≤ d → a.load scope d e input = (.ok v, c)) ∧
      (d < (e.toNode v).depth → ∃ place m c',
        ((e.toNode v).starts a.layout d .outside).head? = some place ∧
          ((e.toNode v).level d).head? = some m ∧ bytes[place.offset]? = some m.tag.code ∧
          a.load scope d e input = (.error (.tooDeep d place), c'))) ∧
    (∀ f c, a.load scope limit e input = (.error f, c) → ∀ d,
      a.load scope d e input = (.error f, c) ∨
        ∃ place c', a.load scope d e input = (.error (.tooDeep d place), c')) ∧
    (∀ d d' v c, d ≤ d' → a.load scope d e input = (.ok v, c) →
      a.load scope d' e input = (.ok v, c)) ∧
    ∀ limit' place c, a.load scope limit e input ≠ (.error (.tooDeep limit' place), c) := by
  intro input
  have hfits := (Decoder.frame_fits ⟨scope, a.layout, limit⟩ limit .top e) bytes fault? 0 [] hlimit
  have hcut {d d' : Nat} (h : d ≤ d') : a.load scope d e input = a.load scope d' e input ∨
      ∃ place c, a.load scope d e input = (.error (.tooDeep d place), c) :=
    Decoder.frame_cutsOff ⟨scope, a.layout, d⟩ d' h .top e input
  refine ⟨fun v c h d ↦ ?_, fun f c h d ↦ ?_, fun d d' v c hd h ↦ ?_, hfits⟩
  · obtain ⟨bs, rest, rfl, hG, rfl⟩ :=
      (Decoder.frame_parses ⟨scope, a.layout, limit⟩ limit .top e).sound h
    exact a.load_of_accepts hG d rest _
  · obtain hd | hd := Nat.le_total d limit
    · exact (hcut hd).imp_left fun he ↦ he.trans h
    · obtain he | ⟨place, c', he⟩ := hcut hd
      · exact .inl (he.symm.trans h)
      · exact absurd he (hfits limit place c')
  · obtain he | ⟨place, c', he⟩ := hcut hd
    · exact he.symm.trans h
    · rw [h] at he
      cases he

theorem load_maxDepth_block : ∃ c, v0_10.load
    ⟨.ofList [""], TypeUniverse.resolve? ⟨[("", 0)]⟩⟩ 1 .any
    (.start ([Tag.codeBlock.code, 1, 0, 0, 0, Tag.statement.code] ++ List.replicate 21 0) .clean) =
      (.error (.tooDeep 1 ⟨some .codeBlock, 5⟩), c) := by
  let scope : Scope := ⟨.ofList [""], TypeUniverse.resolve? ⟨[("", 0)]⟩⟩
  let block : Node := .codeBlock [default]
  let bytes : Bytes := [Tag.codeBlock.code, 1, 0, 0, 0, Tag.statement.code] ++ List.replicate 21 0
  have hread₂ : block.Readable scope.types 2 := by
    simp [block, Node.Readable, Node.Settled, Node.ownTypes, Node.isPlaceholder, Node.embedded,
      Slot.children, Statement.slots, default]
    decide
  have hread : block.Readable scope.types 27 := by
    obtain ⟨hd, hs⟩ := Node.readable_iff.1 hread₂
    exact Node.readable_iff.2 ⟨Nat.le_trans hd (by decide), hs⟩
  have hload : v0_10.load scope 27 .any (.start bytes (.ofFault? none)) =
      (.ok block, ⟨[], .clean, 27, []⟩) := by
    have hG : Decoder.Accepts ⟨scope, .reservedName, 27⟩ 27 .any bytes block :=
      (Decoder.accepts_iff _ _ _ _ _).2 ⟨rfl, hread⟩
    have hall := (Decoder.frame_parses _ 27 .top .any).complete hG [] .clean 0 []
    rwa [List.append_nil] at hall
  have hdeep : 1 < block.depth := by
    rw [← Nat.not_le, Node.depth_le_succ_iff]
    intro h
    have := h (.statement default) (Node.mem_embedded_codeBlock.2 ⟨default, by simp, rfl⟩)
    have := (Node.statement default).depth_pos
    omega
  have hlimit : bytes.length ≤ 27 := by decide
  obtain ⟨place, m, c, hplace, -, -, h⟩ :=
    ((v0_10.load_maxDepth scope .any bytes none hlimit).1 _ _ hload 1).2 hdeep
  obtain rfl : ⟨some .codeBlock, 5⟩ = place := Option.some.inj hplace
  exact ⟨c, h⟩

end Adapter

end TreeBytecode
