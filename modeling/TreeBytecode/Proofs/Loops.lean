import TreeBytecode.Proofs.Extent

namespace TreeBytecode

open Wire

namespace Wire

variable {α β : Type}

/-- How many turns a loop takes that runs a step `count` times over, unless it fails before. -/
def Step.turns (x : Step Cursor α) : (count : Nat) → Cursor → Nat
  | 0, _ => 0
  | count + 1, c =>
    match x c with
    | (.ok _, d) => turns x count d + 1
    | (.error _, _) => 1

theorem Step.turns_le {x : Step Cursor α} {G : Grammar α} (hx : x.Parses G)
    (htwo : ∀ bs a, G bs a → 2 ≤ bs.length) (count : Nat) (bytes : Bytes) (fault? : Option Fault)
    (offset : Nat) (frames : List Tag) :
    x.turns count ⟨bytes, .ofFault? fault?, offset, frames⟩ ≤ bytes.length / 2 + 1 := by
  induction count generalizing bytes offset with
  | zero => exact Nat.zero_le _
  | succ count ih =>
    rw [turns]
    rcases hrun : x ⟨bytes, .ofFault? fault?, offset, frames⟩ with ⟨f | a, c⟩
    · exact Nat.le_add_left 1 _
    · obtain ⟨bs, rest, rfl, ha, rfl⟩ := hx.sound hrun
      have hbs := htwo bs a ha
      have hrest := ih rest (offset + bs.length)
      rw [List.length_append]
      dsimp only
      omega

namespace Plan

variable {scope : Scope} {frame : (e : Expectation) → Step Cursor e.Content}
  {G : (e : Expectation) → Grammar e.Content} {p : Plan α}

theorem run_times_succ (p : Plan α) (n : Nat) : (p.times (n + 1)).run scope frame =
    p.run scope frame >>= fun a ↦ (p.times n).run scope frame >>= fun as ↦ Pure.pure (a :: as) := by
  rw [times]
  exact (run_bind _ _).trans (congrArg _ (funext fun a ↦ run_bind _ _))

theorem run_times_turns (p : Plan α) (n : Nat) (c : Cursor) :
    (p.times ((p.run scope frame).turns n c)).run scope frame c =
      (p.times n).run scope frame c := by
  induction n generalizing c with
  | zero => rfl
  | succ n ih =>
    rw [Step.turns]
    rcases hrun : p.run scope frame c with ⟨f | a, d⟩
    · dsimp only
      rw [run_times_succ, run_times_succ, Step.bind_of_error hrun, Step.bind_of_error hrun]
    · dsimp only
      rw [run_times_succ, run_times_succ, Step.bind_of_ok hrun, Step.bind_of_ok hrun,
        Step.bind_apply, Step.bind_apply, ih d]

theorem mul_le_of_times_yields {k : Nat} (hp : ∀ bs a, p.Yields scope G bs a → k ≤ bs.length)
    {n : Nat} {bs : Bytes} {as : List α} (h : (p.times n).Yields scope G bs as) :
    k * n ≤ bs.length := by
  induction n generalizing bs as with
  | zero => exact Nat.zero_le _
  | succ n ih =>
    obtain ⟨a, bs₁, _, h₁, ⟨as, bs₂, _, h₂, ⟨rfl, rfl⟩, rfl⟩, rfl⟩ := h
    have hfirst := hp bs₁ a h₁
    have hrest := ih h₂
    rw [List.append_nil, List.length_append, Nat.mul_succ]
    omega

/-- A loop fails that would need more bytes than there are. -/
theorem exists_error_of_times (hframe : ∀ e, (frame e).Parses (G e)) {k : Nat}
    (hp : ∀ bs a, p.Yields scope G bs a → k ≤ bs.length) {n : Nat} {bytes : Bytes}
    (hn : bytes.length < k * n) (fault? : Option Fault) (offset : Nat) (frames : List Tag) :
    ∃ f c, (p.times n).run scope frame ⟨bytes, .ofFault? fault?, offset, frames⟩ =
      (.error f, c) := by
  rcases hloop : (p.times n).run scope frame ⟨bytes, .ofFault? fault?, offset, frames⟩
    with ⟨f | as, c⟩
  · exact ⟨f, c, rfl⟩
  · obtain ⟨used, rest, rfl, has, -⟩ := (parses hframe (p.times n)).sound hloop
    have hused := mul_le_of_times_yields hp has
    rw [List.length_append] at hn
    omega

inductive Element : {α : Type} → Plan α → Prop
  | child (e : Expectation) : Element (.child e)
  | typed : Element (.typed (.child (.only .string)))

end Plan

end Wire

namespace Decoder

variable {d : Decoder} {α β : Type}

theorem two_le_of_element {p : Plan α} (hp : p.Element) {levels : Nat} {bs : Bytes} {a : α}
    (h : p.Yields d.scope (d.Accepts levels) bs a) : 2 ≤ bs.length := by
  cases hp with
  | child e => exact two_le_length h
  | typed =>
    obtain ⟨s, hs, -⟩ := h
    exact two_le_length (e := .only .string) hs

/-- A reader that runs a plan comes to run another plan inside it, with so many levels below. -/
inductive Visits (d : Decoder) (q : Plan β) (below : Nat) (c' : Cursor) :
    (levels : Nat) → {α : Type} → Plan α → Cursor → Prop
  | here : Visits d q below c' below q c'
  | first {levels : Nat} {α γ : Type} {first : Plan γ} {next : γ → Plan α} {c : Cursor}
      (h : Visits d q below c' levels first c) :
      Visits d q below c' levels (.bind first next) c
  | next {levels : Nat} {α γ : Type} {first : Plan γ} {next : γ → Plan α} {c c₁ : Cursor} {b : γ}
      (hfirst : first.run d.scope (d.frame levels .embedded) c = (.ok b, c₁))
      (h : Visits d q below c' levels (next b) c₁) :
      Visits d q below c' levels (.bind first next) c
  | typed {levels : Nat} {name : Plan String} {c : Cursor}
      (h : Visits d q below c' levels name c) : Visits d q below c' levels (.typed name) c
  | checked {levels : Nat} {α γ : Type} {value : Plan γ} {check : γ → Except Defect α} {c : Cursor}
      (h : Visits d q below c' levels value c) :
      Visits d q below c' levels (.checked value check) c
  | inside {levels : Nat} {e : Expectation} {t : Tag} {c c₁ : Cursor}
      (hopen : opening .embedded e c = (.ok t, c₁))
      (h : Visits d q below c' levels (Node.plan d.layout t) (c₁.enter t)) :
      Visits d q below c' (levels + 1) (.child e) c

/-- A load comes to run a plan: in the frame that it was asked for, or in one inside that. -/
def LoadVisits (d : Decoder) (e : Expectation) (c : Cursor) (q : Plan β) (below : Nat)
    (c' : Cursor) : Prop :=
  ∃ levels t c₁, d.maxDepth - c.depth = levels + 1 ∧ opening .top e c = (.ok t, c₁) ∧
    d.Visits q below c' levels (Node.plan d.layout t) (c₁.enter t)

theorem frame_of_plan_error {levels : Nat} {p : Placement} {e : Expectation} {t : Tag}
    {c c₁ c₂ : Cursor} {f : Failure} (hopen : opening p e c = (.ok t, c₁))
    (h : (Node.plan d.layout t).run d.scope (d.frame levels .embedded) (c₁.enter t) =
      (.error f, c₂)) : d.frame (levels + 1) p e c = (.error f, c₂) := by
  simp only [frame, hopen, h]

namespace Visits

variable {q : Plan β} {below levels : Nat} {c c' : Cursor} {p : Plan α}

/-- What fails inside, fails. -/
theorem error (h : d.Visits q below c' levels p c) {f : Failure} {c₂ : Cursor}
    (hq : q.run d.scope (d.frame below .embedded) c' = (.error f, c₂)) :
    p.run d.scope (d.frame levels .embedded) c = (.error f, c₂) := by
  induction h with
  | here => exact hq
  | first _ ih =>
    rw [Plan.run_bind]
    exact Step.bind_of_error ih
  | next hfirst _ ih =>
    rw [Plan.run_bind, Step.bind_of_ok hfirst]
    exact ih
  | typed _ ih =>
    rw [Plan.run_typed, Step.judged, ih]
  | checked _ ih =>
    rw [Plan.run_checked, Step.judged, ih]
  | inside hopen _ ih => exact frame_of_plan_error hopen ih

theorem suffix (h : d.Visits q below c' levels p c) {fault? : Option Fault}
    (hc : c.ending = .ofFault? fault?) : c'.ending = .ofFault? fault? ∧ c'.rest <:+ c.rest := by
  induction h with
  | here => exact ⟨hc, List.suffix_rfl⟩
  | first _ ih | typed _ ih | checked _ ih => exact ih hc
  | @next levels _ _ first _ c c₁ b hfirst _ ih =>
    obtain ⟨bytes, ending, offset, frames⟩ := c
    obtain rfl : ending = .ofFault? fault? := hc
    obtain ⟨bs, rest, rfl, -, rfl⟩ :=
      (Plan.parses (d.frame_parses levels .embedded) first).sound hfirst
    obtain ⟨hending, hrest⟩ := ih rfl
    exact ⟨hending, hrest.trans (List.suffix_append bs rest)⟩
  | @inside levels e t c c₁ hopen _ ih =>
    obtain ⟨bytes, ending, offset, frames⟩ := c
    obtain rfl : ending = .ofFault? fault? := hc
    obtain ⟨bs, rest, rfl, -, rfl⟩ := (opening_parses .embedded e).sound hopen
    obtain ⟨hending, hrest⟩ := ih rfl
    exact ⟨hending, hrest.trans (List.suffix_append bs rest)⟩

end Visits

theorem LoadVisits.error {q : Plan β} {below : Nat} {e : Expectation} {c c' c₂ : Cursor}
    {f : Failure} (h : d.LoadVisits e c q below c')
    (hq : q.run d.scope (d.frame below .embedded) c' = (.error f, c₂)) :
    d.load e c = (.error f, c₂) := by
  obtain ⟨levels, t, c₁, hlevels, hopen, hvisits⟩ := h
  rw [load, hlevels]
  exact frame_of_plan_error hopen (hvisits.error hq)

theorem LoadVisits.suffix {q : Plan β} {below : Nat} {e : Expectation} {bytes : Bytes}
    {fault? : Option Fault} {c' : Cursor}
    (h : d.LoadVisits e (.start bytes (.ofFault? fault?)) q below c') :
    c'.ending = .ofFault? fault? ∧ c'.rest <:+ bytes := by
  obtain ⟨levels, t, c₁, -, hopen, hvisits⟩ := h
  obtain ⟨bs, rest, rfl, -, rfl⟩ := (opening_parses .top e).sound hopen
  obtain ⟨hending, hrest⟩ := hvisits.suffix rfl
  exact ⟨hending, hrest.trans (List.suffix_append bs rest)⟩

end Decoder

/-- A tree has at most half as many frames as bytes were read for it, and each array in it has its
bytes among them, four for the count and two or more for each element. So a load fails that comes to
an array with more elements than the bytes behind its count allow, and whatever the count says, the
loop over the elements takes no more turns than these bytes allow. -/
theorem Adapter.load_within_extent (a : Adapter) (scope : Scope) (maxDepth : Nat) (e : Expectation)
    (bytes : Bytes) (fault? : Option Fault) :
    let d : Decoder := ⟨scope, a.layout, maxDepth⟩
    let start : Cursor := .start bytes (.ofFault? fault?)
    (∀ v c, a.load scope maxDepth e start = (.ok v, c) →
      ∃ consumed, bytes = consumed ++ c.rest ∧ c.offset = consumed.length ∧
        2 * (e.toNode v).frames.length ≤ consumed.length ∧
        ∀ m ∈ (e.toNode v).frames, ∀ ns ∈ m.arrays, ∃ bs, bs <:+: consumed ∧
          Field.allBytes? scope.table (Field.array (ns.map (Node.frame a.layout))) = some bs ∧
          4 + 2 * ns.length ≤ bs.length) ∧
    ∀ {α : Type} (p : Plan α) (below count : Nat) (c c' : Cursor), p.Element →
      d.LoadVisits e start (Plan.length >>= p.times) below c →
      Plan.length.run scope (d.frame below .embedded) c = (.ok count, c') →
      let element := p.run scope (d.frame below .embedded)
      c'.rest <:+ bytes ∧ element.turns count c' ≤ c'.rest.length / 2 + 1 ∧
        (p.times (element.turns count c')).run scope (d.frame below .embedded) c' =
          (p.times count).run scope (d.frame below .embedded) c' ∧
        (c'.rest.length < 2 * count → ∃ f c₂, a.load scope maxDepth e start = (.error f, c₂)) := by
  intro d start
  constructor
  · intro v c hload
    obtain ⟨consumed, rest, rfl, hG, rfl⟩ := (d.frame_parses _ _ _).sound hload
    refine ⟨consumed, rfl, Nat.zero_add _, Decoder.two_mul_length_frames_le hG, ?_⟩
    intro m hm ns hns
    exact Decoder.array_of_accepts hG hm hns
  · intro α p below count c c' hp hvisits hcount element
    obtain ⟨hending, hrest⟩ := hvisits.suffix
    obtain ⟨rest, ending, offset, frames⟩ := c
    obtain rfl : ending = .ofFault? fault? := hending
    have hframe := d.frame_parses below .embedded
    obtain ⟨bs, rest, rfl, -, rfl⟩ := (Plan.parses hframe Plan.length).sound hcount
    have htwo (bs : Bytes) (b : α) (h : p.Yields scope (d.Accepts below) bs b) : 2 ≤ bs.length :=
      Decoder.two_le_of_element (d := d) hp h
    refine ⟨(List.suffix_append bs rest).trans hrest, ?_, ?_, ?_⟩
    · exact Step.turns_le (Plan.parses hframe p) htwo count rest fault? _ frames
    · exact Plan.run_times_turns p count _
    · intro hlt
      obtain ⟨f, c₂, hloop⟩ := Plan.exists_error_of_times hframe htwo hlt fault? _ frames
      refine ⟨f, c₂, hvisits.error ?_⟩
      exact (congrFun (Plan.run_bind _ _) _).trans ((Step.bind_of_ok hcount).trans hloop)

theorem Adapter.load_within_extent_block :
    (∃ f c, v0_11.load .empty 1 .any
      (.start [Tag.codeBlock.code, 0xff, 0xff, 0xff, 0x7f, 0] .clean) = (.error f, c)) ∧
    ∃ consumed, [Tag.codeBlock.code, 0, 0, 0, 0, 7] = consumed ++ [7] ∧
      2 * (Node.codeBlock []).frames.length ≤ consumed.length := by
  constructor
  · let c : Cursor := ⟨[0xff, 0xff, 0xff, 0x7f, 0], .clean, 1, [.codeBlock]⟩
    let d : Decoder := ⟨.empty, v0_11.layout, 1⟩
    have hvisits : d.LoadVisits .any
        (.start [Tag.codeBlock.code, 0xff, 0xff, 0xff, 0x7f, 0] .clean)
        (Plan.length >>= (Plan.child (.only .statement)).times) 0 c :=
      ⟨0, .codeBlock, ⟨[0xff, 0xff, 0xff, 0x7f, 0], .clean, 1, []⟩, rfl, rfl, .first .here⟩
    have hcount : Plan.length.run .empty (d.frame 0 .embedded) c =
        (.ok 0x7fffffff, ⟨[0], .clean, 5, [.codeBlock]⟩) :=
      Prod.ext (by decide +kernel) (by decide +kernel)
    have hall := (v0_11.load_within_extent .empty 1 .any
      [Tag.codeBlock.code, 0xff, 0xff, 0xff, 0x7f, 0] none).2 (.child (.only .statement)) 0
      0x7fffffff c ⟨[0], .clean, 5, [.codeBlock]⟩ (.child _) hvisits hcount
    apply hall.2.2.2
    decide
  · have hload : v0_11.load .empty 1 (.only .codeBlock)
        (.start [Tag.codeBlock.code, 0, 0, 0, 0, 7] .clean) =
        (.ok ([] : CodeBlock), ⟨[7], .clean, 5, []⟩) :=
      Prod.ext (by decide +kernel) (by decide +kernel)
    obtain ⟨consumed, hbytes, -, hframes, -⟩ := (v0_11.load_within_extent .empty 1
      (.only .codeBlock) [Tag.codeBlock.code, 0, 0, 0, 0, 7] none).1 _ _ hload
    exact ⟨consumed, hbytes, hframes⟩

end TreeBytecode
