import TreeBytecode.Proofs.Loops
import TreeBytecode.Proofs.Tracking

namespace TreeBytecode

open Wire

namespace Wire.Cursor

structure Leads (c : Cursor) (fs : List Failure) (c' : Cursor) : Prop where
  frames : c.frames <:+ c'.frames
  counted : ∃ used, c.Consumes used c' ∧ c'.offset ≤ c.offset + used.length ∧
    ((∀ f ∈ fs, f.ofInput = false) → c'.offset = c.offset + used.length)

variable {c c' c'' : Cursor} {used : Bytes} {fs gs : List Failure} {f : Failure} {levels : Nat}

theorem Passes.leads (h : c.Passes used c') : c.Leads [] c' where
  frames := by simp only [h.frames, List.suffix_rfl]
  counted := ⟨used, h.consumes, Nat.le_of_eq h.offset, fun _ ↦ h.offset⟩

theorem Stops.leads (h : c.Stops levels f c') : c.Leads [f] c' where
  frames := h.frames
  counted := by
    obtain ⟨used, hconsumes, hle, heq⟩ := h.counted
    exact ⟨used, hconsumes, hle, fun hf ↦ heq (hf f (List.mem_singleton_self f))⟩

theorem Leads.trans (h : c.Leads fs c') (h' : c'.Leads gs c'') : c.Leads (fs ++ gs) c'' where
  frames := h.frames.trans h'.frames
  counted := by
    obtain ⟨used, hconsumes, hle, heq⟩ := h.counted
    obtain ⟨used', hconsumes', hle', heq'⟩ := h'.counted
    refine ⟨used ++ used', hconsumes.trans hconsumes', ?_, fun hfs ↦ ?_⟩
    · rw [List.length_append]
      omega
    · obtain ⟨hf, hg⟩ := List.forall_mem_append.1 hfs
      rw [heq' hg, heq hf, List.length_append, Nat.add_assoc]

end Wire.Cursor

namespace Decoder

variable {d : Decoder} {c c' : Cursor}

theorem frames_of_opening {p : Placement} {e : Expectation} {t : Tag}
    (h : opening p e c = (.ok t, c')) : (c'.enter t).frames = t :: c.frames := by
  obtain ⟨used, -, hpasses⟩ := (opening_tracks p e).ok h
  exact congrArg (List.cons t) hpasses.frames

/-- Where a reader comes to inside a plan, the frames that were open before are still open, and
those that were opened since are as many as there are levels less. -/
theorem Visits.frames {α β : Type} {q : Plan β} {p : Plan α} {below levels : Nat}
    (h : d.Visits q below c' levels p c) :
    c.frames <:+ c'.frames ∧ c'.depth + below = c.depth + levels := by
  induction h with
  | here => exact ⟨List.suffix_rfl, rfl⟩
  | first _ ih | typed _ ih | checked _ ih => exact ih
  | @next levels _ _ first _ _ _ _ hfirst _ ih =>
    obtain ⟨used, -, hpasses⟩ := (d.plan_tracks levels first).ok hfirst
    rw [Cursor.depth, Cursor.depth, hpasses.frames] at ih
    exact ih
  | @inside levels e t c c₁ hopen _ ih =>
    have hopened := frames_of_opening hopen
    have hdepth : (c₁.enter t).depth = c.depth + 1 := congrArg List.length hopened
    rw [hopened] at ih
    exact ⟨(List.suffix_cons t c.frames).trans ih.1, by omega⟩

theorem LoadVisits.frames {β : Type} {q : Plan β} {e : Expectation} {below : Nat}
    (h : d.LoadVisits e c q below c') :
    c.frames <:+ c'.frames ∧ c'.depth ≤ d.maxDepth := by
  obtain ⟨levels, t, c₁, hlevels, hopen, hvisits⟩ := h
  have hopened := frames_of_opening hopen
  have hdepth : (c₁.enter t).depth = c.depth + 1 := congrArg List.length hopened
  have hinside := hvisits.frames
  rw [hopened] at hinside
  exact ⟨(List.suffix_cons t c.frames).trans hinside.1, by omega⟩

/-- What a reader is asked for: a frame of a type, or what a plan reads where the cursor stands, be
it a scalar, a length, a string, a type, a mask, an embedded frame or an array. -/
inductive Call : Type 1
  | load (e : Expectation)
  | perform {α : Type} (p : Plan α)

def Call.Result : Call → Type
  | .load e => e.Content
  | @Call.perform α _ => α

def answer (d : Decoder) : (k : Call) → Step Cursor k.Result
  | .load e => d.load e
  | .perform p => d.perform p

def run (d : Decoder) : List Call → Cursor → List Failure × Cursor
  | [], c => ([], c)
  | k :: ks, c =>
    match d.answer k c with
    | (.ok _, c') => run d ks c'
    | (.error f, c') => (f :: (run d ks c').1, (run d ks c').2)

/-- In answering a call, a reader comes to run a plan. -/
def AnswerVisits (d : Decoder) {β : Type} (k : Call) (c : Cursor) (q : Plan β) (below : Nat)
    (c' : Cursor) : Prop :=
  match k with
  | .load e => d.LoadVisits e c q below c'
  | .perform p => d.Visits q below c' (d.maxDepth - c.depth) p c

theorem passes_of_answer {k : Call} {a : k.Result} (h : d.answer k c = (.ok a, c')) :
    ∃ used, c.Passes used c' := by
  cases k with
  | load e =>
    obtain ⟨used, -, hpasses⟩ := (d.frame_tracks _ .top e).ok h
    exact ⟨used, hpasses⟩
  | perform p =>
    obtain ⟨used, -, hpasses⟩ := (d.plan_tracks _ p).ok h
    exact ⟨used, hpasses⟩

theorem stops_of_answer {k : Call} {f : Failure} (h : d.answer k c = (.error f, c')) :
    c.Stops (d.maxDepth - c.depth) f c' := by
  cases k with
  | load e => exact (d.frame_tracks _ .top e).error h
  | perform p => exact (d.plan_tracks _ p).error h

theorem frames_of_answerVisits {β : Type} {q : Plan β} {k : Call} {below : Nat}
    (hc : c.depth ≤ d.maxDepth) (h : d.AnswerVisits k c q below c') :
    c.frames <:+ c'.frames ∧ c'.depth ≤ d.maxDepth := by
  cases k with
  | load e => exact LoadVisits.frames h
  | perform p =>
    obtain ⟨hframes, hdepth⟩ := Visits.frames h
    exact ⟨hframes, by omega⟩

/-- The frames that are open count against the limit, whoever left them open. -/
theorem run_leads (d : Decoder) (ks : List Call) (c : Cursor) (hc : c.depth ≤ d.maxDepth) :
    c.Leads (d.run ks c).1 (d.run ks c).2 ∧ (d.run ks c).2.depth ≤ d.maxDepth := by
  induction ks generalizing c with
  | nil => exact ⟨(Cursor.Passes.refl c).leads, hc⟩
  | cons k ks ih =>
    rcases hk : d.answer k c with ⟨f | a, c'⟩
    · -- The levels of a call are those above the frames that earlier failures left open.
      have hstops := stops_of_answer hk
      have hdepth := hstops.depth_le
      obtain ⟨hleads, hend⟩ := ih c' (by omega)
      rw [run, hk]
      exact ⟨hstops.leads.trans hleads, hend⟩
    · obtain ⟨used, hpasses⟩ := passes_of_answer hk
      have hdepth : c'.depth = c.depth := congrArg List.length hpasses.frames
      obtain ⟨hleads, hend⟩ := ih c' (by omega)
      rw [run, hk]
      exact ⟨hpasses.leads.trans hleads, hend⟩

/-- Whatever was asked for, of whatever input, and whatever of it failed: no more frames are open
than the limit allows, and the offset is not above the number of bytes that were taken; it is that
number if the input did not fail. A call that succeeds then leaves the open frames as they are and
counts just the bytes that it takes, one that fails leaves them below its own, and nowhere inside
either are more frames open than the limit allows. -/
theorem state_of_run (d : Decoder) (bytes : Bytes) (ending : Ending) (calls : List Call) :
    let start := Cursor.start bytes ending
    let c := (d.run calls start).2
    c.depth ≤ d.maxDepth ∧
    (∃ used, start.Consumes used c ∧
      (∀ fault?, ending = .ofFault? fault? → bytes = used ++ c.rest) ∧
      c.offset ≤ used.length ∧
      ((∀ f ∈ (d.run calls start).1, f.ofInput = false) → c.offset = used.length)) ∧
    ∀ k : Call,
      (∀ a c', d.answer k c = (.ok a, c') → c'.frames = c.frames ∧
        ∃ used, c.Consumes used c' ∧ c'.offset = c.offset + used.length) ∧
      (∀ f c', d.answer k c = (.error f, c') →
        c.frames <:+ c'.frames ∧ c'.depth ≤ d.maxDepth) ∧
      ∀ {β : Type} (q : Plan β) (below : Nat) (m : Cursor), d.AnswerVisits k c q below m →
        c.frames <:+ m.frames ∧ m.depth ≤ d.maxDepth := by
  intro start c
  have hrun : start.Leads (d.run calls start).1 c ∧ c.depth ≤ d.maxDepth :=
    d.run_leads calls start (Nat.zero_le _)
  obtain ⟨hleads, hdepth⟩ := hrun
  refine ⟨hdepth, ?_, fun k ↦ ⟨?_, ?_, ?_⟩⟩
  · obtain ⟨used, hconsumes, hle, heq⟩ := hleads.counted
    rw [show start.offset = 0 from rfl, Nat.zero_add] at hle heq
    refine ⟨used, hconsumes, ?_, hle, heq⟩
    intro fault? hending
    exact ((Cursor.consumes_iff hending).1 hconsumes).2
  · intro a c' h
    obtain ⟨used, hpasses⟩ := passes_of_answer h
    exact ⟨hpasses.frames, used, hpasses.consumes, hpasses.offset⟩
  · intro f c' h
    have hstops := stops_of_answer h
    have hdepth' := hstops.depth_le
    exact ⟨hstops.frames, by omega⟩
  · intro β q below m h
    exact frames_of_answerVisits hdepth h

/-- A block that failed at its first statement stays open, and leaves no level for another one. -/
theorem state_of_run_block :
    let d : Decoder := ⟨.empty, .kindMarker, 1⟩
    let bytes : Bytes :=
      [Tag.codeBlock.code, 1, 0, 0, 0, 0xff, Tag.codeBlock.code, 5, 0, 0, 0, 0xff]
    let c : Cursor := ⟨[5, 0, 0, 0, 0xff], .clean, 7, [.codeBlock]⟩
    (d.run [.load .any, .load .any] (.start bytes .clean) =
      ([.malformed (.unknownTag 0xff) ⟨some .codeBlock, 5⟩, .tooDeep 1 ⟨some .codeBlock, 6⟩], c) ∧
      c.depth ≤ d.maxDepth ∧ ∃ used, bytes = used ++ c.rest ∧ c.offset = used.length) ∧
    (∃ c', d.perform Plan.u32 c = (.ok 5, c') ∧ c'.frames = c.frames ∧
      ∃ used, c.Consumes used c' ∧ c'.offset = c.offset + used.length) ∧
    (∃ f c', d.perform Plan.u64 c = (.error f, c') ∧
      c.frames <:+ c'.frames ∧ c'.depth ≤ d.maxDepth) ∧
    ∃ m, d.AnswerVisits (.perform Plan.u32) c Plan.u32 0 m ∧ c.frames <:+ m.frames := by
  intro d bytes c
  have hrun : d.run [.load .any, .load .any] (.start bytes .clean) =
      ([.malformed (.unknownTag 0xff) ⟨some .codeBlock, 5⟩, .tooDeep 1 ⟨some .codeBlock, 6⟩], c) :=
    Prod.ext (by decide +kernel) (by decide +kernel)
  have hstate := d.state_of_run bytes .clean [.load .any, .load .any]
  dsimp only at hstate
  rw [hrun] at hstate
  obtain ⟨hdepth, ⟨used, -, hbytes, -, hcounted⟩, hcalls⟩ := hstate
  refine ⟨⟨hrun, hdepth, used, hbytes none rfl, hcounted (by decide)⟩, ?_, ?_, ?_⟩
  · have hread : d.perform Plan.u32 c = (.ok 5, ⟨[0xff], .clean, 11, [.codeBlock]⟩) :=
      Prod.ext (by decide +kernel) (by decide +kernel)
    exact ⟨_, hread, (hcalls (.perform Plan.u32)).1 _ _ hread⟩
  · have hread : d.perform Plan.u64 c = (.error (.truncated 8 ⟨some .codeBlock, 7⟩),
        ⟨[], .clean, 7, [.codeBlock]⟩) :=
      Prod.ext (by decide +kernel) (by decide +kernel)
    exact ⟨_, _, hread, (hcalls (.perform Plan.u64)).2.1 _ _ hread⟩
  · exact ⟨c, .here, ((hcalls (.perform Plan.u32)).2.2 Plan.u32 0 c .here).1⟩

end Decoder

end TreeBytecode
