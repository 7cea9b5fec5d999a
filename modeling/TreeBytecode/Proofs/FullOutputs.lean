import TreeBytecode.Artifact
import TreeBytecode.Proofs.Acceptance
import TreeBytecode.Proofs.Outputs
import TreeBytecode.StringTable.SideFile

namespace TreeBytecode

open Wire

namespace Wire

variable {α : Type}

/-- What a run comes to and writes if the output has room for so many bytes only, told by what it
comes to and writes without limit. -/
def Sink.cut (limit : Nat) (run : Except Failure α × Bytes) : Except Failure α × Bytes :=
  if run.2.length ≤ limit then run else (.error (.device .full), run.2.take limit)

namespace Encoder

theorem emit_of_accepted {e : Encoder} {bs : Bytes} {s : Sink}
    (h : e.sink.accept bs = (true, s)) :
    emit bs e = (.ok (), { e with sink := s, offset := e.offset + bs.length }) := by
  rw [emit, h]

theorem emit_of_full {e : Encoder} {bs : Bytes} {s : Sink} (h : e.sink.accept bs = (false, s)) :
    emit bs e = (.error (.device .full), { e with sink := s }) := by
  rw [emit, h]

theorem pure_steady (a : α) : Steady (pure a : Step Encoder α) :=
  .of_silent (fun _ _ ↦ rfl) fun _ ↦ rfl

theorem Steady.cut {x : Step Encoder α} (h : Steady x) (t : StringTable) (limit : Nat) :
    let full := x (.start (.empty none) t)
    let short := x (.start (.empty (some limit)) t)
    (short.1, short.2.sink.bytes) = Sink.cut limit (full.1, full.2.sink.bytes) ∧
      (full.2.sink.bytes.length ≤ limit → short.2.table = full.2.table) ∧
      ∃ seen unseen, short.2.table.words = t.words ++ seen ∧
        full.2.table.words = t.words ++ seen ++ unseen := by
  intro full short
  have hobeys : Obeys x (.start (.empty (some limit)) t) full.1 full.2 := h _
  let s : Sink := ⟨some (limit - full.2.sink.bytes.length),
    (#[] : Array UInt8) ++ full.2.sink.bytes.take limit⟩
  have haccept : (Sink.empty (some limit)).accept full.2.sink.bytes =
      (decide (full.2.sink.bytes.length ≤ limit), s) := rfl
  have hs : s.bytes = full.2.sink.bytes.take limit := Array.toList_appendList ..
  by_cases hfits : full.2.sink.bytes.length ≤ limit
  · rw [decide_eq_true hfits] at haccept
    have hshort : short = (full.1, { full.2 with sink := s }) := hobeys.done haccept
    obtain ⟨seen, hseen⟩ := hobeys.grows
    rw [Sink.cut, if_pos hfits, hshort]
    refine ⟨?_, fun _ ↦ rfl, seen, [], hseen.symm, ?_⟩
    · rw [hs, List.take_of_length_le hfits]
    · rw [List.append_nil]
      exact hseen.symm
  · rw [decide_eq_false hfits] at haccept
    obtain ⟨e, hrun, hsink, ⟨seen, hseen⟩, ⟨unseen, hunseen⟩⟩ := hobeys.full haccept
    have hshort : short = (.error (.device .full), e) := hrun
    rw [Sink.cut, if_neg hfits, hshort]
    refine ⟨?_, fun hle ↦ absurd hle hfits, seen, unseen, hseen.symm, ?_⟩
    · rw [hsink, hs]
    · rw [← hunseen, ← hseen]
      rfl

end Encoder

end Wire

namespace StringTable

def writeStep (t : StringTable) : Step Encoder Nat :=
  Encoder.putAll t.fields >>= fun _ ↦ Encoder.count

theorem write_eq_writeStep (t : StringTable) (sink : Sink) :
    t.write sink = ((t.writeStep (.start sink .empty)).1,
      (t.writeStep (.start sink .empty)).2.sink) := by
  rw [write, writeStep, Step.bind_apply]
  rcases Encoder.putAll t.fields (.start sink .empty) with ⟨_ | _, _⟩ <;> rfl

theorem writeStep_steady (t : StringTable) : Encoder.Steady t.writeStep :=
  (Encoder.putAll_steady t.fields).bind fun _ ↦ Encoder.count_steady

end StringTable

namespace Artifact

def writeStep (a : Adapter) (n : Node) : Step Encoder Nat := do
  Encoder.emit (Header.ofVersion a.version).bytes
  Step.modify fun e ↦ .start e.sink e.table
  let count ← a.write n
  return Header.size + count

theorem write_eq_writeStep (a : Adapter) (n : Node) (t : StringTable) (sink : Sink) :
    write a n t sink = writeStep a n (.start sink t) := by
  rcases h : sink.accept (Header.ofVersion a.version).bytes with ⟨_ | _, s⟩
  · have hemit := Encoder.emit_of_full (e := .start sink t) h
    rw [write, h, writeStep, Step.bind_of_error hemit]
    rfl
  · have hemit := Encoder.emit_of_accepted (e := .start sink t) h
    rw [write, h, writeStep, Step.bind_of_ok hemit, Step.bind_of_ok (Step.modify_apply _ _),
      Step.bind_apply]
    dsimp only [Encoder.start]
    rcases a.write n ⟨s, 0, [], t⟩ with ⟨_ | _, _⟩ <;> rfl

theorem writeStep_steady (a : Adapter) (n : Node) : Encoder.Steady (writeStep a n) := by
  have hrestart : Encoder.Steady (Step.modify fun e ↦ .start e.sink e.table) :=
    .of_silent (fun _ _ ↦ rfl) fun _ ↦ rfl
  exact (Encoder.emit_steady _).bind fun _ ↦ hrestart.bind fun _ ↦
    (a.write_steady n).bind fun _ ↦ Encoder.pure_steady _

end Artifact

theorem Adapter.write_ok_or_refused (a : Adapter) (n : Node) (t : StringTable) :
    let full := a.write n (.start (.empty none) t)
    (∃ count, full.1 = .ok count) ∨ ∃ r place, full.1 = .error (.unsupported r place) := by
  intro full
  obtain ⟨bs, e, -, hput, -⟩ | ⟨bs, e, -, r, place, hput, -, -⟩ :=
    Encoder.put_writes (n.frame a.layout) (e := .start (.empty none) t) rfl
  · refine .inl ⟨e.offset, ?_⟩
    simp only [full, write, hput]
  · refine .inr ⟨r, place, ?_⟩
    simp only [full, write, hput]

/-- On an output for a number of bytes, a node comes to what it comes to without limit if its bytes,
up to the place where it may be refused, are not more. Otherwise the output is reported full; it
holds the first of these bytes, and the table has the first of the new strings. Side files and
artifacts are cut off in the same way. -/
theorem written_up_to_limit (limit : Nat) :
    (∀ (a : Adapter) (n : Node) (t : StringTable),
      let full := a.write n (.start (.empty none) t)
      let short := a.write n (.start (.empty (some limit)) t)
      ((∃ count, full.1 = .ok count) ∨ ∃ r place, full.1 = .error (.unsupported r place)) ∧
        (short.1, short.2.sink.bytes) = Sink.cut limit (full.1, full.2.sink.bytes) ∧
        (full.2.sink.bytes.length ≤ limit → short.2.table = full.2.table) ∧
        ∃ seen unseen, short.2.table.words = t.words ++ seen ∧
          full.2.table.words = t.words ++ seen ++ unseen) ∧
    (∀ t : StringTable,
      let full := t.write (.empty none)
      let short := t.write (.empty (some limit))
      (short.1, short.2.bytes) = Sink.cut limit (full.1, full.2.bytes)) ∧
    ∀ (a : Adapter) (n : Node) (t : StringTable),
      let full := Artifact.write a n t (.empty none)
      let short := Artifact.write a n t (.empty (some limit))
      (short.1, short.2.sink.bytes) = Sink.cut limit (full.1, full.2.sink.bytes) := by
  refine ⟨fun a n t ↦ ?_, fun t ↦ ?_, fun a n t ↦ ?_⟩
  · exact ⟨a.write_ok_or_refused n t, (a.write_steady n).cut t limit⟩
  · have hcut := t.writeStep_steady.cut .empty limit
    dsimp only
    rw [t.write_eq_writeStep, t.write_eq_writeStep]
    exact hcut.1
  · have hcut := (Artifact.writeStep_steady a n).cut t limit
    dsimp only
    rw [Artifact.write_eq_writeStep, Artifact.write_eq_writeStep]
    exact hcut.1

theorem written_up_to_limit_string :
    let short (limit : Nat) :=
      Adapter.v0_11.write (.string "s") (.start (.empty (some limit)) .empty)
    ((short 3).1, (short 3).2.sink.bytes) = (.error (.device .full), [Tag.string.code, 0, 0]) ∧
      ((short 5).1, (short 5).2.sink.bytes) = (.ok 5, [Tag.string.code, 0, 0, 0, 0]) ∧
      (short 5).2.table = .ofList ["s"] := by
  intro short
  obtain ⟨-, hthree, -⟩ := (written_up_to_limit 3).1 .v0_11 (.string "s") .empty
  obtain ⟨-, hfive, htable, -⟩ := (written_up_to_limit 5).1 .v0_11 (.string "s") .empty
  refine ⟨hthree.trans rfl, hfive.trans rfl, (htable ?_).trans (StringTable.ext rfl)⟩
  decide

end TreeBytecode
