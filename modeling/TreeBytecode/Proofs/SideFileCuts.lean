import TreeBytecode.Proofs.Endings
import TreeBytecode.Proofs.FullOutputs

namespace TreeBytecode.StringTable

open Wire
open TreeBytecode.Wire.Field (allBytes?)

theorem load_streams : load.Streams :=
  Plan.streams (fun _ ↦ Step.fail_parses _) (fun _ ↦ .fail (by simp)) plan

/-- What is written on any output are the bytes that stand for the table. -/
theorem exists_file_of_write {t : StringTable} {sink sink' : Sink} {count : Nat}
    (h : t.write sink = (.ok count, sink')) :
    ∃ file, sink'.bytes = sink.bytes ++ file ∧ allBytes? .empty t.fields = some file := by
  rw [write_eq_writeStep] at h
  obtain ⟨hcount, rfl⟩ := Prod.mk.inj h
  obtain ⟨full, hrun, -, hbytes⟩ := t.writeStep_steady.unlimited_of_ok (Prod.ext hcount rfl)
  have hempty : t.writeStep (.start (.empty none) .empty) = (.ok count, full) := hrun
  have hfull : t.write (.empty none) = (.ok count, full.sink) := by
    rw [write_eq_writeStep, hempty]
  exact ⟨full.sink.bytes, hbytes, (write_ok hfull).2 .empty⟩

/-- A file that is cut short anywhere is short of bytes at the cut. -/
theorem load_take {t : StringTable} {file : Bytes} (h : allBytes? .empty t.fields = some file)
    {k : Nat} (hk : k < file.length) : ∃ wanted place c,
      load (.start (file.take k) .clean) = (.error (.truncated wanted place), c) ∧
        place.frame = none ∧ place.offset ≤ k ∧ k < place.offset + wanted ∧
        place.offset + wanted ≤ file.length := by
  have hfile : plan.Yields Scope.empty (fun _ _ _ ↦ False) file t :=
    (plan_mirrors file t).2 ⟨trivial, h, trivial⟩
  obtain ⟨wanted, place, c, hload, hplace, hlt, hle⟩ :=
    load_streams.of_take load_parses hfile hk 0 []
  have hframe := (Plan.runPlain_locates _ plan_regular _ none _ _ _ _ hload place rfl).1 rfl
  rw [Nat.zero_add] at hplace hlt hle
  exact ⟨wanted, place, c, hload, hframe, hplace, hlt, hle⟩

theorem load_extended {bytes : Bytes} {r : Except Failure StringTable} {c : Cursor}
    (h : load (.start bytes .clean) = (r, c)) (hr : ¬ Truncated r) (more : Bytes)
    (ending : Ending) : load (.start (bytes ++ more) ending) =
      (r, { c with rest := c.rest ++ more, ending := ending }) := by
  obtain ⟨used, rfl, hused⟩ := (load_isLocal bytes 0 [] r c h).resolve_left hr
  rw [List.append_assoc]
  exact hused (c.rest ++ more) ending

/-- Of a side file no strict part of the beginning is read, nor is it found malformed: bytes are
missing, of which the first is behind the cut and the last is one of those written. And if bytes
suffice for an outcome, be it a table or a failure at some place, more bytes lead to the same. -/
theorem load_cut_or_extended :
    (∀ (t : StringTable) sink count sink', t.write sink = (.ok count, sink') →
      ∃ file, sink'.bytes = sink.bytes ++ file ∧ ∀ k < file.length, ∃ wanted place c,
        load (.start (file.take k) .clean) = (.error (.truncated wanted place), c) ∧
          place.frame = none ∧ place.offset ≤ k ∧ k < place.offset + wanted ∧
          place.offset + wanted ≤ file.length) ∧
    ∀ bytes r c, load (.start bytes .clean) = (r, c) → ¬ Truncated r → ∀ more ending,
      load (.start (bytes ++ more) ending) =
        (r, { c with rest := c.rest ++ more, ending := ending }) := by
  constructor
  · intro t sink count sink' hwrite
    obtain ⟨file, hbytes, hfile⟩ := exists_file_of_write hwrite
    exact ⟨file, hbytes, fun k hk ↦ load_take hfile hk⟩
  · intro bytes r c hload hr more ending
    exact load_extended hload hr more ending

theorem load_cut_or_extended_character :
    (∃ wanted place c, load (.start [1, 0, 0, 0, 10, 2, 0, 0, 0, 0xc3] .clean) =
        (.error (.truncated wanted place), c) ∧
      place.frame = none ∧ place.offset ≤ 10 ∧ 10 < place.offset + wanted ∧
      place.offset + wanted ≤ 12) ∧
    (load (.start [0, 0, 0, 0, 11, 10] .clean)).1 =
      .error (.malformed .missingNewline ⟨none, 4⟩) := by
  let t : StringTable := .ofList ["é"]
  have hfile : allBytes? .empty t.fields =
      some [1, 0, 0, 0, 10, 2, 0, 0, 0, 0xc3, 0xa9, 10] := by decide +kernel
  constructor
  · obtain ⟨file, hbytes, hcut⟩ := load_cut_or_extended.1 t _ _ _ (write_of_bytes? hfile)
    obtain rfl : [1, 0, 0, 0, 10, 2, 0, 0, 0, 0xc3, 0xa9, 10] = file := hbytes
    exact hcut 10 (by decide)
  · have hfailure : (match load (.start [0, 0, 0, 0, 11] .clean) with
      | (.error f, _) => some f
      | (.ok _, _) => none) = some (.malformed .missingNewline ⟨none, 4⟩) := by decide +kernel
    split at hfailure
    · next f c hload =>
      obtain rfl := Option.some.inj hfailure
      have hmore := load_cut_or_extended.2 _ _ c hload (by simp [Truncated]) [10] .clean
      exact congrArg Prod.fst hmore
    · cases hfailure

end TreeBytecode.StringTable
