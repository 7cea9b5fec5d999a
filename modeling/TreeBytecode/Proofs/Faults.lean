import TreeBytecode.Proofs.Endings

namespace TreeBytecode

open Wire

variable {α : Type} {x y : Step Cursor α} {bytes : Bytes} {fault : Fault}

structure Wire.Step.TellsFault (x : Step Cursor α) (bytes : Bytes) (fault : Fault) : Prop where
  /-- A reader that would be short of bytes meets the fault. -/
  short : Truncated (x.result (.start bytes .clean)) →
    x.result (.start bytes (.faulty fault)) = .error (.device fault)
  /-- In all other cases the outcome is the same, and the fault is still ahead. -/
  enough : ∀ r c, x (.start bytes .clean) = (r, c) → ¬ Truncated r →
    x (.start bytes (.faulty fault)) = (r, { c with ending := .faulty fault })
  /-- Without a fault, none is reported. -/
  clean : ∀ f, x.result (.start bytes .clean) ≠ .error (.device f)

namespace Wire.Step.TellsFault

theorem of_short {wanted : Nat} {place : Location}
    (hclean : x.result (.start bytes .clean) = .error (.truncated wanted place))
    (hfaulty : x.result (.start bytes (.faulty fault)) = .error (.device fault)) :
    x.TellsFault bytes fault := by
  constructor
  case short => exact fun _ ↦ hfaulty
  case enough =>
    intro r c hrun hr
    rw [Step.result, hrun] at hclean
    exact absurd ⟨wanted, place, hclean⟩ hr
  case clean =>
    intro f hf
    rw [hclean] at hf
    cases hf

theorem of_settled {r : Except Failure α} {c : Cursor}
    (h : ∀ ending, x (.start bytes ending) = (r, { c with ending := ending }))
    (hr : ¬ Truncated r) (hdevice : ∀ f, r ≠ .error (.device f)) : x.TellsFault bytes fault := by
  have hclean : x.result (.start bytes .clean) = r := congrArg Prod.fst (h .clean)
  constructor
  case short =>
    intro htruncated
    rw [hclean] at htruncated
    exact absurd htruncated hr
  case enough =>
    intro r' c' hrun _
    rw [h .clean] at hrun
    obtain ⟨rfl, rfl⟩ := Prod.mk.inj hrun
    exact h (.faulty fault)
  case clean =>
    rw [hclean]
    exact hdevice

theorem of_ends {lenient : Bytes → Prop} (hx : x.Ends lenient) (hlocal : x.IsLocal)
    (hfault : fault ≠ .unexpectedEnd) (bytes : Bytes) : x.TellsFault bytes fault := by
  have hdevice (f : Fault) : x.result (.start bytes .clean) ≠ .error (.device f) := fun h ↦
    (hx _ _ _ _ _ (Prod.ext h rfl)).1 f rfl
  rcases hrun : x (.start bytes .clean) with ⟨r, c⟩
  have hclean : x.result (.start bytes .clean) = r := congrArg Prod.fst hrun
  by_cases hr : Truncated r
  · obtain ⟨wanted, place, rfl⟩ := hr
    obtain ⟨g, d, hd, hg⟩ := (hx _ _ _ _ _ hrun).2 ⟨wanted, place, rfl⟩ fault
    obtain ⟨-, heq, -⟩ | ⟨rfl, -⟩ := hg
    · exact absurd heq hfault
    · exact of_short hclean (congrArg Prod.fst hd)
  · obtain ⟨used, rfl, hused⟩ := (hlocal bytes 0 [] r c hrun).resolve_left hr
    rw [hclean] at hdevice
    exact of_settled (c := c) (hused c.rest) hr hdevice

/-- A reader that hands the rest of its input to another one. -/
theorem congr {rest : Bytes} (h : y.TellsFault rest fault)
    (heq : ∀ ending, x (.start bytes ending) = y (.start rest ending)) :
    x.TellsFault bytes fault := by
  have hresult (ending : Ending) : x.result (.start bytes ending) = y.result (.start rest ending) :=
    congrArg Prod.fst (heq ending)
  constructor
  case short =>
    rw [hresult, hresult]
    exact h.short
  case enough =>
    rw [heq, heq]
    exact h.enough
  case clean =>
    rw [hresult]
    exact h.clean

end Wire.Step.TellsFault

theorem Adapter.load_tellsFault (a : Adapter) (scope : Scope) (maxDepth : Nat) (e : Expectation)
    (hfault : fault ≠ .unexpectedEnd) (bytes : Bytes) :
    (a.load scope maxDepth e).TellsFault bytes fault := by
  let d : Decoder := ⟨scope, a.layout, maxDepth⟩
  have hframe : (d.frame maxDepth .top e).TellsFault bytes fault :=
    .of_ends (d.frame_ends maxDepth .top e) (d.frame_isLocal maxDepth .top e) hfault bytes
  exact hframe.congr fun _ ↦ rfl

theorem Header.short_or_long (bytes : Bytes) : bytes.length < size ∨
    ∃ head rest, head.length = size ∧ bytes = head ++ rest := by
  by_cases h : bytes.length < size
  · exact .inl h
  · exact .inr ⟨_, _, List.length_take_of_le (Nat.le_of_not_lt h), (List.take_append_drop ..).symm⟩

theorem Header.read_tellsFault (bytes : Bytes) (fault : Fault) : read.TellsFault bytes fault := by
  obtain hshort | ⟨head, rest, hhead, rfl⟩ := short_or_long bytes
  · obtain ⟨c, hc⟩ := read_short hshort
    exact .of_short (congrArg Prod.fst hc) (read_short_faulty hshort fault)
  · apply Step.TellsFault.of_settled (c := ⟨rest, .clean, size, []⟩) (read_append hhead rest)
    · split
      · exact not_truncated_ok _
      · rintro ⟨wanted, place, h⟩
        cases h
    · intro f
      split <;> exact nofun

/-- The frame is read from what the header leaves. -/
theorem Artifact.read_tellsFault (r : Registry) (scope : Scope) (maxDepth : Nat) (e : Expectation)
    (hfault : fault ≠ .unexpectedEnd) (bytes : Bytes) :
    (read r scope maxDepth e).TellsFault bytes fault := by
  obtain hshort | ⟨head, rest, hhead, rfl⟩ := Header.short_or_long bytes
  · obtain ⟨c, hc⟩ := Header.read_short hshort
    exact .of_short (read_of_error r scope maxDepth e (congrArg Prod.fst hc))
      (read_of_error r scope maxDepth e (Header.read_short_faulty hshort fault))
  · have hread (ending : Ending) := Header.read_append hhead rest ending
    let c : Cursor := ⟨rest, .clean, Header.size, []⟩
    by_cases hvalid : (Header.parse head).isValid
    · cases hfind : r.find? (Header.parse head).version with
      | none =>
        have hunknown (ending : Ending) : read r scope maxDepth e (.start (head ++ rest) ending) =
            (.error (.unsupportedVersion (Header.parse head).version),
              { c with ending := ending }) := by
          simp only [read, hread, hvalid, if_true, Registry.get, hfind]
          rfl
        exact .of_settled hunknown (by simp [Truncated]) (by simp)
      | some a =>
        apply (a.load_tellsFault scope maxDepth e hfault rest).congr
        intro ending
        simp only [read, hread, hvalid, if_true, Registry.get, hfind]
    · have hinvalid (ending : Ending) : read r scope maxDepth e (.start (head ++ rest) ending) =
          (.error .invalidMagic, { c with ending := ending }) := by
        simp only [read, hread, hvalid]
        rfl
      exact .of_settled hinvalid (by simp [Truncated]) (by simp)

/-- A fault that is no unexpected end is met by the readers that are short of bytes, and by no
others, and it is never taken for what the bytes say: nodes, artifacts, headers and string tables
are all read in this way. -/
theorem fault_told_apart (bytes : Bytes) (fault : Fault) (hfault : fault ≠ .unexpectedEnd) :
    (∀ (a : Adapter) scope maxDepth e, (a.load scope maxDepth e).TellsFault bytes fault) ∧
    (∀ r scope maxDepth e, (Artifact.read r scope maxDepth e).TellsFault bytes fault) ∧
    Header.read.TellsFault bytes fault ∧ StringTable.load.TellsFault bytes fault := by
  refine ⟨?_, ?_, ?_, ?_⟩
  · intro a scope maxDepth e
    exact a.load_tellsFault scope maxDepth e hfault bytes
  · intro r scope maxDepth e
    exact Artifact.read_tellsFault r scope maxDepth e hfault bytes
  · exact Header.read_tellsFault bytes fault
  · exact .of_ends StringTable.load_ends StringTable.load_isLocal hfault bytes

theorem fault_told_apart_header :
    Header.read (.start (Header.ofVersion ⟨0, 11⟩).bytes (.faulty .other)) =
      (.ok (Header.ofVersion ⟨0, 11⟩), ⟨[], .faulty .other, Header.size, []⟩) ∧
    (Adapter.v0_11.load .empty 1 .any).result (.start [] (.faulty .other)) =
      .error (.device .other) := by
  constructor
  · have hclean := Header.read_ofVersion ⟨0, 11⟩ [] .clean
    rw [List.append_nil] at hclean
    have hheader := (fault_told_apart (Header.ofVersion ⟨0, 11⟩).bytes .other (by decide)).2.2.1
    exact hheader.enough _ _ hclean (not_truncated_ok _)
  · obtain ⟨wanted, c, hc⟩ := Decoder.frame_hungry ⟨.empty, .kindMarker, 1⟩ 1 .top .any 0 []
    have hload := (fault_told_apart [] .other (by decide)).1 .v0_11 .empty 1 .any
    exact hload.short ⟨wanted, ⟨none, 0⟩, congrArg Prod.fst hc⟩

end TreeBytecode
