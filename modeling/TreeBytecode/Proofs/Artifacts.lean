import Mathlib.Data.List.Induction
import TreeBytecode.Proofs.Outputs
import TreeBytecode.Proofs.Truncation

namespace TreeBytecode

open Wire

namespace Registry

def latest? (registered : List Adapter) (v : FormatVersion) : Option Adapter :=
  registered.reverse.find? fun a ↦ a.version = v

theorem version_of_find? {r : Registry} {a : Adapter} {v : FormatVersion}
    (h : r.find? v = some a) : a.version = v := by
  simpa only [decide_eq_true_iff] using List.find?_some h

theorem find?_register (r : Registry) (a : Adapter) (v : FormatVersion) :
    (r.register a).find? v = if a.version = v then some a else r.find? v := by
  cases hfound : r.find? a.version with
  | none =>
    have hadapters : (r.register a).adapters = r.adapters ++ [a] := by
      rw [register, hfound]
      rfl
    rw [find?, hadapters, List.find?_append]
    by_cases h : a.version = v
    · subst v
      rw [show r.adapters.find? _ = none from hfound]
      simp
    · simp [h, find?]
  | some b =>
    have hadapters : (r.register a).adapters =
        r.adapters.map fun b ↦ if b.version = a.version then a else b := by
      rw [register, hfound]
      rfl
    -- The adapters keep their versions, so the same place is found.
    have hversions (b : Adapter) :
        (if b.version = a.version then a else b).version = b.version := by
      split
      · next h => exact h.symm
      · rfl
    rw [find?, hadapters, List.find?_map]
    simp only [Function.comp_def, hversions]
    by_cases h : a.version = v
    · subst v
      rw [if_pos rfl, show r.adapters.find? _ = some b from hfound, Option.map_some,
        if_pos (version_of_find? hfound)]
    · rw [if_neg h]
      change (r.find? v).map _ = r.find? v
      cases hother : r.find? v with
      | none => rfl
      | some c =>
        have hne : c.version ≠ a.version := by
          intro hc
          exact h (hc.symm.trans (version_of_find? hother))
        rw [Option.map_some, if_neg hne]

theorem find?_registered (current : FormatVersion) (registered : List Adapter)
    (v : FormatVersion) :
    (registered.foldl register (.empty current)).find? v = latest? registered v := by
  induction registered using List.reverseRecOn with
  | nil => rfl
  | append_singleton registered a ih =>
    rw [List.foldl_append, List.foldl_cons, List.foldl_nil, find?_register, ih, latest?, latest?,
      List.reverse_concat, List.find?_cons]
    by_cases h : a.version = v <;> simp [h]

end Registry

namespace Header

theorem word_ofNat_ofBytes {bs : Bytes} (h : bs.length = 2) :
    word 2 (UInt16.ofNat (ofBytes bs)).toNat = bs := by
  have hlt : ofBytes bs < UInt16.size := by
    have hcapacity := ofBytes_lt bs
    rwa [h] at hcapacity
  rw [UInt16.toNat_ofNat_of_lt' hlt, ← h, word_ofBytes]

theorem bytes_parse {bs : Bytes} (h : bs.length = size) : (parse bs).bytes = bs := by
  have hmajor : ((bs.drop 4).take 2).length = 2 := by simp [h, size]
  have hminor : ((bs.drop 6).take 2).length = 2 := by simp [h, size]
  have hend : (bs.drop 6).take 2 = bs.drop 6 := List.take_of_length_le (by simp [h, size])
  have hmiddle : (bs.drop 4).take 2 ++ bs.drop 6 = bs.drop 4 := by
    rw [← List.drop_drop (i := 2) (j := 4)]
    exact List.take_append_drop 2 (bs.drop 4)
  rw [bytes, parse, word_ofNat_ofBytes hmajor, word_ofNat_ofBytes hminor, hend, List.append_assoc,
    hmiddle, List.take_append_drop]

theorem eq_ofVersion {h : Header} (hv : h.isValid = true) : h = ofVersion h.version := by
  have hmagic : h.magic = expectedMagic := eq_of_beq hv
  rw [ofVersion, ← hmagic]

theorem read_clean (bytes : Bytes) :
    (bytes.length < size ∧ ∃ c, read (.start bytes .clean) =
      (.error (.truncated size .outside), c)) ∨
    (size ≤ bytes.length ∧ bytes.take 4 ≠ expectedMagic ∧ ∃ c, read (.start bytes .clean) =
      (.error .invalidMagic, c)) ∨
    ∃ v rest, bytes = (ofVersion v).bytes ++ rest := by
  by_cases hsize : size ≤ bytes.length
  · have hlength : (bytes.take size).length = size := List.length_take_of_le hsize
    have hread := read_append hlength (bytes.drop size) .clean
    rw [List.take_append_drop] at hread
    by_cases hvalid : (parse (bytes.take size)).isValid = true
    · refine .inr (.inr ⟨(parse (bytes.take size)).version, bytes.drop size, ?_⟩)
      rw [← eq_ofVersion hvalid, bytes_parse hlength, List.take_append_drop]
    · rw [if_neg hvalid] at hread
      refine .inr (.inl ⟨hsize, fun hmagic ↦ hvalid ?_, _, hread⟩)
      rw [isValid, parse, List.take_take]
      exact beq_iff_eq.2 hmagic
  · have hshort : bytes.length < size := Nat.lt_of_not_le hsize
    exact .inl ⟨hshort, read_short hshort⟩

end Header

theorem Adapter.write_unlimited {a : Adapter} {n : Node} {sink : Sink} {table : StringTable}
    {count : Nat} {e : Encoder} (h : a.write n (.start sink table) = (.ok count, e)) :
    ∃ e', a.write n (.start (.empty none) table) = (.ok count, e') ∧ e'.table = e.table ∧
      count = e'.sink.bytes.length ∧ e.sink.bytes = sink.bytes ++ e'.sink.bytes := by
  obtain ⟨e', hrun, htable, hbytes⟩ := (a.write_steady n).unlimited_of_ok h
  obtain ⟨bs, hbs, hcount, -⟩ := write_ok hrun
  obtain rfl : e'.sink.bytes = bs := hbs
  exact ⟨e', hrun, htable, hcount, hbytes⟩

namespace Artifact

variable {r : Registry} {scope : Scope} {maxDepth : Nat} {x : Expectation} {v : FormatVersion}

theorem read_of_found {a : Adapter} (h : r.find? v = some a) (rest : Bytes) (ending : Ending) :
    read r scope maxDepth x (.start ((Header.ofVersion v).bytes ++ rest) ending) =
      a.load scope maxDepth x (.start rest ending) := by
  have hget : r.get (Header.ofVersion v).version = .ok a := by
    rw [Registry.get, show r.find? (Header.ofVersion v).version = some a from h]
  simp only [read, Header.read_ofVersion, hget]

theorem read_of_missing (h : r.find? v = none) (rest : Bytes) (ending : Ending) :
    (read r scope maxDepth x (.start ((Header.ofVersion v).bytes ++ rest) ending)).1 =
      .error (.unsupportedVersion v) := by
  have hget : r.get (Header.ofVersion v).version = .error (.unsupportedVersion v) := by
    rw [Registry.get, show r.find? (Header.ofVersion v).version = none from h]
    rfl
  simp only [read, Header.read_ofVersion, hget]

/-- Of any bytes a reader looks at the length, at the magic and at the version, in this order, and
leaves the rest to the adapter for the version. -/
theorem read_clean (r : Registry) (scope : Scope) (maxDepth : Nat) (x : Expectation)
    (bytes : Bytes) :
    (bytes.length < Header.size ∧ (read r scope maxDepth x (.start bytes .clean)).1 =
      .error (.truncated Header.size .outside)) ∨
    (Header.size ≤ bytes.length ∧ bytes.take 4 ≠ Header.expectedMagic ∧
      (read r scope maxDepth x (.start bytes .clean)).1 = .error .invalidMagic) ∨
    ∃ v rest, bytes = Header.expectedMagic ++ word 2 v.major.toNat ++ word 2 v.minor.toNat ++
        rest ∧
      ((r.find? v = none ∧
        (read r scope maxDepth x (.start bytes .clean)).1 = .error (.unsupportedVersion v)) ∨
      ∃ a, r.find? v = some a ∧ read r scope maxDepth x (.start bytes .clean) =
        a.load scope maxDepth x (.start rest .clean)) := by
  obtain ⟨hshort, c, hc⟩ | ⟨hlong, hmagic, c, hc⟩ | ⟨v, rest, rfl⟩ := Header.read_clean bytes
  · refine .inl ⟨hshort, ?_⟩
    simp only [read, hc]
  · refine .inr (.inl ⟨hlong, hmagic, ?_⟩)
    simp only [read, hc]
  · refine .inr (.inr ⟨v, rest, rfl, ?_⟩)
    cases hv : r.find? v with
    | none => exact .inl ⟨rfl, read_of_missing hv rest .clean⟩
    | some a => exact .inr ⟨a, rfl, read_of_found hv rest .clean⟩

theorem write_eq {a : Adapter} {n : Node} {table : StringTable} {sink : Sink} {count : Nat}
    {e : Encoder} (h : write a n table sink = (.ok count, e)) : ∃ e',
      a.write n (.start (.empty none) table) = (.ok e'.sink.bytes.length, e') ∧
      e'.table = e.table ∧ count = Header.size + e'.sink.bytes.length ∧
      e.sink.bytes = sink.bytes ++ ((Header.ofVersion a.version).bytes ++ e'.sink.bytes) := by
  obtain ⟨sink', body, hframe, rfl, hheader⟩ := write_ok h
  obtain ⟨e', hframe', htable, rfl, hbytes⟩ := Adapter.write_unlimited hframe
  refine ⟨e', hframe', htable, rfl, ?_⟩
  rw [hbytes, hheader, List.append_assoc]

/-- With a registry that was filled by registering one adapter after another: an artifact of the
last adapter for its version is that version and what the adapter writes alone, and is read by this
adapter, whatever comes after it. In any other bytes the length, the magic and the version are
looked at in this order, and only then the adapter for the version reads. -/
theorem read_registered (current : FormatVersion) (registered : List Adapter) :
    let r := registered.foldl Registry.register (.empty current)
    (∀ a, Registry.latest? registered a.version = some a → ∀ n table sink count e,
      write a n table sink = (.ok count, e) → ∃ e',
        a.write n (.start (.empty none) table) = (.ok e'.sink.bytes.length, e') ∧
        e'.table = e.table ∧ count = Header.size + e'.sink.bytes.length ∧
        e.sink.bytes = sink.bytes ++ ((Header.ofVersion a.version).bytes ++ e'.sink.bytes) ∧
        (Header.ofVersion a.version).bytes.length = Header.size ∧
        ∀ types maxDepth x, e.table.size ≤ UInt32.size →
          (∀ t ∈ n.typeRefs, types t.name = some t.handle) → n.depth ≤ maxDepth →
          x.accepts n.tag = true → ∃ v, (x.toNode v == n) = true ∧ ∀ further ending,
            read r ⟨e.table, types⟩ maxDepth x (.start
              ((Header.ofVersion a.version).bytes ++ e'.sink.bytes ++ further) ending) =
                (.ok v, ⟨further, ending, e'.sink.bytes.length, []⟩)) ∧
    ∀ scope maxDepth x bytes,
      (bytes.length < Header.size ∧ (read r scope maxDepth x (.start bytes .clean)).1 =
        .error (.truncated Header.size .outside)) ∨
      (Header.size ≤ bytes.length ∧ bytes.take 4 ≠ Header.expectedMagic ∧
        (read r scope maxDepth x (.start bytes .clean)).1 = .error .invalidMagic) ∨
      ∃ v rest, bytes = Header.expectedMagic ++ word 2 v.major.toNat ++ word 2 v.minor.toNat ++
          rest ∧
        ((Registry.latest? registered v = none ∧
          (read r scope maxDepth x (.start bytes .clean)).1 = .error (.unsupportedVersion v)) ∨
        ∃ a, Registry.latest? registered v = some a ∧
          read r scope maxDepth x (.start bytes .clean) =
            a.load scope maxDepth x (.start rest .clean)) := by
  intro r
  have hfind (v : FormatVersion) : r.find? v = Registry.latest? registered v :=
    Registry.find?_registered current registered v
  constructor
  · intro a ha n table sink count e hw
    obtain ⟨e', hframe, htable, hcount, hbytes⟩ := write_eq hw
    refine ⟨e', hframe, htable, hcount, hbytes, Header.length_bytes rfl, ?_⟩
    intro types maxDepth x hsize htypes hdepth hx
    rw [← htable] at hsize ⊢
    obtain ⟨bs, v, hbs, hsame, hload⟩ := Adapter.load_of_write hframe hsize htypes hdepth hx
    obtain rfl : e'.sink.bytes = bs := hbs
    refine ⟨v, hsame, fun further ending ↦ ?_⟩
    rw [List.append_assoc, read_of_found ((hfind a.version).trans ha)]
    exact hload further ending
  · intro scope maxDepth x bytes
    simp only [← hfind]
    exact read_clean r scope maxDepth x bytes

theorem read_registered_parameter :
    let a : Adapter := ⟨⟨7, 300⟩, .kindMarker⟩
    let r := [⟨⟨7, 300⟩, .reservedName⟩, .v0_11, a].foldl Registry.register (.empty .current)
    let out : Bytes := [0x4b, 0x42, 0x43, 0, 7, 0, 44, 1] ++
      (Tag.parameter.code :: List.replicate 8 0)
    ∃ v, ((Expectation.only .parameter).toNode v == .parameter default) = true ∧
      ∀ further ending,
        read r ⟨.ofList [""], TypeUniverse.resolve? ⟨[("", 0)]⟩⟩ 1 (.only .parameter)
          (.start (out ++ further) ending) = (.ok v, ⟨further, ending, 9, []⟩) := by
  intro a r out
  let n : Node := .parameter default
  have hw : write a n (.ofList [""]) (.empty none) =
      (.ok 17, (write a n (.ofList [""]) (.empty none)).2) := rfl
  obtain ⟨e', hframe, htable, -, -, -, hread⟩ := (read_registered .current
    [⟨⟨7, 300⟩, .reservedName⟩, .v0_11, a]).1 a rfl n (.ofList [""]) (.empty none) 17 _ hw
  have hbytes : e'.sink.bytes = Tag.parameter.code :: List.replicate 8 0 := by
    have hframe' : (n.frame a.layout).bytes? (.ofList [""]) =
        some (Tag.parameter.code :: List.replicate 8 0) := rfl
    have halone := a.write_of_bytes? hframe' #[]
    rw [show Encoder.start ⟨none, #[]⟩ _ = .start (.empty none) _ from rfl, hframe] at halone
    rw [(Prod.mk.inj halone).2]
    rfl
  have htypes : n.typeRefs = [default] := by
    rw [Node.typeRefs, Node.frames_eq]
    rfl
  have hdepth : n.depth ≤ 1 := by
    rw [Node.depth_eq]
    decide
  have hgrown : (write a n (.ofList [""]) (.empty none)).2.table = .ofList [""] :=
    StringTable.ext rfl
  have hheader : (Header.ofVersion a.version).bytes = [0x4b, 0x42, 0x43, 0, 7, 0, 44, 1] := by
    decide
  rw [hbytes, hgrown, hheader] at hread
  exact hread (TypeUniverse.resolve? ⟨[("", 0)]⟩) 1 (.only .parameter) (by decide)
    (by rw [htypes]; decide) hdepth rfl

end Artifact

end TreeBytecode
