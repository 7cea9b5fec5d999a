import TreeBytecode.Proofs.PackageRoundTrip
import TreeBytecode.Proofs.PathText

namespace TreeBytecode

open Wire Stream.Zstandard

namespace Package

variable {z : Stream.Codec} {fs fs' : FileSystem} {dir : Path} {cs : List Class} {r : Registry}
  {o : PackageOptions}

theorem checkName_of_usable {name : String} (h : isUsableName name = true) :
    checkName name = .ok () := by
  rw [checkName, if_pos h]

theorem isUsableName_of_checkName {name : String} (h : checkName name = .ok ()) :
    isUsableName name = true := by
  rw [checkName] at h
  split at h
  · assumption
  · cases h

theorem checkNames_idle (cs : List Class) (fs : FileSystem) :
    ((cs.forM fun c ↦ Step.ofExcept (checkName c.name)) fs).2 = fs := by
  induction cs with
  | nil => rfl
  | cons c cs ih =>
    have hcons : (c :: cs).forM (fun c ↦ Step.ofExcept (σ := FileSystem) (checkName c.name)) =
        Step.ofExcept (checkName c.name) >>= fun _ ↦
          cs.forM fun c ↦ Step.ofExcept (checkName c.name) := rfl
    rw [hcons, Step.bind_apply, Step.ofExcept]
    cases checkName c.name with
    | error f => rfl
    | ok _ => exact ih

theorem checkNames_of_usable (h : ∀ c ∈ cs, isUsableName c.name = true) (fs : FileSystem) :
    (cs.forM fun c ↦ Step.ofExcept (checkName c.name)) fs = (.ok (), fs) := by
  induction cs with
  | nil => rfl
  | cons c cs ih =>
    obtain ⟨hc, hcs⟩ := List.forall_mem_cons.1 h
    have hname : Step.ofExcept (checkName c.name) fs = (.ok (), fs) := by
      rw [Step.ofExcept, checkName_of_usable hc]
    exact (Step.bind_of_ok hname).trans (ih hcs)

def Refused (cs : List Class) (r : Registry) (o : PackageOptions) : Prop :=
  (∃ c ∈ cs, isUsableName c.name = false) ∨ r.find? o.version = none

theorem write_of_refused (z : Stream.Codec) (h : Refused cs r o) (dir : Path) (fs : FileSystem) :
    ∃ f, write z dir cs r o fs = (.error f, fs) := by
  have hidle := checkNames_idle cs fs
  rcases hnames : (cs.forM fun c ↦ Step.ofExcept (checkName c.name)) fs with ⟨f | ⟨⟩, fs₁⟩
  · rw [hnames] at hidle
    obtain rfl : fs₁ = fs := hidle
    exact ⟨f, Step.bind_of_error hnames⟩
  · obtain ⟨rfl, hchecked⟩ := checkNames_ok hnames
    obtain ⟨c, hc, hunusable⟩ | hversion := h
    · rw [isUsableName_of_checkName (hchecked c hc)] at hunusable
      cases hunusable
    · have hget : Step.ofExcept (r.get o.version) fs =
          (.error (.unsupportedVersion o.version), fs) := by
        rw [Step.ofExcept, Registry.get, hversion]
      refine ⟨.unsupportedVersion o.version, ?_⟩
      rw [write, Step.bind_of_ok hnames, Step.bind_of_error hget]

theorem write_of_not_refused (h : ¬ Refused cs r o) : ∃ a, r.find? o.version = some a ∧
    ∀ z dir fs, write z dir cs r o fs = (FileSystem.makeDirs dir >>= fun _ ↦
      match o.scope with
      | .package => writeShared z a o dir cs
      | .class_ => writeSeparate z a o dir cs) fs := by
  obtain ⟨husable, hversion⟩ := not_or.1 h
  have hnames : ∀ c ∈ cs, isUsableName c.name = true := by
    intro c hc
    by_contra hunusable
    exact husable ⟨c, hc, Bool.eq_false_iff.2 hunusable⟩
  obtain ⟨a, ha⟩ := Option.ne_none_iff_exists'.1 hversion
  refine ⟨a, ha, fun z dir fs ↦ ?_⟩
  have hget : Step.ofExcept (r.get o.version) fs = (.ok a, fs) := by
    rw [Step.ofExcept, Registry.get, ha]
  exact (Step.bind_of_ok (checkNames_of_usable hnames fs)).trans (Step.bind_of_ok hget)

section Codec

variable (z : Stream.Codec)

theorem writeWith_changesOnly {α : Type} (comp : Compression) (p : Path)
    (encode : Sink → Except Failure α × Bytes) (made : Path → Prop) :
    (writeWith z comp p encode).ChangesOnly made (· = p.place) :=
  FileSystem.writeFile_changesOnly p _ made

theorem writeTable_changesOnly (comp : Compression) (p : Path) (t : StringTable)
    (made : Path → Prop) : (writeTable z comp p t).ChangesOnly made (· = p.place) :=
  writeWith_changesOnly z comp p _ made

theorem writeClass_changesOnly (a : Adapter) (o : PackageOptions) (dir : Path)
    (table : StringTable) (c : Class) (made : Path → Prop) :
    (writeClass z a o dir table c).ChangesOnly made (· = (artifactPath dir c.name).place) :=
  writeWith_changesOnly z _ _ _ made

end Codec

def IsArtifact (dir : Path) (cs : List Class) (q : Path) : Prop :=
  ∃ c ∈ cs, q = (artifactPath dir c.name).place

def IsTable (dir : Path) (cs : List Class) (q : Path) : Prop :=
  ∃ c ∈ cs, q = (tablePath dir .class_ c.name).place

theorem writeSeparate_changesOnly (z : Stream.Codec) (a : Adapter) (o : PackageOptions) (dir : Path)
    (cs : List Class) (made : Path → Prop) :
    (writeSeparate z a o dir cs).ChangesOnly made
      fun q ↦ IsArtifact dir cs q ∨ IsTable dir cs q := by
  refine .forM fun c hc ↦ Step.ChangesOnly.bind ?_ fun table ↦ ?_
  · exact (writeClass_changesOnly z a o dir .empty c made).mono (fun _ hq ↦ hq)
      fun q hq ↦ .inl ⟨c, hc, hq⟩
  · exact (writeTable_changesOnly z _ _ table made).mono (fun _ hq ↦ hq)
      fun q hq ↦ .inr ⟨c, hc, hq⟩

/-- The artifact of a class was written to its end and lies in its file. -/
def HoldsArtifact (z : Stream.Codec) (comp : Compression) (dir : Path) (a : Adapter)
    (fs : FileSystem) (c : Class) : Prop :=
  ∃ table count e, Artifact.write a (.classDef c) table (.empty none) = (.ok count, e) ∧
    fs.readFile (artifactPath dir c.name) = .ok (comp.pack z e.sink.bytes)

theorem HoldsArtifact.of_spares {comp : Compression} {a : Adapter} {c : Class}
    {touched : Path → Prop} (h : HoldsArtifact z comp dir a fs c) (hs : fs.Spares fs' touched)
    (hp : ¬ touched (artifactPath dir c.name).place) : HoldsArtifact z comp dir a fs' c := by
  obtain ⟨table, count, e, hw, hr⟩ := h
  exact ⟨table, count, e, hw, hs.readFile hp hr⟩

/-- The artifacts of all classes were written to their ends; where two have one name, the later one
is there. -/
structure Complete (z : Stream.Codec) (comp : Compression) (dir : Path) (a : Adapter)
    (cs : List Class) (fs : FileSystem) : Prop where
  written : ∀ c ∈ cs, ∃ table count e,
    Artifact.write a (.classDef c) table (.empty none) = (.ok count, e)
  held : Latest (HoldsArtifact z comp dir a) cs fs

theorem complete_of_written {a : Adapter} {t t' : StringTable}
    (h : cs.foldlM (writeClass z a o dir) t fs = (.ok t', fs')) :
    Complete z o.compression dir a cs fs' := by
  refine Step.foldlM_invariant (I := fun done _ ↦ Complete z o.compression dir a done) ?_ h
    ⟨by simp, .nil _ fs⟩
  intro done c t t' fs₁ fs₂ hdone hc
  obtain ⟨count, e, hw, -, hread, hspares⟩ := writeClass_written hc
  constructor
  · exact List.forall_mem_append.2
      ⟨hdone.written, List.forall_mem_singleton.2 ⟨t, count, e, hw⟩⟩
  · refine hdone.held.concat ⟨t, count, e, hw, hread⟩ fun d hne hd ↦ ?_
    exact hd.of_spares hspares (mt (artifactPath_place_inj dir) hne)

/-- The table for all classes is not touched before all artifacts are complete. -/
theorem writeShared_changesOnly (z : Stream.Codec) (a : Adapter) (o : PackageOptions) (dir : Path)
    (cs : List Class) (made : Path → Prop) (fs : FileSystem) :
    fs.ChangesOnly (writeShared z a o dir cs fs).2 made fun q ↦ IsArtifact dir cs q ∨
      q = Path.place (dir ++ [sharedTableFile]) ∧
        Complete z o.compression dir a cs (writeShared z a o dir cs fs).2 := by
  have hclasses : Step.ChangesOnly (cs.foldlM (writeClass z a o dir) .empty) made
      (IsArtifact dir cs) := by
    refine .foldlM (fun c hc table ↦ ?_) StringTable.empty
    exact (writeClass_changesOnly z a o dir table c made).mono (fun _ hq ↦ hq)
      fun q hq ↦ ⟨c, hc, hq⟩
  have hfs := hclasses fs
  rcases hrun : cs.foldlM (writeClass z a o dir) .empty fs with ⟨f | table, fs₁⟩
  · rw [hrun] at hfs
    have hstop : writeShared z a o dir cs fs = (.error f, fs₁) := Step.bind_of_error hrun
    rw [hstop]
    exact hfs.mono (fun _ hq ↦ hq) fun q hq ↦ .inl hq
  · rw [hrun] at hfs
    have hgo : writeShared z a o dir cs fs =
        writeTable z o.compression (dir ++ [sharedTableFile]) table fs₁ := Step.bind_of_ok hrun
    have htable := writeTable_changesOnly z o.compression (dir ++ [sharedTableFile]) table made fs₁
    have hcomplete : Complete z o.compression dir a cs (writeShared z a o dir cs fs).2 := by
      obtain ⟨hwritten, hheld⟩ := complete_of_written hrun
      rw [hgo]
      exact ⟨hwritten, hheld.imp fun c hc ↦
        hc.of_spares htable.spares (artifactPath_place_ne dir c.name "strings")⟩
    rw [hgo] at hcomplete ⊢
    exact (hfs.mono (fun _ hq ↦ hq) fun q hq ↦ .inl hq).trans
      (htable.mono (fun _ hq ↦ hq) fun q hq ↦ .inr ⟨hq, hcomplete⟩)

def IsWritten (z : Stream.Codec) (o : PackageOptions) (r : Registry) (dir : Path) (cs : List Class)
    (after : FileSystem) (q : Path) : Prop :=
  IsArtifact dir cs q ∨
    match o.scope with
    | .class_ => IsTable dir cs q
    | .package => q = Path.place (dir ++ [sharedTableFile]) ∧
        ∃ a, r.find? o.version = some a ∧ Complete z o.compression dir a cs after

theorem write_changesOnly (z : Stream.Codec) (dir : Path) (cs : List Class) (r : Registry)
    (o : PackageOptions) (fs : FileSystem) : fs.ChangesOnly (write z dir cs r o fs).2
      (fun q ↦ ∃ names, names <+: dir ∧ q = Path.place names)
      (IsWritten z o r dir cs (write z dir cs r o fs).2) := by
  by_cases h : Refused cs r o
  · obtain ⟨f, hstop⟩ := write_of_refused z h dir fs
    rw [hstop]
    exact .refl fs _ _
  · obtain ⟨a, ha, hgo⟩ := write_of_not_refused h
    rw [hgo]
    have hdirs := FileSystem.makeDirs_changesOnly dir (fun _ ↦ False) fs
    rcases hrun : FileSystem.makeDirs dir fs with ⟨f | ⟨⟩, fs₁⟩
    · rw [hrun] at hdirs
      rw [Step.bind_of_error hrun]
      exact hdirs.mono (fun _ hq ↦ hq) fun _ hq ↦ hq.elim
    · rw [hrun] at hdirs
      rw [Step.bind_of_ok hrun]
      refine (hdirs.mono (fun _ hq ↦ hq) fun _ hq ↦ hq.elim).trans ?_
      cases hscope : o.scope with
      | class_ =>
        refine (writeSeparate_changesOnly z a o dir cs _ fs₁).mono (fun _ hq ↦ hq) fun q hq ↦ ?_
        rw [IsWritten, hscope]
        exact hq
      | package =>
        refine (writeShared_changesOnly z a o dir cs _ fs₁).mono (fun _ hq ↦ hq) fun q hq ↦ ?_
        rw [IsWritten, hscope]
        exact hq.imp id fun ⟨hplace, hcomplete⟩ ↦ ⟨hplace, a, ha, hcomplete⟩

theorem place_concat_extension (dir : Path) (name : String) {extension : String}
    (h : extension.length = 3) : Path.place (dir ++ [name ++ "." ++ extension]) =
      dir.place ++ [name ++ "." ++ extension] := by
  apply place_concat
  have hdot : ".".length = 1 := by decide
  rw [String.length_append, String.length_append]
  omega

theorem artifactPath_place (dir : Path) (name : String) :
    (artifactPath dir name).place = dir.place ++ [artifactFile name] :=
  place_concat_extension dir name (by decide)

theorem tablePath_place (dir : Path) (scope : StringScope) (name : String) :
    (tablePath dir scope name).place = dir.place ++ [tableFile scope name] := by
  cases scope with
  | package =>
    have hlong : 2 < sharedTableFile.length := by decide
    exact place_concat dir hlong
  | class_ => exact place_concat_extension dir name (by decide)

theorem artifactPath_place_ne_tablePath (dir : Path) (scope : StringScope) (a b : String) :
    (artifactPath dir a).place ≠ (tablePath dir scope b).place := by
  cases scope with
  | package => exact artifactPath_place_ne dir a "strings"
  | class_ => exact artifactPath_place_ne dir a b

theorem ofText_artifactFile {name : String} (h : isUsableName name = true) (dir : String) :
    Path.ofText (joinText dir (artifactFile name)) = artifactPath (Path.ofText dir) name :=
  ofText_joinText_file h (by decide) dir

theorem ofText_tableFile {name : String} (h : isUsableName name = true) (dir : String)
    (scope : StringScope) :
    Path.ofText (joinText dir (tableFile scope name)) = tablePath (Path.ofText dir) scope name := by
  cases scope with
  | package =>
    have hslash : '/' ∉ sharedTableFile.toList := by decide
    have hne : sharedTableFile ≠ "" := by decide
    exact Path.ofText_joinText hslash hne dir
  | class_ => exact ofText_joinText_file h (by decide) dir

/-- A call with an unusable name or an unsupported version changes nothing. Any other makes missing
directories on the way to that of the package and writes files that belong to the package, whatever
goes wrong with any of these changes; the table for all classes is not touched before all artifacts
are complete. The files lie directly in the directory, by the texts of their paths as well, and no
two of them are the same. -/
theorem write_touches (z : Stream.Codec) (fs : FileSystem) (dir : Path) (cs : List Class)
    (r : Registry) (o : PackageOptions) :
    ((∃ c ∈ cs, c.name = "" ∨ c.name = "." ∨ c.name = ".." ∨ '/' ∈ c.name.toList ∨
        '\\' ∈ c.name.toList) ∨ r.find? o.version = none →
      ∃ f, write z dir cs r o fs = (.error f, fs)) ∧
    fs.ChangesOnly (write z dir cs r o fs).2
      (fun q ↦ ∃ names, names <+: dir ∧ q = Path.place names)
      (IsWritten z o r dir cs (write z dir cs r o fs).2) ∧
    (∀ name scope, (artifactPath dir name).place = dir.place ++ [artifactFile name] ∧
      (tablePath dir scope name).place = dir.place ++ [tableFile scope name]) ∧
    (∀ a b, a ≠ b → (artifactPath dir a).place ≠ (artifactPath dir b).place ∧
      (tablePath dir .class_ a).place ≠ (tablePath dir .class_ b).place) ∧
    (∀ a b scope, (artifactPath dir a).place ≠ (tablePath dir scope b).place) ∧
    ∀ c ∈ cs, isUsableName c.name = true → ∀ text,
      Path.ofText (joinText text (artifactFile c.name)) =
          artifactPath (Path.ofText text) c.name ∧
        ∀ scope, Path.ofText (joinText text (tableFile scope c.name)) =
          tablePath (Path.ofText text) scope c.name := by
  refine ⟨fun h ↦ ?_, write_changesOnly z dir cs r o fs, fun name scope ↦ ?_, fun a b hne ↦ ?_,
    fun a b scope ↦ artifactPath_place_ne_tablePath dir scope a b, fun c _ hc text ↦ ?_⟩
  · refine write_of_refused z (h.imp_left fun ⟨c, hc, hname⟩ ↦ ⟨c, hc, ?_⟩) dir fs
    rw [← Bool.not_eq_true, isUsableName_iff]
    tauto
  · exact ⟨artifactPath_place dir name, tablePath_place dir scope name⟩
  · exact ⟨mt (artifactPath_place_inj dir) hne, mt (tablePath_place_inj dir) hne⟩
  · exact ⟨ofText_artifactFile hc text, ofText_tableFile hc text⟩

theorem write_touches_outside :
    let outside : Class := .shell .unknown .none "../A"
    let a : Class := .shell .unknown .none "A"
    let b : Class := .shell .unknown .none "B"
    let o : PackageOptions := ⟨.v0_11, .none, .package, 1⟩
    let fs : FileSystem := ⟨[], [none, none, some (.broken ⟨some 9, .full, [0x4b]⟩)]⟩
    (∃ f, write storing ["lib"] [outside] .builtin o fs = (.error f, fs)) ∧
    let after := write storing ["lib"] [a, b] .builtin o fs
    after.1 = .error (.device .full) ∧ after.2.find? ["lib", "B.kbc"] = some (.file [0x4b]) ∧
      after.2.find? ["lib", "strings.kst"] = none := by
  intro outside a b o fs
  refine ⟨(write_touches storing fs ["lib"] [outside] .builtin o).1
    (.inl ⟨outside, List.mem_singleton_self outside, by decide⟩), ?_⟩
  decide +kernel

end Package

end TreeBytecode
