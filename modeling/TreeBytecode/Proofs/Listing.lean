import TreeBytecode.Proofs.ByteOrder
import TreeBytecode.Proofs.Footprint
import TreeBytecode.Proofs.Trees

namespace TreeBytecode

open Wire Stream.Zstandard

namespace Package

variable {z : Stream.Codec} {fs fs' : FileSystem} {dir place : Path} {cs : List Class}
  {r : Registry} {o : PackageOptions}

/-- Something stands where a class with this name has its artifact. -/
def Stands (fs : FileSystem) (dir : Path) (name : String) : Prop :=
  name ≠ "" ∧ fs.find? (artifactPath dir name).place ≠ none

def StandsApart (fs : FileSystem) (dir : Path) (name : String) : Prop :=
  fs.find? (artifactPath dir name).place = some .directory

def HasArtifact (fs : FileSystem) (dir : Path) (name : String) : Prop :=
  name ≠ "" ∧ ∃ content, fs.find? (artifactPath dir name).place = some (.file content)

theorem HasArtifact.stands {name : String} (h : HasArtifact fs dir name) : Stands fs dir name := by
  obtain ⟨hname, content, hfile⟩ := h
  refine ⟨hname, ?_⟩
  rw [hfile]
  nofun

theorem Stands.hasArtifact {name : String} (h : Stands fs dir name)
    (hfile : ¬ StandsApart fs dir name) : HasArtifact fs dir name := by
  obtain ⟨e, he⟩ := Option.ne_none_iff_exists'.1 h.2
  cases e with
  | file content => exact ⟨h.1, content, he⟩
  | directory => exact absurd he hfile

theorem pairwise_utf8_mergeSort {names : List String} (h : names.Nodup) :
    names.mergeSort.Pairwise fun a b ↦ Text.utf8 a < Text.utf8 b := by
  have hsorted : names.mergeSort.Pairwise fun a b ↦ decide (a ≤ b) = true := by
    refine List.pairwise_mergeSort (fun a b c hab hbc ↦ ?_) (fun a b ↦ ?_) names
    · exact decide_eq_true (le_trans (of_decide_eq_true hab) (of_decide_eq_true hbc))
    · simpa using le_total a b
  have hdistinct : names.mergeSort.Nodup := (List.mergeSort_perm names _).nodup_iff.2 h
  refine (hsorted.and hdistinct).imp fun {a b} ⟨hle, hne⟩ ↦ ?_
  exact Text.utf8_lt_iff.2 (lt_of_le_of_ne (of_decide_eq_true hle) hne)

theorem nodup_filterMap_className? {files : List String} (h : files.Nodup) :
    (files.filterMap className?).Nodup := by
  refine List.Pairwise.filterMap _ (fun file file' hne name hname name' hname' hsame ↦ ?_) h
  obtain ⟨-, rfl⟩ := className?_eq_some_iff.1 hname
  obtain ⟨-, rfl⟩ := className?_eq_some_iff.1 hname'
  rw [hsame] at hne
  exact hne rfl

/-- The names in a directory, each once, in the order of their bytes. -/
theorem classNames_of_isTree (h : fs.IsTree) (hdir : fs.isDirectory dir = true) :
    ∃ names, classNames fs dir = .ok names ∧
      names.Pairwise (fun a b ↦ Text.utf8 a < Text.utf8 b) ∧
      ∀ name, name ∈ names ↔ Stands fs dir name := by
  obtain ⟨hp, hd⟩ := FileSystem.isDirectory_iff.1 hdir
  obtain ⟨children, hchildren, hdistinct, hmem⟩ := h.children hp hd
  let names := children.filterMap fun child ↦ className? child.1
  have hnames : names = (children.map Prod.fst).filterMap className? := by
    rw [List.filterMap_map]
    rfl
  refine ⟨names.mergeSort, ?_, pairwise_utf8_mergeSort ?_, fun name ↦ ?_⟩
  · simp only [classNames, hchildren, bind, Except.bind, pure, Except.pure, names]
  · rw [hnames]
    exact nodup_filterMap_className? hdistinct
  · rw [List.mem_mergeSort, List.mem_filterMap, Stands, artifactPath_place,
      Option.ne_none_iff_exists']
    constructor
    · rintro ⟨⟨file, e⟩, hchild, hname⟩
      obtain ⟨hne, rfl⟩ := className?_eq_some_iff.1 hname
      exact ⟨hne, e, (hmem _ e).1 hchild⟩
    · rintro ⟨hne, e, hfind⟩
      exact ⟨(artifactFile name, e), (hmem _ e).2 hfind, className?_eq_some_iff.2 ⟨hne, rfl⟩⟩

theorem classNames_of_children {names : List String}
    (h : (fs.children dir).map (List.filterMap fun child ↦ className? child.1) = .ok names)
    (hsorted : names.Pairwise fun a b ↦ decide (a ≤ b) = true) :
    classNames fs dir = .ok names := by
  rw [classNames]
  cases hchildren : fs.children dir with
  | error f =>
    rw [hchildren] at h
    cases h
  | ok children =>
    rw [hchildren] at h
    obtain rfl := Except.ok.inj h
    exact congrArg Except.ok (List.mergeSort_of_pairwise hsorted)

theorem isDirectory_of_classNames {listed : List String} (h : classNames fs dir = .ok listed) :
    fs.isDirectory dir = true := by
  rw [classNames, FileSystem.children] at h
  rw [FileSystem.isDirectory_iff]
  cases hp : fs.locate dir with
  | error f =>
    rw [hp] at h
    cases h
  | ok place =>
    obtain rfl := FileSystem.locate_ok hp
    rw [hp] at h
    refine ⟨rfl, FileSystem.eq_directory_of_hindrance? ?_⟩
    cases hd : FileSystem.hindrance? (fs.find? dir.place) with
    | none => rfl
    | some fault =>
      simp only [bind, Except.bind, hd] at h
      cases h

theorem not_stands_of_missing (h : fs.IsTree) (hmissing : fs.find? dir.place = none)
    (name : String) : ¬ Stands fs dir name := by
  rintro ⟨-, hfind⟩
  obtain ⟨e, he⟩ := Option.ne_none_iff_exists'.1 hfind
  have hparent := h.parent he
  rw [artifactPath_place, List.dropLast_concat, hmissing] at hparent
  cases hparent

section

variable (z : Stream.Codec) {I : FileSystem → Prop}
  (hfile : ∀ {α : Type} p (fill : Option Breakage → Except Failure α × Bytes),
    (FileSystem.writeFile p fill).Keeps I)
include hfile

theorem writeShared_keeps (a : Adapter) (o : PackageOptions) (dir : Path) (cs : List Class) :
    (writeShared z a o dir cs).Keeps I :=
  (Step.Keeps.foldlM (fun _ _ ↦ hfile _ _) cs _).bind fun _ ↦ hfile _ _

theorem writeSeparate_keeps (a : Adapter) (o : PackageOptions) (dir : Path) (cs : List Class) :
    (writeSeparate z a o dir cs).Keeps I :=
  .forM (fun _ ↦ Step.Keeps.bind (hfile _ _) fun _ ↦ hfile _ _) cs

end

theorem write_isTree (z : Stream.Codec) (dir : Path) (cs : List Class) (r : Registry)
    (o : PackageOptions) : (write z dir cs r o).Keeps FileSystem.IsTree := by
  refine Step.Keeps.bind (.forM (fun c ↦ .of_idle fun _ ↦ rfl) cs) fun _ ↦
    .bind (.of_idle fun _ ↦ rfl) fun a ↦ (FileSystem.makeDirs_isTree dir).bind fun _ ↦ ?_
  cases o.scope with
  | package => exact writeShared_keeps z FileSystem.writeFile_isTree a o dir cs
  | class_ => exact writeSeparate_keeps z FileSystem.writeFile_isTree a o dir cs

theorem isDirectory_of_write (hw : write z dir cs r o fs = (.ok (), fs')) :
    fs'.isDirectory dir = true := by
  have haccepted : ¬ Refused cs r o := by
    intro hrefused
    obtain ⟨f, hstop⟩ := write_of_refused z hrefused dir fs
    rw [hstop] at hw
    cases congrArg Prod.fst hw
  obtain ⟨a, -, hgo⟩ := write_of_not_refused haccepted
  rw [hgo] at hw
  obtain ⟨⟨⟩, fs₁, hdirs, hfiles⟩ := Step.bind_eq_ok.1 hw
  have hthere := FileSystem.makeDirs_ok hdirs
  cases hscope : o.scope with
  | package =>
    rw [hscope] at hfiles
    have hrun : writeShared z a o dir cs fs₁ = (.ok (), fs') := hfiles
    have hkept := writeShared_keeps z (FileSystem.writeFile_isDirectory dir) a o dir cs fs₁ hthere
    rwa [hrun] at hkept
  | class_ =>
    rw [hscope] at hfiles
    have hrun : writeSeparate z a o dir cs fs₁ = (.ok (), fs') := hfiles
    have hkept := writeSeparate_keeps z (FileSystem.writeFile_isDirectory dir) a o dir cs fs₁ hthere
    rwa [hrun] at hkept

/-- The files of the last class of each name, and the table for all of them if they share one. -/
def Holds (z : Stream.Codec) (scope : StringScope) (comp : Compression) (dir : Path) (r : Registry)
    (cs : List Class) (fs : FileSystem) : Prop :=
  match scope with
  | .package => ∃ table, HoldsTable z fs comp (dir ++ [sharedTableFile]) table ∧
      Latest (fun fs ↦ HoldsClass z fs comp dir r table) cs fs
  | .class_ => Latest (HoldsBoth z dir comp r) cs fs

theorem holds_of_write (hw : write z dir cs r o fs = (.ok (), fs')) :
    Holds z o.scope o.compression dir r cs fs' := by
  obtain ⟨-, a, fs₁, ha, -, hfiles⟩ := write_ok hw
  cases hscope : o.scope with
  | package =>
    rw [hscope] at hfiles
    exact writeShared_ok ha hfiles
  | class_ =>
    rw [hscope] at hfiles
    exact writeSeparate_ok ha hfiles (.nil _ fs₁)

theorem Holds.hasArtifact {scope : StringScope} {comp : Compression}
    (h : Holds z scope comp dir r cs fs) {c : Class} (hc : c ∈ cs) (hname : c.name ≠ "") :
    HasArtifact fs dir c.name := by
  obtain ⟨d, hd⟩ := exists_lastNamed? hc
  obtain ⟨table, hclass⟩ : ∃ table, HoldsClass z fs comp dir r table d := by
    cases scope with
    | package =>
      obtain ⟨table, -, hclasses⟩ := h
      exact ⟨table, hclasses c.name d hd⟩
    | class_ =>
      obtain ⟨table, hclass, -⟩ := h c.name d hd
      exact ⟨table, hclass⟩
  obtain ⟨a, body, -, hread, -⟩ := hclass
  rw [(of_lastNamed? hd).2] at hread
  exact ⟨hname, _, FileSystem.find?_of_readFile hread⟩

/-- Under each name that was written, the last class with it is read. -/
theorem Holds.load {o' : PackageOptions} (hz : z.ReadsBack)
    (h : Holds z o'.scope o'.compression dir r cs fs)
    (hchecked : ∀ c ∈ cs, checkName c.name = .ok ()) {types : TypeResolver}
    (htypes : ∀ c ∈ cs, ∀ ref ∈ (Node.classDef c).typeRefs,
      types ref.name = some ref.handle)
    (hdepth : ∀ c ∈ cs, (Node.classDef c).depth ≤ o'.maxDepth) {names : List String}
    (hnames : ∀ name ∈ names, ∃ c ∈ cs, c.name = name) :
    ∃ loaded, Package.load z fs dir names r types o' = .ok loaded ∧
      List.Forall₂ (fun name d ↦ ∃ c, lastNamed? cs name = some c ∧ d = c.persisted ∧
        (d == c) = true) names loaded := by
  have hlast : ∀ name ∈ names, ∃ c ∈ cs, c.name = name ∧ lastNamed? cs name = some c := by
    intro name hname
    obtain ⟨d, hd, rfl⟩ := hnames name hname
    obtain ⟨c, hc⟩ := exists_lastNamed? hd
    exact ⟨c, (of_lastNamed? hc).1, (of_lastNamed? hc).2, hc⟩
  have hsame (c : Class) : (c.persisted == c) = true := (Node.classDef c).persisted_beq
  rw [Package.load]
  cases hscope : o'.scope with
  | package =>
    rw [hscope] at h
    obtain ⟨table, htable, hclasses⟩ := h
    rw [htable.read hz]
    refine mapM_of_forall fun name hname ↦ ?_
    obtain ⟨c, hmem, rfl, hc⟩ := hlast name hname
    have hread := (hclasses c.name c hc).read hz htable.size_le (htypes c hmem) (hdepth c hmem)
    refine ⟨c.persisted, ?_, c, hc, rfl, hsame c⟩
    simp only [hchecked c hmem, hread, bind, Except.bind]
  | class_ =>
    rw [hscope] at h
    refine mapM_of_forall fun name hname ↦ ?_
    obtain ⟨c, hmem, rfl, hc⟩ := hlast name hname
    obtain ⟨table, hclass, htable⟩ := h c.name c hc
    have hread := hclass.read hz htable.size_le (htypes c hmem) (hdepth c hmem)
    refine ⟨c.persisted, ?_, c, hc, rfl, hsame c⟩
    simp only [hchecked c hmem, htable.read hz, hread, bind, Except.bind]

/-- At the end of a path that does not turn back, a directory is listed if something stands in
it. -/
theorem not_stands_of_forward (h : fs.IsTree) (hforward : ".." ∉ dir)
    (hdir : fs'.isDirectory dir = true) {f : Failure} (hfailed : classNames fs dir = .error f)
    (name : String) : ¬ Stands fs dir name := by
  rintro ⟨-, hfind⟩
  obtain ⟨e, he⟩ := Option.ne_none_iff_exists'.1 hfind
  have hparent := h.parent he
  rw [artifactPath_place, List.dropLast_concat] at hparent
  obtain ⟨names, hnames, -⟩ :=
    classNames_of_isTree h (h.isDirectory_of_forward hforward hparent hdir)
  rw [hnames] at hfailed
  cases hfailed

theorem changesOnly_of_write (hw : write z dir cs r o fs = (.ok (), fs')) :
    fs.ChangesOnly fs' (fun q ↦ ∃ names, names <+: dir ∧ q = Path.place names)
      (IsWritten z o r dir cs fs') := by
  have hchanges := write_changesOnly z dir cs r o fs
  rwa [hw] at hchanges

/-- An artifact was there before, or is one of those that were written. -/
theorem HasArtifact.of_after_write {name : String} (h : HasArtifact fs' dir name)
    (hw : write z dir cs r o fs = (.ok (), fs')) :
    HasArtifact fs dir name ∨ ∃ c ∈ cs, c.name = name := by
  obtain ⟨hname, content, hfile⟩ := h
  obtain heq | ⟨-, -, hdirectory⟩ | ⟨hwritten, -, -⟩ :=
    changesOnly_of_write hw (artifactPath dir name).place
  · exact .inl ⟨hname, content, heq.symm.trans hfile⟩
  · rw [hfile] at hdirectory
    cases hdirectory
  · right
    obtain ⟨c, hc, hplace⟩ | htable := hwritten
    · exact ⟨c, hc, (artifactPath_place_inj dir hplace).symm⟩
    · cases hscope : o.scope with
      | package =>
        rw [hscope] at htable
        exact absurd htable.1 (artifactPath_place_ne dir name "strings")
      | class_ =>
        rw [hscope] at htable
        obtain ⟨c, -, hplace⟩ := htable
        exact absurd hplace (artifactPath_place_ne dir name c.name)

theorem Stands.of_write {name : String} (h : Stands fs dir name)
    (hw : write z dir cs r o fs = (.ok (), fs')) : Stands fs' dir name := by
  obtain ⟨hname, hfind⟩ := h
  refine ⟨hname, ?_⟩
  obtain heq | ⟨-, hnone, -⟩ | ⟨-, -, content, hfile⟩ :=
    changesOnly_of_write hw (artifactPath dir name).place
  · rwa [heq]
  · exact absurd hnone hfind
  · rw [hfile]
    nofun

/-- In a directory that is there already, nothing is made but artifacts and tables. -/
theorem Stands.of_after_write {name : String} (h : Stands fs' dir name)
    (hdir : fs.isDirectory dir = true) (hw : write z dir cs r o fs = (.ok (), fs')) :
    Stands fs dir name ∨ ∃ c ∈ cs, c.name = name := by
  obtain ⟨hname, hfind⟩ := h
  obtain heq | ⟨⟨front, hfront, hplace⟩, hnone, -⟩ | ⟨-, -, content, hfile⟩ :=
    changesOnly_of_write hw (artifactPath dir name).place
  · rw [heq] at hfind
    exact .inl ⟨hname, hfind⟩
  · have hthere := FileSystem.directory_of_prefix hdir hfront
    rw [← hplace, hnone] at hthere
    cases hthere
  · have hwritten : HasArtifact fs' dir name := ⟨hname, content, hfile⟩
    exact (hwritten.of_after_write hw).imp_left HasArtifact.stands

/-- On a path that does not turn back, no directory is made where artifacts are. -/
theorem standsApart_of_after_write {name : String} (hforward : ".." ∉ dir)
    (h : StandsApart fs' dir name) (hw : write z dir cs r o fs = (.ok (), fs')) :
    StandsApart fs dir name := by
  obtain heq | ⟨⟨front, hfront, hplace⟩, -, -⟩ | ⟨-, -, content, hfile⟩ :=
    changesOnly_of_write hw (artifactPath dir name).place
  · exact heq.symm.trans h
  · have hlength := (FileSystem.place_prefix_of_forward hforward hfront).length_le
    rw [← hplace, artifactPath_place, List.length_append, List.length_singleton] at hlength
    omega
  · cases hfile.symm.trans h

/-- After a call of the writer the names of its classes are listed, and those that were listed
before, each once and in the order of their bytes, and no others. If there was nothing to be listed
before, that is because no artifacts were there, unless the path turns back: it may lead to
artifacts behind a directory that was missing. Where there were none, the last class of each name
is read. -/
theorem classNames_of_write (hz : z.ReadsBack) (hfs : fs.IsTree)
    (hw : write z dir cs r o fs = (.ok (), fs')) :
    fs'.IsTree ∧
    (fs.find? dir.place = none → ∀ name, ¬ HasArtifact fs dir name) ∧
    (".." ∉ dir → (∀ name, StandsApart fs' dir name → StandsApart fs dir name) ∧
      ∀ f, classNames fs dir = .error f → ∀ name, ¬ HasArtifact fs dir name) ∧
    ∃ names, classNames fs' dir = .ok names ∧
      names.Pairwise (fun a b ↦ Text.utf8 a < Text.utf8 b) ∧
      (∀ listed, classNames fs dir = .ok listed → ∀ name,
        name ∈ names ↔ name ∈ listed ∨ ∃ c ∈ cs, c.name = name) ∧
      (∀ name, HasArtifact fs dir name ∨ (∃ c ∈ cs, c.name = name) → name ∈ names) ∧
      (∀ name ∈ names, ¬ StandsApart fs' dir name →
        HasArtifact fs dir name ∨ ∃ c ∈ cs, c.name = name) ∧
      ∀ (types : TypeResolver) (o' : PackageOptions),
        o'.scope = o.scope → o'.compression = o.compression →
        (classNames fs dir = .ok [] ∨
          (∀ name, ¬ HasArtifact fs dir name) ∧ ∀ name ∈ names, ¬ StandsApart fs' dir name) →
        (∀ c ∈ cs, ∀ ref ∈ (Node.classDef c).typeRefs, types ref.name = some ref.handle) →
        (∀ c ∈ cs, (Node.classDef c).depth ≤ o'.maxDepth) →
        ∃ loaded, load z fs' dir names r types o' = .ok loaded ∧
          List.Forall₂ (fun name d ↦ ∃ c, lastNamed? cs name = some c ∧ d = c.persisted ∧
            (d == c) = true) names loaded := by
  have hfs' : fs'.IsTree := by
    have hkept := write_isTree z dir cs r o fs hfs
    rwa [hw] at hkept
  have hdir' := isDirectory_of_write hw
  obtain ⟨names, hnames, hsorted, hmem⟩ := classNames_of_isTree hfs' hdir'
  have hchecked := (write_ok hw).1
  have hholds := holds_of_write hw
  have hwritten (name : String) (h : ∃ c ∈ cs, c.name = name) : name ∈ names := by
    obtain ⟨c, hc, rfl⟩ := h
    refine (hmem c.name).2 (hholds.hasArtifact hc fun hempty ↦ ?_).stands
    have husable := isUsableName_of_checkName (hchecked c hc)
    rw [hempty] at husable
    cases husable
  have hlisted (listed : List String) (h : classNames fs dir = .ok listed) (name : String) :
      name ∈ names ↔ name ∈ listed ∨ ∃ c ∈ cs, c.name = name := by
    have hdir := isDirectory_of_classNames h
    obtain ⟨listed', hlisted', -, hstands⟩ := classNames_of_isTree hfs hdir
    obtain rfl := Except.ok.inj (h.symm.trans hlisted')
    rw [hstands]
    constructor
    · intro hname
      exact ((hmem name).1 hname).of_after_write hdir hw
    · rintro (hbefore | hclass)
      · exact (hmem name).2 (hbefore.of_write hw)
      · exact hwritten name hclass
  have hafter (name : String) (hname : name ∈ names) (hfile : ¬ StandsApart fs' dir name) :
      HasArtifact fs dir name ∨ ∃ c ∈ cs, c.name = name :=
    (((hmem name).1 hname).hasArtifact hfile).of_after_write hw
  refine ⟨hfs', fun hmissing name h ↦ not_stands_of_missing hfs hmissing name h.stands,
    fun hforward ↦ ⟨fun name h ↦ standsApart_of_after_write hforward h hw, fun f hfailed name h ↦
      not_stands_of_forward hfs hforward hdir' hfailed name h.stands⟩,
    names, hnames, hsorted, hlisted, ?_, hafter, ?_⟩
  · rintro name (hbefore | hclass)
    · exact (hmem name).2 (hbefore.stands.of_write hw)
    · exact hwritten name hclass
  · intro types o' hscope hcomp hempty htypes hdepth
    rw [← hscope, ← hcomp] at hholds
    refine hholds.load hz hchecked htypes hdepth fun name hname ↦ ?_
    obtain hnone | ⟨hnone, hfiles⟩ := hempty
    · exact ((hlisted [] hnone name).1 hname).resolve_left List.not_mem_nil
    · exact (hafter name hname (hfiles name hname)).resolve_left (hnone name)

theorem classNames_of_write_dotted : ∃ fs : FileSystem,
    let a : Class := .shell .unknown .none "A.kst"
    let b : Class := .shell .unknown .none ".kbc"
    let b' : Class := .shell .interface .none ".kbc"
    let o : PackageOptions := ⟨.v0_11, .zstd 3, .class_, 1⟩
    write storing ["lib"] [b, a, b'] .builtin o .empty = (.ok (), fs) ∧
      classNames fs ["lib"] = .ok [".kbc", "A.kst"] ∧
      load storing fs ["lib"] [".kbc", "A.kst"] .builtin (fun _ ↦ none) o =
        .ok [b'.persisted, a.persisted] := by
  let a : Class := .shell .unknown .none "A.kst"
  let b : Class := .shell .unknown .none ".kbc"
  let b' : Class := .shell .interface .none ".kbc"
  let o : PackageOptions := ⟨.v0_11, .zstd 3, .class_, 1⟩
  have hok : (write storing ["lib"] [b, a, b'] .builtin o .empty).1.isOk = true := by
    decide +kernel
  rcases hw : write storing ["lib"] [b, a, b'] .builtin o .empty with ⟨result, fs⟩
  rw [hw] at hok
  cases result with
  | error => cases hok
  | ok =>
    obtain ⟨-, hmissing, hforward, names, hnames, hsorted, -, hlisted, honly, hload⟩ :=
      classNames_of_write storing_readsBack FileSystem.isTree_empty hw
    have hbefore := hmissing rfl
    have hfiles (name : String) : ¬ StandsApart fs ["lib"] name := fun h ↦ by
      have hempty := (hforward (by decide)).1 name h
      rw [StandsApart, artifactPath_place] at hempty
      cases hempty
    have hmem (name : String) : name ∈ names ↔ name ∈ [".kbc", "A.kst"] := by
      constructor
      · intro hname
        obtain ⟨c, hc, rfl⟩ := (honly name hname (hfiles name)).resolve_left (hbefore name)
        simp only [List.mem_cons, List.not_mem_nil, or_false] at hc
        obtain rfl | rfl | rfl := hc <;> decide
      · intro hname
        simp only [List.mem_cons, List.not_mem_nil, or_false] at hname
        obtain rfl | rfl := hname
        · exact hlisted _ (.inr ⟨b, by simp, rfl⟩)
        · exact hlisted _ (.inr ⟨a, by simp, rfl⟩)
    have hascending : names.Pairwise (· < ·) := hsorted.imp Text.utf8_lt_iff.1
    have hexact : names = [".kbc", "A.kst"] := by
      have hperm : names.Perm [".kbc", "A.kst"] :=
        (List.perm_ext_iff_of_nodup (hascending.imp ne_of_lt) (by decide)).2 hmem
      exact hperm.eq_of_pairwise (fun _ _ _ _ hlt hgt ↦ (lt_asymm hlt hgt).elim) hascending
        (by decide)
    subst hexact
    have hleaf (c : Class) (hc : c ∈ [b, a, b']) :
        (Node.classDef c).typeRefs = [] ∧ (Node.classDef c).depth ≤ 1 := by
      rw [Node.typeRefs, Node.frames_eq, Node.depth_eq]
      simp only [List.mem_cons, List.not_mem_nil, or_false] at hc
      rcases hc with rfl | rfl | rfl <;> decide
    obtain ⟨loaded, hloaded, hall⟩ := hload (fun _ ↦ none) o rfl rfl
      (.inr ⟨hbefore, fun name _ ↦ hfiles name⟩)
      (fun c hc ref href ↦ absurd href (by simp [(hleaf c hc).1])) fun c hc ↦ (hleaf c hc).2
    have ha : lastNamed? [b, a, b'] "A.kst" = some a := rfl
    have hb : lastNamed? [b, a, b'] ".kbc" = some b' := rfl
    simp only [List.forall₂_cons_left_iff, List.forall₂_nil_left_iff, ha, hb,
      Option.some.injEq] at hall
    obtain ⟨_, _, ⟨_, rfl, rfl, -⟩, hall, rfl⟩ := hall
    obtain ⟨_, _, ⟨_, rfl, rfl, -⟩, rfl, rfl⟩ := hall
    exact ⟨fs, hw, hnames, hloaded⟩

/-- A directory may hold artifacts although it cannot be listed, because the way to it leads through
a missing one. -/
theorem classNames_of_write_turning_back :
    let a : Class := .shell .unknown .none "A"
    let b : Class := .shell .unknown .none "B"
    let o : PackageOptions := ⟨.v0_11, .none, .package, 1⟩
    ∃ fs fs' : FileSystem, write storing ["lib"] [b] .builtin o .empty = (.ok (), fs) ∧
      classNames fs ["new", "..", "lib"] = .error (.device .notFound) ∧
      write storing ["new", "..", "lib"] [a] .builtin o fs = (.ok (), fs') ∧
      classNames fs' ["new", "..", "lib"] = .ok ["A", "B"] := by
  intro a b o
  have hrun (dir : Path) (c : Class) (fs : FileSystem)
      (hok : (write storing dir [c] .builtin o fs).1 = .ok ()) :
      write storing dir [c] .builtin o fs =
        (.ok (), (write storing dir [c] .builtin o fs).2) := Prod.ext hok rfl
  have hfailed (dir : Path) (fs : FileSystem)
      (hlocate : fs.locate dir = .error (.device .notFound)) :
      classNames fs dir = .error (.device .notFound) := by
    rw [classNames, FileSystem.children, hlocate]
    rfl
  refine ⟨_, _, hrun _ _ _ ?_, hfailed _ _ ?_, hrun _ _ _ ?_, classNames_of_children ?_ ?_⟩ <;>
    decide +kernel

end Package

end TreeBytecode
