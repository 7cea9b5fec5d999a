import TreeBytecode.Package

namespace TreeBytecode

open Wire

def Path.place (p : Path) : Path := p.foldl Path.step []

namespace FileSystem

variable {fs fs' fs'' : FileSystem} {touched : Path → Prop}

theorem walk_ok {from_ names target : Path} (h : fs.walk from_ names = .ok target) :
    names.foldl Path.step from_ = target := by
  induction names generalizing from_ with
  | nil => exact Except.ok.inj h
  | cons name names ih =>
    rw [walk] at h
    split at h
    · cases h
    · split at h
      · cases h
      · exact ih h

theorem locate_ok {p target : Path} (h : fs.locate p = .ok target) : p.place = target := by
  rw [locate] at h
  split at h
  · cases h
  · exact walk_ok h

theorem find?_of_readFile {p : Path} {content : Bytes} (h : fs.readFile p = .ok content) :
    fs.find? p.place = some (.file content) := by
  rw [readFile, look] at h
  cases hp : fs.locate p with
  | error f =>
    rw [hp] at h
    cases h
  | ok place =>
    obtain rfl := locate_ok hp
    rw [hp] at h
    simp only [Functor.map, Except.map] at h
    cases hf : fs.find? p.place with
    | none =>
      rw [hf] at h
      cases h
    | some e =>
      rw [hf] at h
      cases e with
      | directory => cases h
      | file left =>
        obtain rfl := Except.ok.inj h
        rfl

/-- From the first file system to the second, directories and files elsewhere are kept. -/
def Spares (fs fs' : FileSystem) (touched : Path → Prop) : Prop :=
  ∀ q e, fs.find? q = some e → e = .directory ∨ ¬ touched q → fs'.find? q = some e

namespace Spares

theorem refl (fs : FileSystem) (touched : Path → Prop) : fs.Spares fs touched :=
  fun _ _ h _ ↦ h

theorem trans (h : fs.Spares fs' touched) (h' : fs'.Spares fs'' touched) :
    fs.Spares fs'' touched :=
  fun q e he hq ↦ h' q e (h q e he hq) hq

theorem walk (h : fs.Spares fs' touched) {from_ names target : Path}
    (hw : fs.walk from_ names = .ok target) : fs'.walk from_ names = .ok target := by
  induction names generalizing from_ with
  | nil => exact hw
  | cons name names ih =>
    rw [FileSystem.walk] at hw ⊢
    cases hf : fs.find? from_ with
    | none =>
      rw [hf] at hw
      cases hw
    | some e =>
      rw [hf] at hw
      cases e with
      | file content => cases hw
      | directory =>
        have hf' := h from_ .directory hf (.inl rfl)
        rw [hf']
        simp only [hindrance?] at hw ⊢
        split at hw
        · cases hw
        · next hl =>
          rw [if_neg hl]
          exact ih hw

theorem locate (h : fs.Spares fs' touched) {p target : Path} (hp : fs.locate p = .ok target) :
    fs'.locate p = .ok target := by
  rw [FileSystem.locate] at hp ⊢
  split at hp
  · cases hp
  · next hflaw => exact h.walk hp

/-- A file is read as before unless its own place was touched. -/
theorem readFile (h : fs.Spares fs' touched) {p : Path} {content : Bytes}
    (hp : ¬ touched p.place) (hr : fs.readFile p = .ok content) :
    fs'.readFile p = .ok content := by
  have hfile := h _ _ (find?_of_readFile hr) (.inr hp)
  rw [FileSystem.readFile, look] at hr ⊢
  cases hl : fs.locate p with
  | error f =>
    rw [hl] at hr
    cases hr
  | ok target =>
    obtain rfl := locate_ok hl
    simp only [h.locate hl, Functor.map, Except.map, hfile]

end Spares

/-- From the first file system to the second, only two things happened at any place: a directory was
made where nothing was, or a file was written where no directory was. -/
def ChangesOnly (fs fs' : FileSystem) (made written : Path → Prop) : Prop :=
  ∀ q, fs'.find? q = fs.find? q ∨
    (made q ∧ fs.find? q = none ∧ fs'.find? q = some .directory) ∨
    (written q ∧ fs.find? q ≠ some .directory ∧ ∃ content, fs'.find? q = some (.file content))

namespace ChangesOnly

variable {made made' written written' : Path → Prop}

theorem refl (fs : FileSystem) (made written : Path → Prop) : fs.ChangesOnly fs made written :=
  fun _ ↦ .inl rfl

theorem trans (h : fs.ChangesOnly fs' made written) (h' : fs'.ChangesOnly fs'' made written) :
    fs.ChangesOnly fs'' made written := by
  intro q
  obtain heq | ⟨hm, hnone, hdir⟩ | ⟨hw, hno, content, hfile⟩ := h q
  · have hq := h' q
    rwa [heq] at hq
  · obtain heq' | ⟨-, hnone', -⟩ | ⟨-, hno', -⟩ := h' q
    · exact .inr (.inl ⟨hm, hnone, heq'.trans hdir⟩)
    · rw [hdir] at hnone'
      cases hnone'
    · exact absurd hdir hno'
  · obtain heq' | ⟨-, hnone', -⟩ | ⟨-, -, hfile'⟩ := h' q
    · exact .inr (.inr ⟨hw, hno, content, heq'.trans hfile⟩)
    · rw [hfile] at hnone'
      cases hnone'
    · exact .inr (.inr ⟨hw, hno, hfile'⟩)

theorem mono (h : fs.ChangesOnly fs' made written) (hm : ∀ q, made q → made' q)
    (hw : ∀ q, written q → written' q) : fs.ChangesOnly fs' made' written' := by
  intro q
  obtain heq | ⟨hmade, hq⟩ | ⟨hwritten, hq⟩ := h q
  · exact .inl heq
  · exact .inr (.inl ⟨hm q hmade, hq⟩)
  · exact .inr (.inr ⟨hw q hwritten, hq⟩)

theorem spares (h : fs.ChangesOnly fs' made written) : fs.Spares fs' written := by
  intro q e hq hspared
  obtain heq | ⟨-, hnone, -⟩ | ⟨hw, hno, -⟩ := h q
  · rwa [heq]
  · rw [hnone] at hq
    cases hq
  · obtain rfl | hspared := hspared
    · exact absurd hq hno
    · exact absurd hw hspared

theorem insert_file {target : Path} (h : fs.find? target ≠ some .directory) (content : Bytes)
    (made : Path → Prop) : fs.ChangesOnly (fs.insert target (.file content)) made (· = target) := by
  intro q
  have hroot : target ≠ [] := by
    rintro rfl
    exact h rfl
  by_cases hq : q = target
  · subst hq
    exact .inr (.inr ⟨rfl, h, content, find?_insert_self fs hroot _⟩)
  · exact .inl (find?_insert_of_ne fs hq _)

theorem insert_directory {target : Path} (h : fs.find? target = none) (written : Path → Prop) :
    fs.ChangesOnly (fs.insert target .directory) (· = target) written := by
  intro q
  have hroot : target ≠ [] := by
    rintro rfl
    cases h
  by_cases hq : q = target
  · subst hq
    exact .inr (.inl ⟨rfl, h, find?_insert_self fs hroot _⟩)
  · exact .inl (find?_insert_of_ne fs hq _)

end ChangesOnly

end FileSystem

open FileSystem

namespace Wire.Step

variable {α β : Type} {made made' written written' : Path → Prop}

/-- However far a step gets, it makes directories and writes files at certain places only. -/
def ChangesOnly (x : Step FileSystem α) (made written : Path → Prop) : Prop :=
  ∀ fs : FileSystem, fs.ChangesOnly (x fs).2 made written

namespace ChangesOnly

theorem of_idle {x : Step FileSystem α} (h : ∀ fs, (x fs).2 = fs) : x.ChangesOnly made written := by
  intro fs
  rw [h]
  exact .refl fs made written

theorem mono {x : Step FileSystem α} (h : x.ChangesOnly made written) (hm : ∀ q, made q → made' q)
    (hw : ∀ q, written q → written' q) : x.ChangesOnly made' written' :=
  fun fs ↦ (h fs).mono hm hw

theorem bind {x : Step FileSystem β} {k : β → Step FileSystem α} (hx : x.ChangesOnly made written)
    (hk : ∀ b, (k b).ChangesOnly made written) : (x >>= k).ChangesOnly made written := by
  intro fs
  have hfs := hx fs
  rw [Step.bind_apply]
  rcases hr : x fs with ⟨f | b, fs'⟩
  · rw [hr] at hfs
    exact hfs
  · rw [hr] at hfs
    exact hfs.trans (hk b fs')

theorem forM {f : α → Step FileSystem Unit} {as : List α}
    (h : ∀ a ∈ as, (f a).ChangesOnly made written) : (as.forM f).ChangesOnly made written := by
  induction as with
  | nil => exact .of_idle fun _ ↦ rfl
  | cons a as ih =>
    obtain ⟨ha, has⟩ := List.forall_mem_cons.1 h
    exact ha.bind fun _ ↦ ih has

theorem foldlM {f : β → α → Step FileSystem β} {as : List α}
    (h : ∀ a ∈ as, ∀ b, (f b a).ChangesOnly made written) (b : β) :
    (as.foldlM f b).ChangesOnly made written := by
  induction as generalizing b with
  | nil => exact .of_idle fun _ ↦ rfl
  | cons a as ih =>
    obtain ⟨ha, has⟩ := List.forall_mem_cons.1 h
    rw [List.foldlM_cons]
    exact (ha b).bind fun b' ↦ ih has b'

end ChangesOnly

end Wire.Step

namespace Path

theorem place_filter_dots (p : Path) : Path.place (p.filter fun name ↦ name ≠ ".") = p.place := by
  have hstep (place : Path) (name : String) :
      (if decide (name ≠ ".") = true then step place name else place) = step place name := by
    by_cases hdot : name = "." <;> simp [step, hdot]
  rw [place, place, List.foldl_filter]
  simp only [hstep]

theorem exists_prefix_of_parent {p names : Path} (h : names <+: p.parent) :
    ∃ names', names' <+: p ∧ Path.place names' = Path.place names := by
  obtain ⟨rest, hrest⟩ := h.trans (List.dropLast_prefix _)
  obtain ⟨names', rest', rfl, rfl, -⟩ := List.filter_eq_append_iff.1 hrest.symm
  exact ⟨names', List.prefix_append _ _, (place_filter_dots names').symm⟩

end Path

namespace FileSystem

section WriteFile

variable {α : Type} {p : Path} {fill : Option Breakage → Except Failure α × Bytes}

theorem writeFile_changesOnly (p : Path) (fill : Option Breakage → Except Failure α × Bytes)
    (made : Path → Prop) : (writeFile p fill).ChangesOnly made (· = p.place) := by
  intro fs
  obtain ⟨f, h⟩ | ⟨b?, place, hl, hd, h⟩ := writeFile_cases p fs fill
  · rw [h]
    exact .refl fs _ _
  · obtain rfl := locate_ok hl
    rw [h]
    exact .insert_file hd (fill b?).2 made

theorem writeFile_spares (p : Path) (fill : Option Breakage → Except Failure α × Bytes)
    (fs : FileSystem) : fs.Spares (writeFile p fill fs).2 (· = p.place) :=
  (writeFile_changesOnly p fill (fun _ ↦ False) fs).spares

theorem writeFile_ok {a : α} (h : writeFile p fill fs = (.ok a, fs')) :
    ∃ b?, (fill b?).1 = .ok a ∧ fs'.readFile p = .ok (fill b?).2 := by
  have hspares := writeFile_spares p fill fs
  obtain ⟨f, hstop⟩ | ⟨b?, place, hl, hd, hgo⟩ := writeFile_cases p fs fill
  · cases h.symm.trans hstop
  · obtain ⟨hresult, rfl⟩ := Prod.mk.inj (h.symm.trans hgo)
    refine ⟨b?, hresult.symm, ?_⟩
    have hroot : place ≠ [] := by
      rintro rfl
      exact hd rfl
    rw [hgo] at hspares
    rw [readFile, look, hspares.locate hl]
    simp only [Functor.map, Except.map, find?_insert_self _ hroot]

end WriteFile

theorem makeDir_changesOnly (p : Path) (written : Path → Prop) :
    (makeDir p).ChangesOnly (· = p.place) written := by
  intro fs
  obtain ⟨f, h⟩ | ⟨place, hl, hn, h⟩ := makeDir_cases p fs
  · rw [h]
    exact .refl fs _ _
  · obtain rfl := locate_ok hl
    rw [h]
    exact .insert_directory hn written

theorem ensureDir_changesOnly (p : Path) (written : Path → Prop) :
    (ensureDir p).ChangesOnly (· = p.place) written := by
  intro fs
  have hfs := makeDir_changesOnly p written fs
  rw [ensureDir]
  rcases hm : makeDir p fs with ⟨f | u, fs'⟩
  · rw [hm] at hfs
    exact hfs
  · rw [hm] at hfs
    exact hfs

/-- Directories are made on the way to a path only. -/
theorem makeDirs_changesOnly (p : Path) (written : Path → Prop) :
    (makeDirs p).ChangesOnly (fun q ↦ ∃ names, names <+: p ∧ q = Path.place names) written := by
  rw [makeDirs]
  induction p.length generalizing p with
  | zero =>
    exact (ensureDir_changesOnly p written).mono (fun q hq ↦ ⟨p, List.prefix_rfl, hq⟩)
      fun _ hq ↦ hq
  | succ fuel ih =>
    have hself : (ensureDir p).ChangesOnly
        (fun q ↦ ∃ names, names <+: p ∧ q = Path.place names) written :=
      (ensureDir_changesOnly p written).mono (fun q hq ↦ ⟨p, List.prefix_rfl, hq⟩) fun _ hq ↦ hq
    have hparent : (makeDirsFrom fuel p.parent).ChangesOnly
        (fun q ↦ ∃ names, names <+: p ∧ q = Path.place names) written := by
      refine (ih p.parent).mono (fun q hq ↦ ?_) fun _ hq ↦ hq
      obtain ⟨names, hnames, rfl⟩ := hq
      obtain ⟨names', hnames', hplace⟩ := Path.exists_prefix_of_parent hnames
      exact ⟨names', hnames', hplace.symm⟩
    intro fs
    have hfs := hself fs
    rw [makeDirsFrom]
    dsimp only
    split
    · next fs' he =>
      rw [he] at hfs
      exact hfs.trans ((hparent.bind fun _ ↦ hself) fs')
    · exact hfs

theorem makeDirs_spares (p : Path) (fs : FileSystem) :
    fs.Spares (makeDirs p fs).2 fun _ ↦ False :=
  (makeDirs_changesOnly p (fun _ ↦ False) fs).spares

end FileSystem

namespace Package

variable (dir : Path)

theorem artifactPath_eq (name : String) : artifactPath dir name = dir ++ [name ++ ".kbc"] := by
  rw [artifactPath, artifactFile, String.append_assoc]
  rfl

theorem tablePath_eq (name : String) : tablePath dir .class_ name = dir ++ [name ++ ".kst"] := by
  rw [tablePath, tableFile, String.append_assoc]
  rfl

theorem sharedTablePath_eq : dir ++ [sharedTableFile] = tablePath dir .class_ "strings" := rfl

theorem place_concat {file : String} (h : 2 < file.length) :
    Path.place (dir ++ [file]) = dir.place ++ [file] := by
  have hdot : file ≠ "." := by
    rintro rfl
    exact absurd h (by decide)
  have hdots : file ≠ ".." := by
    rintro rfl
    exact absurd h (by decide)
  rw [Path.place, List.foldl_append, List.foldl_cons, List.foldl_nil, Path.step, if_neg hdot,
    if_neg hdots, Path.place]

/-- Files with endings of one length have one place only if both parts of their names are the
same. -/
theorem place_inj {a b x y : String} (hx : 2 < x.length) (hl : x.length = y.length)
    (h : Path.place (dir ++ [a ++ x]) = Path.place (dir ++ [b ++ y])) : a = b ∧ x = y := by
  have hlong (c z : String) (hz : 2 < z.length) : 2 < (c ++ z).length := by
    rw [String.length_append]
    omega
  rw [place_concat dir (hlong a x hx), place_concat dir (hlong b y (hl ▸ hx))] at h
  have hfiles := congrArg String.toList (List.singleton_inj.1 (List.append_cancel_left h))
  rw [String.toList_append, String.toList_append] at hfiles
  obtain ⟨ha, hx⟩ := List.append_inj' hfiles (by
    rw [String.length_toList, String.length_toList, hl])
  exact ⟨String.toList_inj.1 ha, String.toList_inj.1 hx⟩

theorem artifactPath_place_inj {a b : String}
    (h : (artifactPath dir a).place = (artifactPath dir b).place) : a = b := by
  rw [artifactPath_eq, artifactPath_eq] at h
  exact (place_inj dir (by decide) rfl h).1

theorem tablePath_place_inj {a b : String}
    (h : (tablePath dir .class_ a).place = (tablePath dir .class_ b).place) : a = b := by
  rw [tablePath_eq, tablePath_eq] at h
  exact (place_inj dir (by decide) rfl h).1

theorem artifactPath_place_ne (a b : String) :
    (artifactPath dir a).place ≠ (tablePath dir .class_ b).place := by
  intro h
  rw [artifactPath_eq, tablePath_eq] at h
  have hsame : ".kbc" = ".kst" := (place_inj dir (by decide) (by decide) h).2
  exact absurd hsame (by decide)

end Package

end TreeBytecode
