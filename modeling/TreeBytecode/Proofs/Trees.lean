import Mathlib.Data.List.Induction
import TreeBytecode.Proofs.Files

namespace TreeBytecode

open Wire

namespace Wire.Step

variable {σ α β : Type} {I : σ → Prop}

/-- However far a step gets, what held before holds after it. -/
def Keeps (I : σ → Prop) (x : Step σ α) : Prop := ∀ s, I s → I (x s).2

namespace Keeps

theorem of_idle {x : Step σ α} (h : ∀ s, (x s).2 = s) : x.Keeps I := by
  intro s hs
  rwa [h]

theorem bind {x : Step σ β} {k : β → Step σ α} (hx : x.Keeps I) (hk : ∀ b, (k b).Keeps I) :
    (x >>= k).Keeps I := by
  intro s hs
  have hafter := hx s hs
  rw [bind_apply]
  rcases hrun : x s with ⟨f | b, t⟩
  · rwa [hrun] at hafter
  · rw [hrun] at hafter
    exact hk b t hafter

theorem forM {f : α → Step σ Unit} (h : ∀ a, (f a).Keeps I) (as : List α) :
    (as.forM f).Keeps I := by
  induction as with
  | nil => exact .of_idle fun _ ↦ rfl
  | cons a as ih => exact (h a).bind fun _ ↦ ih

theorem foldlM {f : β → α → Step σ β} (h : ∀ b a, (f b a).Keeps I) (as : List α) (b : β) :
    (as.foldlM f b).Keeps I := by
  induction as generalizing b with
  | nil => exact .of_idle fun _ ↦ rfl
  | cons a as ih =>
    rw [List.foldlM_cons]
    exact (h b a).bind fun b' ↦ ih b'

end Keeps

end Wire.Step

namespace FileSystem

variable {fs : FileSystem} {p q place : Path}

structure IsTree (fs : FileSystem) : Prop where
  distinct : (fs.entries.map Prod.fst).Nodup
  /-- What lies at a path lies in a directory. -/
  parent {q : Path} {e : Entry} (h : fs.find? q = some e) : fs.find? q.dropLast = some .directory

theorem isTree_empty : IsTree .empty where
  distinct := List.nodup_nil
  parent {q} e h := by
    by_cases hq : q = []
    · subst hq
      rfl
    · rw [find?, if_neg hq] at h
      cases h

theorem lookup_eq_some_iff_mem {entries : List (Path × Entry)}
    (h : (entries.map Prod.fst).Nodup) {e : Entry} :
    entries.lookup q = some e ↔ (q, e) ∈ entries := by
  induction entries with
  | nil => simp
  | cons entry entries ih =>
    obtain ⟨r, d⟩ := entry
    obtain ⟨hr, hentries⟩ := List.nodup_cons.1 h
    by_cases hq : q = r
    · subst hq
      have hnot : (q, e) ∉ entries := fun hmem ↦ hr (List.mem_map.2 ⟨(q, e), hmem, rfl⟩)
      simp [hnot, eq_comm]
    · rw [List.lookup_cons, beq_false_of_ne hq, List.mem_cons, ← ih hentries]
      simp [hq]

/-- The way goes on from directories only. -/
theorem eq_directory_of_hindrance? {e : Option Entry} (h : hindrance? e = none) :
    e = some .directory := by
  cases e with
  | none => cases h
  | some e =>
    cases e with
    | file => cases h
    | directory => rfl

namespace IsTree

variable {e : Entry}

theorem find?_eq_some_iff (h : fs.IsTree) (hq : q ≠ []) :
    fs.find? q = some e ↔ (q, e) ∈ fs.entries := by
  rw [find?, if_neg hq, lookup_eq_some_iff_mem h.distinct]

theorem insert (h : fs.IsTree) (hp : fs.find? p.dropLast = some .directory)
    (hd : fs.find? p ≠ some .directory) (e : Entry) : (fs.insert p e).IsTree where
  distinct := by
    refine List.nodup_cons.2 ⟨fun hmem ↦ ?_, h.distinct.sublist (List.filter_sublist.map _)⟩
    obtain ⟨entry, hentry, hpath⟩ := List.mem_map.1 hmem
    have hne := (List.mem_filter.1 hentry).2
    exact of_decide_eq_true hne hpath
  parent {q} d hq := by
    have hparent (hdir : fs.find? q.dropLast = some .directory) :
        (fs.insert p e).find? q.dropLast = some .directory := by
      have hne : q.dropLast ≠ p := by
        rintro rfl
        exact hd hdir
      rw [find?_insert_of_ne fs hne, hdir]
    by_cases hqp : q = p
    · subst hqp
      exact hparent hp
    · rw [find?_insert_of_ne fs hqp] at hq
      exact hparent (h.parent hq)

theorem walk (h : fs.IsTree) {from_ names : Path}
    (hfrom : fs.find? from_.dropLast = some .directory) (hw : fs.walk from_ names = .ok place) :
    fs.find? place.dropLast = some .directory := by
  induction names generalizing from_ with
  | nil =>
    obtain rfl := Except.ok.inj hw
    exact hfrom
  | cons name names ih =>
    rw [FileSystem.walk] at hw
    split at hw
    · cases hw
    · next hhere =>
      split at hw
      · cases hw
      · refine ih ?_ hw
        rw [Path.step]
        split
        · exact hfrom
        · split
          · exact h.parent hfrom
          · rw [List.dropLast_concat]
            exact eq_directory_of_hindrance? hhere

theorem locate (h : fs.IsTree) (hp : fs.locate p = .ok place) :
    fs.find? place.dropLast = some .directory := by
  rw [FileSystem.locate] at hp
  split at hp
  · cases hp
  · exact h.walk rfl hp

end IsTree

theorem IsTree.advance (h : fs.IsTree) : fs.advance.IsTree := ⟨h.distinct, h.parent⟩

theorem writeFile_isTree {α : Type} (p : Path)
    (fill : Option Breakage → Except Failure α × Bytes) : (writeFile p fill).Keeps IsTree := by
  intro fs hfs
  obtain ⟨f, h⟩ | ⟨b?, place, hl, hd, h⟩ := writeFile_cases p fs fill
  · rw [h]
    exact hfs.advance
  · rw [h]
    exact hfs.advance.insert (hfs.locate hl) hd _

theorem makeDir_isTree (p : Path) : (makeDir p).Keeps IsTree := by
  intro fs hfs
  obtain ⟨f, h⟩ | ⟨place, hl, hn, h⟩ := makeDir_cases p fs
  · rw [h]
    exact hfs.advance
  · have hd : fs.find? place ≠ some .directory := by
      rw [hn]
      exact (Option.some_ne_none _).symm
    rw [h]
    exact hfs.advance.insert (hfs.locate hl) hd _

theorem ensureDir_isTree (p : Path) : (ensureDir p).Keeps IsTree := by
  intro fs hfs
  have hmade := makeDir_isTree p fs hfs
  rw [ensureDir]
  rcases hrun : makeDir p fs with ⟨f | u, fs'⟩ <;> rwa [hrun] at hmade

theorem makeDirs_isTree (p : Path) : (makeDirs p).Keeps IsTree := by
  rw [makeDirs]
  induction p.length generalizing p with
  | zero => exact ensureDir_isTree p
  | succ fuel ih =>
    intro fs hfs
    have hself := ensureDir_isTree p fs hfs
    rw [makeDirsFrom]
    dsimp only
    split
    · next fs' hrun =>
      rw [hrun] at hself
      exact (ih p.parent).bind (fun _ ↦ ensureDir_isTree p) fs' hself
    · exact hself

theorem child_eq_some_iff (entry : Path × Entry) (child : String × Entry) :
    (match entry with
      | (q, e) => if q.dropLast = place then q.getLast?.map (·, e) else none) = some child ↔
      entry = (place ++ [child.1], child.2) := by
  obtain ⟨q, e⟩ := entry
  obtain ⟨name, d⟩ := child
  simp only [Option.ite_none_right_eq_some, Option.map_eq_some_iff, Prod.mk.injEq]
  constructor
  · rintro ⟨rfl, _, hlast, rfl, rfl⟩
    obtain ⟨_, rfl⟩ := List.getLast?_eq_some_iff.1 hlast
    rw [List.dropLast_concat]
    exact ⟨rfl, rfl⟩
  · rintro ⟨rfl, rfl⟩
    exact ⟨List.dropLast_concat, name, List.getLast?_concat, rfl, rfl⟩

theorem IsTree.children (h : fs.IsTree) (hp : fs.locate p = .ok place)
    (hd : fs.find? place = some .directory) :
    ∃ cs, fs.children p = .ok cs ∧ (cs.map Prod.fst).Nodup ∧
      ∀ name e, (name, e) ∈ cs ↔ fs.find? (place ++ [name]) = some e := by
  refine ⟨fs.entries.filterMap fun (q, e) ↦
    if q.dropLast = place then q.getLast?.map (·, e) else none, ?_, ?_, fun name e ↦ ?_⟩
  · simp only [FileSystem.children, hp, hd, bind, Except.bind, hindrance?, pure, Except.pure]
  · rw [List.Nodup, List.pairwise_map]
    refine List.Pairwise.filterMap _ ?_ (List.pairwise_map.1 h.distinct)
    rintro entry entry' hne child hchild child' hchild' hsame
    rw [child_eq_some_iff] at hchild hchild'
    rw [hchild, hchild', hsame] at hne
    exact hne rfl
  · rw [List.mem_filterMap, h.find?_eq_some_iff (List.append_ne_nil_of_right_ne_nil _ (by simp))]
    constructor
    · rintro ⟨entry, hentry, hchild⟩
      rw [(child_eq_some_iff entry (name, e)).1 hchild] at hentry
      exact hentry
    · intro hentry
      exact ⟨(place ++ [name], e), hentry, (child_eq_some_iff _ (name, e)).2 rfl⟩

theorem isDirectory_iff :
    fs.isDirectory p = true ↔ fs.locate p = .ok p.place ∧ fs.find? p.place = some .directory := by
  rw [isDirectory, look]
  cases hp : fs.locate p with
  | error f => simp [Functor.map, Except.map]
  | ok place =>
    obtain rfl := locate_ok hp
    simp only [Functor.map, Except.map, true_and]
    rcases fs.find? p.place with _ | _ | _ <;> simp

theorem Spares.isDirectory {fs' : FileSystem} {touched : Path → Prop} (h : fs.Spares fs' touched)
    (hp : fs.isDirectory p = true) : fs'.isDirectory p = true := by
  obtain ⟨hlocate, hd⟩ := isDirectory_iff.1 hp
  exact isDirectory_iff.2 ⟨h.locate hlocate, h _ _ hd (.inl rfl)⟩

theorem writeFile_isDirectory {α : Type} (q p : Path)
    (fill : Option Breakage → Except Failure α × Bytes) :
    (writeFile p fill).Keeps fun fs ↦ fs.isDirectory q = true :=
  fun fs hq ↦ (writeFile_spares p fill fs).isDirectory hq

theorem directory_of_walk {from_ names rest : Path} (hw : fs.walk from_ (names ++ rest) = .ok place)
    (hd : fs.find? place = some .directory) :
    fs.find? (names.foldl Path.step from_) = some .directory := by
  induction names generalizing from_ with
  | nil =>
    cases rest with
    | nil =>
      obtain rfl := Except.ok.inj hw
      exact hd
    | cons name rest =>
      rw [List.nil_append, walk] at hw
      split at hw
      · cases hw
      · next hhere => exact eq_directory_of_hindrance? hhere
  | cons name names ih =>
    rw [List.cons_append, walk] at hw
    split at hw
    · cases hw
    · split at hw
      · cases hw
      · exact ih hw

theorem directory_of_prefix {front : Path} (h : fs.isDirectory p = true) (hfront : front <+: p) :
    fs.find? front.place = some .directory := by
  obtain ⟨hp, hd⟩ := isDirectory_iff.1 h
  obtain ⟨rest, rfl⟩ := hfront
  rw [FileSystem.locate] at hp
  split at hp
  · cases hp
  · exact directory_of_walk hp hd

theorem makeDir_ok {fs' : FileSystem} (h : makeDir p fs = (.ok (), fs')) :
    fs'.isDirectory p = true := by
  have hspares := (makeDir_changesOnly p (fun _ ↦ False) fs).spares
  obtain ⟨f, hstop⟩ | ⟨place, hl, hn, hgo⟩ := makeDir_cases p fs
  · cases h.symm.trans hstop
  · obtain rfl := locate_ok hl
    obtain ⟨-, rfl⟩ := Prod.mk.inj (h.symm.trans hgo)
    have hne : p.place ≠ [] := by
      intro hroot
      rw [hroot] at hn
      cases hn
    rw [hgo] at hspares
    exact isDirectory_iff.2 ⟨hspares.locate hl, find?_insert_self _ hne _⟩

theorem ensureDir_ok {fs' : FileSystem} (h : ensureDir p fs = (.ok (), fs')) :
    fs'.isDirectory p = true := by
  have hspares := (ensureDir_changesOnly p (fun _ ↦ False) fs).spares
  rw [h] at hspares
  rw [ensureDir] at h
  split at h
  · next f fs₁ hmade =>
    have hthere := congrArg Prod.fst h
    dsimp only at hthere
    split at hthere
    · next hd => exact hspares.isDirectory hd
    · cases hthere
  · exact makeDir_ok h

/-- After directories were made there is one at the end of the path. -/
theorem makeDirs_ok {fs' : FileSystem} (h : makeDirs p fs = (.ok (), fs')) :
    fs'.isDirectory p = true := by
  rw [makeDirs] at h
  cases hlength : p.length with
  | zero =>
    rw [hlength] at h
    exact ensureDir_ok h
  | succ fuel =>
    rw [hlength, makeDirsFrom] at h
    dsimp only at h
    split at h
    · obtain ⟨⟨⟩, fs₁, -, hself⟩ := Step.bind_eq_ok.1 h
      exact ensureDir_ok hself
    · exact ensureDir_ok h

theorem prefix_foldl_step {names : Path} (h : ".." ∉ names) (from_ : Path) :
    from_ <+: names.foldl Path.step from_ := by
  induction names generalizing from_ with
  | nil => exact List.prefix_rfl
  | cons name names ih =>
    obtain ⟨hname, hnames⟩ := List.ne_and_not_mem_of_not_mem_cons h
    refine List.IsPrefix.trans ?_ (ih hnames (from_.step name))
    rw [Path.step, if_neg hname.symm]
    split
    · exact List.prefix_rfl
    · exact List.prefix_append _ _

/-- Each place on the way gets longer. -/
theorem place_prefix_of_forward {front : Path} (h : ".." ∉ p) (hfront : front <+: p) :
    front.place <+: p.place := by
  obtain ⟨rest, rfl⟩ := hfront
  rw [Path.place, Path.place, List.foldl_append]
  exact prefix_foldl_step (fun hmem ↦ h (List.mem_append_right _ hmem)) _

namespace IsTree

theorem directory_above (h : fs.IsTree) (hd : fs.find? place = some .directory) (hq : q <+: place) :
    fs.find? q = some .directory := by
  obtain ⟨rest, rfl⟩ := hq
  induction rest using List.reverseRecOn with
  | nil => rwa [List.append_nil] at hd
  | append_singleton rest name ih =>
    have hparent := h.parent hd
    rw [← List.append_assoc, List.dropLast_concat] at hparent
    exact ih hparent

/-- A way through some file system leads to the directory at its end in this one as well. -/
theorem walk_of_forward (h : fs.IsTree) {from_ names : Path} {fs' : FileSystem}
    (hforward : ".." ∉ names) (hd : fs.find? (names.foldl Path.step from_) = some .directory)
    (hw : fs'.walk from_ names = .ok place) : fs.walk from_ names = .ok place := by
  induction names generalizing from_ with
  | nil => exact hw
  | cons name names ih =>
    have hhere := h.directory_above hd (prefix_foldl_step hforward from_)
    rw [FileSystem.walk] at hw ⊢
    rw [hhere]
    split at hw
    · cases hw
    · split at hw
      · cases hw
      · next hshort =>
        simp only [hindrance?, if_neg hshort]
        exact ih (List.not_mem_of_not_mem_cons hforward) hd hw

theorem isDirectory_of_forward (h : fs.IsTree) {fs' : FileSystem} (hforward : ".." ∉ p)
    (hd : fs.find? p.place = some .directory) (hp : fs'.isDirectory p = true) :
    fs.isDirectory p = true := by
  obtain ⟨hlocate, -⟩ := isDirectory_iff.1 hp
  refine isDirectory_iff.2 ⟨?_, hd⟩
  rw [FileSystem.locate] at hlocate ⊢
  split at hlocate
  · cases hlocate
  · exact h.walk_of_forward hforward hd hlocate

end IsTree

end FileSystem

end TreeBytecode
