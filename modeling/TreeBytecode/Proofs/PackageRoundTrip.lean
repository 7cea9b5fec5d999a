import Mathlib.Data.List.Forall2
import TreeBytecode.Package
import TreeBytecode.Proofs.Artifacts
import TreeBytecode.Proofs.Files
import TreeBytecode.Proofs.PackedReading
import TreeBytecode.Proofs.RoundTrip
import TreeBytecode.Proofs.SideFile
import TreeBytecode.Proofs.Unpacking

namespace TreeBytecode

open Wire Stream.Zstandard

namespace Wire.Step

variable {σ α β : Type} {s s' : σ}

/-- What holds of nothing and is preserved by each step holds of all that was gone through. -/
theorem forM_invariant {f : α → Step σ Unit} {I : List α → σ → Prop}
    (hstep : ∀ done a s s', I done s → f a s = (.ok (), s') → I (done ++ [a]) s') {as : List α}
    (h : as.forM f s = (.ok (), s')) (hI : I [] s) : I as s' := by
  suffices hall : ∀ (todo done : List α) (s : σ), I done s → todo.forM f s = (.ok (), s') →
      I (done ++ todo) s' from hall as [] s hI h
  intro todo
  induction todo with
  | nil =>
    intro done s hI h
    obtain rfl : s = s' := congrArg Prod.snd h
    rwa [List.append_nil]
  | cons a todo ih =>
    intro done s hI h
    obtain ⟨⟨⟩, s₁, h₁, h₂⟩ := bind_eq_ok.1 h
    rw [List.append_cons]
    exact ih (done ++ [a]) s₁ (hstep done a s s₁ hI h₁) h₂

theorem foldlM_invariant {f : β → α → Step σ β} {I : List α → β → σ → Prop}
    (hstep : ∀ done a b b' s s', I done b s → f b a s = (.ok b', s') → I (done ++ [a]) b' s')
    {as : List α} {b b' : β} (h : as.foldlM f b s = (.ok b', s')) (hI : I [] b s) : I as b' s' := by
  suffices hall : ∀ (todo done : List α) (b : β) (s : σ), I done b s →
      todo.foldlM f b s = (.ok b', s') → I (done ++ todo) b' s' from hall as [] b s hI h
  intro todo
  induction todo with
  | nil =>
    intro done b s hI h
    obtain ⟨hb, rfl⟩ := Prod.mk.inj h
    obtain rfl := Except.ok.inj hb
    rwa [List.append_nil]
  | cons a todo ih =>
    intro done b s hI h
    rw [List.foldlM_cons] at h
    obtain ⟨b₁, s₁, h₁, h₂⟩ := bind_eq_ok.1 h
    rw [List.append_cons]
    exact ih (done ++ [a]) b₁ s₁ (hstep done a b b₁ s s₁ hI h₁) h₂

end Wire.Step

theorem Registry.version_of_get {r : Registry} {v : FormatVersion} {a : Adapter}
    (h : r.get v = .ok a) : a.version = v := by
  rw [get] at h
  split at h
  · next b hb =>
    obtain rfl := Except.ok.inj h
    exact version_of_find? hb
  · cases h

def lastNamed? (cs : List Class) (name : String) : Option Class :=
  cs.reverse.find? fun c ↦ c.name = name

theorem lastNamed?_concat (cs : List Class) (c : Class) (name : String) :
    lastNamed? (cs ++ [c]) name = if c.name = name then some c else lastNamed? cs name := by
  rw [lastNamed?, List.reverse_concat, List.find?_cons]
  by_cases h : c.name = name <;> simp [h, lastNamed?]

theorem of_lastNamed? {cs : List Class} {name : String} {c : Class}
    (h : lastNamed? cs name = some c) : c ∈ cs ∧ c.name = name :=
  ⟨List.mem_reverse.1 (List.mem_of_find?_eq_some h), by simpa using List.find?_some h⟩

theorem exists_lastNamed? {cs : List Class} {c : Class} (h : c ∈ cs) :
    ∃ d, lastNamed? cs c.name = some d := by
  refine Option.isSome_iff_exists.1 (List.find?_isSome.2 ⟨c, List.mem_reverse.2 h, ?_⟩)
  exact decide_eq_true rfl

namespace Package

section Holding

variable (z : Stream.Codec) (fs : FileSystem) (comp : Compression)

def HoldsTable (p : Path) (t : StringTable) : Prop :=
  ∃ count sink, t.write (.empty none) = (.ok count, sink) ∧
    fs.readFile p = .ok (comp.pack z sink.bytes)

def HoldsClass (dir : Path) (r : Registry) (table : StringTable) (c : Class) : Prop :=
  ∃ a body, r.get a.version = .ok a ∧
    fs.readFile (artifactPath dir c.name) =
      .ok (comp.pack z ((Header.ofVersion a.version).bytes ++ body)) ∧
    ∀ t : StringTable, table.words <+: t.words → t.size ≤ UInt32.size →
      ((Node.classDef c).frame a.layout).bytes? t = some body

end Holding

variable {z : Stream.Codec} {fs fs' : FileSystem} {comp : Compression} {dir p : Path} {r : Registry}
  {t table table' : StringTable} {c : Class} {o : PackageOptions} {touched : Path → Prop}

theorem HoldsTable.of_spares (h : HoldsTable z fs comp p t) (hs : fs.Spares fs' touched)
    (hp : ¬ touched p.place) : HoldsTable z fs' comp p t := by
  obtain ⟨count, sink, hw, hr⟩ := h
  exact ⟨count, sink, hw, hs.readFile hp hr⟩

theorem HoldsTable.size_le (h : HoldsTable z fs comp p t) : t.size ≤ UInt32.size := by
  obtain ⟨count, sink, hw, -⟩ := h
  have hmax := (StringTable.write_ok hw).1
  have hlt : Encoder.maxCount ≤ UInt32.size := by decide
  omega

theorem HoldsTable.read (hz : z.ReadsBack) (h : HoldsTable z fs comp p t) :
    readTable z fs comp p = .ok t := by
  obtain ⟨count, sink, hw, hr⟩ := h
  have hload := StringTable.load_write hw [] .clean
  rw [List.append_nil] at hload
  have hresult : StringTable.load.result (comp.open_ z (comp.pack z sink.bytes) none) = .ok t := by
    rw [StringTable.load_seesThrough.result_eq (comp.open_packs hz sink.bytes), Step.result, hload]
  simp only [readTable, openFile, hr, bind, pure, Except.bind, Except.pure, hresult]

theorem HoldsClass.of_spares (h : HoldsClass z fs comp dir r table c) (hs : fs.Spares fs' touched)
    (hp : ¬ touched (artifactPath dir c.name).place) : HoldsClass z fs' comp dir r table c := by
  obtain ⟨a, body, ha, hr, hb⟩ := h
  exact ⟨a, body, ha, hs.readFile hp hr, hb⟩

theorem HoldsClass.mono (h : HoldsClass z fs comp dir r table c)
    (ht : table.words <+: table'.words) : HoldsClass z fs comp dir r table' c := by
  obtain ⟨a, body, ha, hr, hb⟩ := h
  exact ⟨a, body, ha, hr, fun t hle ↦ hb t (ht.trans hle)⟩

theorem HoldsClass.read (hz : z.ReadsBack) (h : HoldsClass z fs o.compression dir r t c)
    (hsize : t.size ≤ UInt32.size) {types : TypeResolver}
    (htypes : ∀ ref ∈ (Node.classDef c).typeRefs, types ref.name = some ref.handle)
    (hdepth : (Node.classDef c).depth ≤ o.maxDepth) :
    readClass z fs dir r types o t c.name = .ok c.persisted := by
  obtain ⟨a, body, ha, hr, hb⟩ := h
  let content := (Header.ofVersion a.version).bytes ++ body
  have hframe : ((Node.classDef c).frame a.layout).bytes? (Scope.mk t types).table = some body :=
    hb t List.prefix_rfl hsize
  have hload := a.load_of_bytes? (e := .only .classDef) hframe htypes hdepth rfl [] .clean
  rw [List.append_nil] at hload
  have hresult : (Artifact.read r ⟨t, types⟩ o.maxDepth (.only .classDef)).result
      (o.compression.open_ z (o.compression.pack z content) none) = .ok c.persisted := by
    rw [(Artifact.read_seesThrough r ⟨t, types⟩ o.maxDepth _).result_eq
      (o.compression.open_packs hz content), Step.result]
    simp only [Artifact.read, content, Header.read_ofVersion]
    rw [show (Header.ofVersion a.version).version = a.version from rfl, ha]
    exact congrArg Prod.fst hload
  simp only [readClass, openFile, hr, bind, pure, Except.bind, Except.pure, content] at hresult ⊢
  exact hresult

theorem outcome_ok {α : Type} {encode : Sink → Except Failure α × Bytes} {b? : Option Breakage}
    {a : α} (h : (outcome z comp encode b?).1 = .ok a) : (encode (.empty none)).1 = .ok a ∧
      (outcome z comp encode b?).2 = comp.pack z (encode (.empty none)).2 := by
  cases b? with
  | none =>
    rw [outcome] at h ⊢
    rcases hrun : encode (.empty none) with ⟨f | a', written⟩
    · rw [hrun] at h
      cases h
    · rw [hrun] at h
      exact ⟨h, rfl⟩
  | some b =>
    rw [outcome] at h
    split at h <;> cases h

theorem writeWith_ok {α : Type} {encode : Sink → Except Failure α × Bytes} {a : α}
    (h : writeWith z comp p encode fs = (.ok a, fs')) : (encode (.empty none)).1 = .ok a ∧
      fs'.readFile p = .ok (comp.pack z (encode (.empty none)).2) ∧
      fs.Spares fs' (· = p.place) := by
  obtain ⟨b?, hresult, hread⟩ := FileSystem.writeFile_ok h
  obtain ⟨hencode, hleft⟩ := outcome_ok hresult
  have hspares := FileSystem.writeFile_spares p (outcome z comp encode) fs
  rw [show FileSystem.writeFile p (outcome z comp encode) fs = _ from h] at hspares
  exact ⟨hencode, hleft ▸ hread, hspares⟩

theorem writeTable_ok (h : writeTable z comp p t fs = (.ok (), fs')) :
    HoldsTable z fs' comp p t ∧ fs.Spares fs' (· = p.place) := by
  obtain ⟨hresult, hread, hspares⟩ := writeWith_ok h
  rcases hw : t.write (.empty none) with ⟨f | count, sink⟩
  · simp only [hw] at hresult
    cases hresult
  · simp only [hw] at hread
    exact ⟨⟨count, sink, hw, hread⟩, hspares⟩

theorem writeClass_written {a : Adapter}
    (h : writeClass z a o dir table c fs = (.ok table', fs')) : ∃ count e,
      Artifact.write a (.classDef c) table (.empty none) = (.ok count, e) ∧ table' = e.table ∧
      fs'.readFile (artifactPath dir c.name) = .ok (o.compression.pack z e.sink.bytes) ∧
      fs.Spares fs' (· = (artifactPath dir c.name).place) := by
  obtain ⟨hresult, hread, hspares⟩ := writeWith_ok h
  rcases hw : Artifact.write a (.classDef c) table (.empty none) with ⟨f | count, e⟩
  · simp only [hw] at hresult
    cases hresult
  · simp only [hw] at hresult hread
    exact ⟨count, e, rfl, (Except.ok.inj hresult).symm, hread, hspares⟩

theorem writeClass_ok {a : Adapter} (ha : r.get a.version = .ok a)
    (h : writeClass z a o dir table c fs = (.ok table', fs')) : table.words <+: table'.words ∧
      HoldsClass z fs' o.compression dir r table' c ∧
      fs.Spares fs' (· = (artifactPath dir c.name).place) := by
  obtain ⟨count, e, hw, rfl, hread, hspares⟩ := writeClass_written h
  obtain ⟨sink, size, hw, -, hheader⟩ := Artifact.write_ok hw
  obtain ⟨body, hbytes, -, hgrown, hb⟩ := Adapter.write_ok hw
  refine ⟨hgrown, ⟨a, body, ha, ?_, hb⟩, hspares⟩
  rw [hread, hbytes, hheader]
  rfl

/-- A statement holds of the last class of each name. -/
def Latest (P : FileSystem → Class → Prop) (cs : List Class) (fs : FileSystem) : Prop :=
  ∀ name c, lastNamed? cs name = some c → P fs c

theorem Latest.nil (P : FileSystem → Class → Prop) (fs : FileSystem) : Latest P [] fs := by
  intro name c h
  cases h

theorem Latest.concat {P P' : FileSystem → Class → Prop} {cs : List Class} (h : Latest P cs fs)
    (hc : P' fs' c) (hkept : ∀ d, d.name ≠ c.name → P fs d → P' fs' d) :
    Latest P' (cs ++ [c]) fs' := by
  intro name d hd
  rw [lastNamed?_concat] at hd
  split at hd
  · obtain rfl := Option.some.inj hd
    exact hc
  · next hne =>
    refine hkept d ?_ (h name d hd)
    rw [(of_lastNamed? hd).2]
    exact Ne.symm hne

theorem Latest.imp {P P' : FileSystem → Class → Prop} {cs : List Class} (h : Latest P cs fs)
    (hi : ∀ c, P fs c → P' fs' c) : Latest P' cs fs' :=
  fun name c hc ↦ hi c (h name c hc)

def HoldsBoth (z : Stream.Codec) (dir : Path) (comp : Compression) (r : Registry)
    (fs : FileSystem) (c : Class) : Prop :=
  ∃ table, HoldsClass z fs comp dir r table c ∧
    HoldsTable z fs comp (tablePath dir .class_ c.name) table

theorem HoldsBoth.of_spares (h : HoldsBoth z dir comp r fs c) (hs : fs.Spares fs' touched)
    (ha : ¬ touched (artifactPath dir c.name).place)
    (ht : ¬ touched (tablePath dir .class_ c.name).place) : HoldsBoth z dir comp r fs' c := by
  obtain ⟨table, hclass, htable⟩ := h
  exact ⟨table, hclass.of_spares hs ha, htable.of_spares hs ht⟩

/-- Names are checked before anything is touched. -/
theorem checkNames_ok {cs : List Class}
    (h : (cs.forM fun c ↦ Step.ofExcept (checkName c.name)) fs = (.ok (), fs')) :
    fs = fs' ∧ ∀ c ∈ cs, checkName c.name = .ok () := by
  refine Step.forM_invariant
    (I := fun done fs' ↦ fs = fs' ∧ ∀ c ∈ done, checkName c.name = .ok ()) ?_ h ⟨rfl, by simp⟩
  rintro done c fs₁ fs₂ ⟨rfl, hdone⟩ hc
  obtain ⟨hcheck, rfl⟩ := Prod.mk.inj hc
  exact ⟨rfl, List.forall_mem_append.2 ⟨hdone, List.forall_mem_singleton.2 hcheck⟩⟩

/-- What is done once the names are found usable and the version supported. -/
theorem write_ok {cs : List Class} (h : write z dir cs r o fs = (.ok (), fs')) :
    (∀ c ∈ cs, checkName c.name = .ok ()) ∧ ∃ a fs₁, r.get a.version = .ok a ∧
      fs.Spares fs₁ (fun _ ↦ False) ∧
      (match o.scope with
        | .package => writeShared z a o dir cs
        | .class_ => writeSeparate z a o dir cs) fs₁ = (.ok (), fs') := by
  obtain ⟨⟨⟩, fs₁, hnames, hrest⟩ := Step.bind_eq_ok.1 h
  obtain ⟨rfl, hchecked⟩ := checkNames_ok hnames
  obtain ⟨a, fs₁, hget, hrest⟩ := Step.bind_eq_ok.1 hrest
  obtain ⟨ha, rfl⟩ := Prod.mk.inj hget
  obtain ⟨⟨⟩, fs₁, hdirs, hfiles⟩ := Step.bind_eq_ok.1 hrest
  have hspares := FileSystem.makeDirs_spares dir fs
  rw [hdirs] at hspares
  refine ⟨hchecked, a, fs₁, ?_, hspares, hfiles⟩
  rwa [Registry.version_of_get ha]

theorem writeSeparate_ok {a : Adapter} {cs prior : List Class} (ha : r.get a.version = .ok a)
    (h : writeSeparate z a o dir cs fs = (.ok (), fs'))
    (hprior : Latest (HoldsBoth z dir o.compression r) prior fs) :
    Latest (HoldsBoth z dir o.compression r) (prior ++ cs) fs' := by
  refine Step.forM_invariant
    (I := fun done ↦ Latest (HoldsBoth z dir o.compression r) (prior ++ done)) ?_ h
    (by rwa [List.append_nil])
  intro done c fs₁ fs₃ hdone hc
  obtain ⟨table, fs₂, hwritten, htable⟩ := Step.bind_eq_ok.1 hc
  obtain ⟨-, hclass, hspares⟩ := writeClass_ok ha hwritten
  obtain ⟨htable, hspares'⟩ := writeTable_ok htable
  rw [← List.append_assoc]
  refine hdone.concat ⟨table, hclass.of_spares hspares' (artifactPath_place_ne dir _ _), htable⟩ ?_
  intro d hne hd
  have hd₂ := hd.of_spares hspares (mt (artifactPath_place_inj dir) hne)
    (artifactPath_place_ne dir _ _).symm
  exact hd₂.of_spares hspares' (artifactPath_place_ne dir _ _) (mt (tablePath_place_inj dir) hne)

/-- Classes that are written with one table for all of them can be read with the table of the
end. -/
theorem writeShared_ok {a : Adapter} {cs : List Class} (ha : r.get a.version = .ok a)
    (h : writeShared z a o dir cs fs = (.ok (), fs')) : ∃ table,
      HoldsTable z fs' o.compression (dir ++ [sharedTableFile]) table ∧
      Latest (fun fs ↦ HoldsClass z fs o.compression dir r table) cs fs' := by
  obtain ⟨table, fs₁, hclasses, htable⟩ := Step.bind_eq_ok.1 h
  obtain ⟨htable, hspares⟩ := writeTable_ok htable
  -- The table grows with each class, and what was written with less of it is read with all of it.
  have hall : Latest (fun fs ↦ HoldsClass z fs o.compression dir r table) cs fs₁ := by
    refine Step.foldlM_invariant
      (I := fun done t ↦ Latest (fun fs ↦ HoldsClass z fs o.compression dir r t) done) ?_ hclasses
      (Latest.nil _ fs)
    intro done c t t' fs₁ fs₂ hdone hc
    obtain ⟨hgrown, hclass, hspares⟩ := writeClass_ok ha hc
    refine hdone.concat hclass fun d hne hd ↦ ?_
    exact (hd.mono hgrown).of_spares hspares (mt (artifactPath_place_inj dir) hne)
  refine ⟨table, htable, hall.imp fun c hc ↦ hc.of_spares hspares ?_⟩
  rw [sharedTablePath_eq]
  exact artifactPath_place_ne dir _ _

/-- The classes that can be read after some calls of the writer. A table for all classes has the
strings of the last call only. -/
def readable (scope : StringScope) (calls : List (List Class × PackageOptions)) : List Class :=
  match scope with
  | .package => (calls.getLast?.map Prod.fst).getD []
  | .class_ => calls.flatMap Prod.fst

def writeAll (z : Stream.Codec) (dir : Path) (r : Registry)
    (calls : List (List Class × PackageOptions)) : Step FileSystem Unit :=
  calls.forM fun call ↦ write z dir call.1 r call.2

variable {calls : List (List Class × PackageOptions)}

theorem writeAll_checked (h : writeAll z dir r calls fs = (.ok (), fs')) :
    ∀ call ∈ calls, ∀ c ∈ call.1, checkName c.name = .ok () := by
  refine Step.forM_invariant
    (I := fun done _ ↦ ∀ call ∈ done, ∀ c ∈ call.1, checkName c.name = .ok ()) ?_ h (by simp)
  intro done call fs₁ fs₂ hdone hcall
  exact List.forall_mem_append.2 ⟨hdone, List.forall_mem_singleton.2 (write_ok hcall).1⟩

theorem writeAll_class (hsame : ∀ call ∈ calls, call.2.scope = .class_ ∧ call.2.compression = comp)
    (h : writeAll z dir r calls fs = (.ok (), fs')) :
    Latest (HoldsBoth z dir comp r) (readable .class_ calls) fs' := by
  refine Step.forM_invariant
    (I := fun done fs' ↦ (∀ call ∈ done, call.2.scope = .class_ ∧ call.2.compression = comp) →
      Latest (HoldsBoth z dir comp r) (readable .class_ done) fs') ?_ h (fun _ ↦ .nil _ fs) hsame
  rintro done ⟨cs, o⟩ fs₁ fs₃ hdone hcall hsame
  obtain ⟨hsame, hlast⟩ := List.forall_mem_append.1 hsame
  obtain ⟨hscope, rfl⟩ := List.forall_mem_singleton.1 hlast
  obtain ⟨-, a, fs₂, ha, hspares, hfiles⟩ := write_ok hcall
  rw [hscope] at hfiles
  have hkept : Latest (HoldsBoth z dir o.compression r) (readable .class_ done) fs₂ :=
    (hdone hsame).imp fun c hc ↦ hc.of_spares hspares id id
  rw [readable, List.flatMap_append, List.flatMap_singleton]
  exact writeSeparate_ok ha hfiles hkept

theorem writeAll_package
    (hsame : ∀ call ∈ calls, call.2.scope = .package ∧ call.2.compression = comp)
    (h : writeAll z dir r calls fs = (.ok (), fs')) (hne : calls ≠ []) : ∃ table,
      HoldsTable z fs' comp (dir ++ [sharedTableFile]) table ∧
      Latest (fun fs ↦ HoldsClass z fs comp dir r table) (readable .package calls) fs' := by
  refine Step.forM_invariant
    (I := fun done fs' ↦ (∀ call ∈ done, call.2.scope = .package ∧ call.2.compression = comp) →
      done ≠ [] → ∃ table, HoldsTable z fs' comp (dir ++ [sharedTableFile]) table ∧
        Latest (fun fs ↦ HoldsClass z fs comp dir r table) (readable .package done) fs') ?_ h
    (fun _ hne ↦ absurd rfl hne) hsame hne
  -- The shared table is written anew, so that nothing is left of the calls before.
  rintro done ⟨cs, o⟩ fs₁ fs₃ - hcall hsame -
  obtain ⟨-, hlast⟩ := List.forall_mem_append.1 hsame
  obtain ⟨hscope, rfl⟩ := List.forall_mem_singleton.1 hlast
  obtain ⟨-, a, fs₂, ha, -, hfiles⟩ := write_ok hcall
  rw [hscope] at hfiles
  rw [readable, List.getLast?_concat]
  exact writeShared_ok ha hfiles

theorem exists_call_of_mem_readable {scope : StringScope} (h : c ∈ readable scope calls) :
    ∃ call ∈ calls, c ∈ call.1 := by
  cases scope with
  | class_ => exact List.mem_flatMap.1 h
  | package =>
    rw [readable] at h
    cases hl : calls.getLast? with
    | none =>
      rw [hl] at h
      cases h
    | some call =>
      rw [hl] at h
      exact ⟨call, List.mem_of_getLast? hl, h⟩

theorem exists_last_of_readable (h : writeAll z dir r calls fs = (.ok (), fs'))
    {scope : StringScope} {name : String} (hname : ∃ c ∈ readable scope calls, c.name = name) :
    ∃ c, lastNamed? (readable scope calls) name = some c ∧ c ∈ readable scope calls ∧
      c.name = name ∧ checkName name = .ok () := by
  obtain ⟨d, hd, rfl⟩ := hname
  obtain ⟨c, hc⟩ := exists_lastNamed? hd
  obtain ⟨call, hcall, hmem⟩ := exists_call_of_mem_readable hd
  obtain ⟨hreadable, hsame⟩ := of_lastNamed? hc
  exact ⟨c, hc, hreadable, hsame, writeAll_checked h call hcall d hmem⟩

theorem mapM_of_forall {α β : Type} {f : α → Except Failure β} {R : α → β → Prop} {as : List α}
    (h : ∀ a ∈ as, ∃ b, f a = .ok b ∧ R a b) :
    ∃ bs, as.mapM f = .ok bs ∧ List.Forall₂ R as bs := by
  induction as with
  | nil => exact ⟨[], rfl, .nil⟩
  | cons a as ih =>
    obtain ⟨⟨b, hb, hR⟩, htail⟩ := List.forall_mem_cons.1 h
    obtain ⟨bs, hbs, hRs⟩ := ih htail
    refine ⟨b :: bs, ?_, .cons hR hRs⟩
    rw [List.mapM_cons, hb]
    simp only [bind, Except.bind, hbs, pure, Except.pure]

/-- What is read under a name is the last class that was written under it, whatever calls wrote
into the directory and in whatever order names are asked for. -/
theorem load_of_writes (hz : z.ReadsBack) (types : TypeResolver) (names : List String)
    (hsame : ∀ call ∈ calls, call.2.scope = o.scope ∧ call.2.compression = o.compression)
    (hcalls : o.scope = .package → calls ≠ [])
    (hw : writeAll z dir r calls fs = (.ok (), fs'))
    (htypes : ∀ c ∈ readable o.scope calls, ∀ ref ∈ (Node.classDef c).typeRefs,
      types ref.name = some ref.handle)
    (hdepth : ∀ c ∈ readable o.scope calls, (Node.classDef c).depth ≤ o.maxDepth)
    (hnames : ∀ name ∈ names, ∃ c ∈ readable o.scope calls, c.name = name) :
    ∃ loaded, load z fs' dir names r types o = .ok loaded ∧
      List.Forall₂ (fun name d ↦ ∃ c, lastNamed? (readable o.scope calls) name = some c ∧
        d = c.persisted ∧ (d == c) = true) names loaded := by
  rw [load]
  cases hscope : o.scope with
  | package =>
    rw [hscope] at hsame hnames htypes hdepth
    obtain ⟨table, htable, hclasses⟩ := writeAll_package hsame hw (hcalls hscope)
    rw [htable.read hz]
    refine mapM_of_forall fun name hname ↦ ?_
    obtain ⟨c, hc, hmem, rfl, hcheck⟩ := exists_last_of_readable hw (hnames name hname)
    have hread := (hclasses c.name c hc).read hz htable.size_le (htypes c hmem) (hdepth c hmem)
    refine ⟨c.persisted, ?_, c, hc, rfl, (Node.classDef c).persisted_beq⟩
    simp only [hcheck, hread, bind, Except.bind]
  | class_ =>
    rw [hscope] at hsame hnames htypes hdepth
    refine mapM_of_forall fun name hname ↦ ?_
    obtain ⟨c, hc, hmem, rfl, hcheck⟩ := exists_last_of_readable hw (hnames name hname)
    obtain ⟨table, hclass, htable⟩ := writeAll_class hsame hw c.name c hc
    have hread := hclass.read hz htable.size_le (htypes c hmem) (hdepth c hmem)
    refine ⟨c.persisted, ?_, c, hc, rfl, (Node.classDef c).persisted_beq⟩
    simp only [hcheck, htable.read hz, hread, bind, Except.bind]

theorem load_of_writes_replaced : ∃ fs : FileSystem,
    let a : Class := .shell .unknown .none "A"
    let b : Class := .shell .unknown .none "B"
    let a' : Class := .shell .interface .none "A"
    let o (v : FormatVersion) : PackageOptions := ⟨v, .zstd 3, .class_, 1⟩
    writeAll storing ["lib"] .builtin [([a, b], o .v0_10), ([a'], o .v0_11)] .empty = (.ok (), fs) ∧
      load storing fs ["lib"] ["B", "A", "B"] .builtin (fun _ ↦ none) (o .v0_11) =
        .ok [b.persisted, a'.persisted, b.persisted] := by
  let a : Class := .shell .unknown .none "A"
  let b : Class := .shell .unknown .none "B"
  let a' : Class := .shell .interface .none "A"
  let o (v : FormatVersion) : PackageOptions := ⟨v, .zstd 3, .class_, 1⟩
  let calls := [([a, b], o .v0_10), ([a'], o .v0_11)]
  have hok : (writeAll storing ["lib"] .builtin calls .empty).1.isOk = true := by decide +kernel
  rcases hw : writeAll storing ["lib"] .builtin calls .empty with ⟨result, fs⟩
  rw [hw] at hok
  cases result with
  | error => cases hok
  | ok =>
    have hreadable : readable .class_ calls = [a, b, a'] := rfl
    have hleaf (c : Class) (hc : c ∈ [a, b, a']) :
        (Node.classDef c).typeRefs = [] ∧ (Node.classDef c).depth ≤ 1 := by
      rw [Node.typeRefs, Node.frames_eq, Node.depth_eq]
      simp only [List.mem_cons, List.not_mem_nil, or_false] at hc
      rcases hc with rfl | rfl | rfl <;> decide
    obtain ⟨loaded, hload, hall⟩ := load_of_writes (o := o .v0_11) storing_readsBack (fun _ ↦ none)
      ["B", "A", "B"] (by decide) (by simp [o]) hw
      (fun c hc ref href ↦ absurd href (by simp [(hleaf c hc).1])) (fun c hc ↦ (hleaf c hc).2)
      (by simp [o, hreadable, a, b, a', Class.shell])
    have hA : lastNamed? [a, b, a'] "A" = some a' := rfl
    have hB : lastNamed? [a, b, a'] "B" = some b := rfl
    simp only [o, hreadable, List.forall₂_cons_left_iff, List.forall₂_nil_left_iff, hA, hB,
      Option.some.injEq] at hall
    obtain ⟨_, _, ⟨_, rfl, rfl, -⟩, hall, rfl⟩ := hall
    obtain ⟨_, _, ⟨_, rfl, rfl, -⟩, hall, rfl⟩ := hall
    obtain ⟨_, _, ⟨_, rfl, rfl, -⟩, rfl, rfl⟩ := hall
    exact ⟨fs, hw, hload⟩

end Package

end TreeBytecode
