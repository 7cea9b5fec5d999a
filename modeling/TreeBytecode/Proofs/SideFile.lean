import TreeBytecode.Proofs.Acceptance
import TreeBytecode.Proofs.Mirror
import TreeBytecode.StringTable.SideFile

namespace TreeBytecode.StringTable

open Wire Wire.Plan
open TreeBytecode.Wire.Field (allBytes? allBytes?_cons allBytes?_append allBytes?_singleton)

section Plans

variable {scope : Scope} {G : (e : Expectation) → Grammar e.Content}

theorem newlinePlan_mirrors : newlinePlan.Mirrors scope G (fun _ ↦ [.raw newline])
    (fun _ ↦ True) fun _ ↦ True := by
  have hcheck (bytes : Bytes) (u : Unit) :
      (if bytes = newline then Except.ok () else .error Defect.missingNewline) = .ok u ↔
        bytes = newline ∧ True := by
    rw [and_true]
    split
    · next h => exact iff_of_true rfl h
    · next h => exact iff_of_false (by simp) h
  exact ((bytes_mirrors newline.length).known_fits.checked (fun _ ↦ newline) hcheck).congr_fits
    fun _ ↦ iff_of_true ⟨⟨rfl, trivial⟩, trivial⟩ trivial

theorem textPlan_mirrors : textPlan.Mirrors scope G
    (fun s ↦ [.count (Text.utf8 s).length, .raw (Text.utf8 s)]) (fun _ ↦ True) fun _ ↦ True := by
  have hbytes : Plan.Mirrors scope G (Plan.length >>= Plan.bytes)
      (fun cs ↦ [.count cs.length] ++ [.raw cs]) (fun _ ↦ True) fun _ ↦ True ∧ True :=
    Mirrors.bind List.length length_mirrors fun n _ ↦
      (bytes_mirrors n).congr_known fun _ ↦ (and_iff_right trivial).symm
  refine (hbytes.checked (Q := fun _ ↦ True) Text.utf8 fun bytes s ↦ ?_).congr_fits fun _ ↦
    iff_of_true ⟨⟨trivial, trivial⟩, trivial⟩ trivial
  rw [and_true]
  constructor
  · intro h
    split at h
    · next s' hs =>
      obtain rfl := Except.ok.inj h
      exact (Text.utf8_of_ofUtf8? hs).symm
    · cases h
  · rintro rfl
    rw [Text.ofUtf8?_utf8]

theorem entryPlan_yields {t t' : StringTable} {bs : Bytes} :
    (entryPlan add t).Yields scope G bs t' ↔ ∃ s, s ∉ t ∧ t' = t.insert s ∧
      allBytes? scope.table (entryFields s) = some bs := by
  constructor
  · rintro ⟨s, ⟨_, bs₁, _, h₁, ⟨⟨⟩, bs₂, _, h₂, ⟨rfl, rfl⟩, rfl⟩, rfl⟩, hs⟩
    obtain ⟨-, hb₁, -⟩ := (textPlan_mirrors _ _).1 h₁
    obtain ⟨-, hb₂, -⟩ := (newlinePlan_mirrors _ _).1 h₂
    rw [add_eq] at hs
    split at hs
    · cases hs
    · next hnew =>
      refine ⟨s, hnew, (Except.ok.inj hs).symm, ?_⟩
      exact allBytes?_append.2 ⟨bs₁, bs₂, hb₁, hb₂, by rw [List.append_nil]⟩
  · rintro ⟨s, hnew, rfl, hb⟩
    have hparts : entryFields s =
        [.count (Text.utf8 s).length, .raw (Text.utf8 s)] ++ [.raw newline] := rfl
    rw [hparts] at hb
    obtain ⟨bs₁, bs₂, hb₁, hb₂, rfl⟩ := allBytes?_append.1 hb
    refine ⟨s, ⟨s, bs₁, bs₂, (textPlan_mirrors _ _).2 ⟨trivial, hb₁, trivial⟩, ?_, rfl⟩, ?_⟩
    · exact ⟨(), bs₂, [], (newlinePlan_mirrors _ _).2 ⟨trivial, hb₂, trivial⟩, ⟨rfl, rfl⟩,
        (List.append_nil _).symm⟩
    · rw [add_eq, if_neg hnew]

theorem not_mem_of_nodup {t : StringTable} {s : String} {ws : List String}
    (h : (t.words ++ s :: ws).Nodup) : s ∉ t :=
  fun hs ↦ (List.nodup_append.1 h).2.2 s hs s List.mem_cons_self rfl

/-- Entries are read into a table as long as their strings are new to it and to each other. -/
theorem entriesPlan_yields {n : Nat} {t t' : StringTable} {bs : Bytes} :
    (entriesPlan add n t).Yields scope G bs t' ↔ ∃ ws, ws.length = n ∧ t'.words = t.words ++ ws ∧
      allBytes? scope.table (ws.flatMap entryFields) = some bs := by
  induction n generalizing t bs with
  | zero =>
    constructor
    · rintro ⟨rfl, rfl⟩
      exact ⟨[], rfl, (List.append_nil _).symm, rfl⟩
    · rintro ⟨ws, hl, hw, hb⟩
      obtain rfl := List.eq_nil_of_length_eq_zero hl
      rw [List.append_nil] at hw
      exact ⟨(Option.some.inj hb).symm, StringTable.ext hw⟩
  | succ n ih =>
    constructor
    · rintro ⟨t₁, bs₁, bs₂, h₁, h₂, rfl⟩
      obtain ⟨s, hnew, rfl, hb₁⟩ := entryPlan_yields.1 h₁
      obtain ⟨ws, hl, hw, hb₂⟩ := ih.1 h₂
      rw [StringTable.words_insert_of_not_mem hnew, List.append_assoc] at hw
      exact ⟨s :: ws, congrArg (· + 1) hl, hw, allBytes?_append.2 ⟨bs₁, bs₂, hb₁, hb₂, rfl⟩⟩
    · rintro ⟨ws, hl, hw, hb⟩
      obtain ⟨s, ws, rfl⟩ := List.exists_cons_of_length_eq_add_one hl
      obtain ⟨bs₁, bs₂, hb₁, hb₂, rfl⟩ := allBytes?_append.1 hb
      have hnew : s ∉ t := not_mem_of_nodup (hw ▸ t'.distinct)
      refine ⟨t.insert s, bs₁, bs₂, entryPlan_yields.2 ⟨s, hnew, rfl, hb₁⟩, ?_, rfl⟩
      refine ih.2 ⟨ws, Nat.succ.inj hl, ?_, hb₂⟩
      rw [hw, StringTable.words_insert_of_not_mem hnew, List.append_assoc]
      rfl

/-- What is read for a table is what is written of it, and nothing else. -/
theorem plan_mirrors : plan.Mirrors scope G fields (fun _ ↦ True) fun _ ↦ True := by
  intro bs t
  rw [true_and, and_true]
  constructor
  · rintro ⟨n, bs₁, _, h₁, ⟨⟨⟩, bs₂, bs₃, h₂, h₃, rfl⟩, rfl⟩
    obtain ⟨-, hb₁, -⟩ := (length_mirrors _ _).1 h₁
    obtain ⟨-, hb₂, -⟩ := (newlinePlan_mirrors _ _).1 h₂
    obtain ⟨ws, rfl, hw, hb₃⟩ := entriesPlan_yields.1 h₃
    obtain rfl : t.words = ws := hw
    rw [fields, allBytes?_cons]
    refine ⟨bs₁, bs₂ ++ bs₃, allBytes?_singleton.symm.trans hb₁, ?_, rfl⟩
    exact allBytes?_cons.2 ⟨bs₂, bs₃, allBytes?_singleton.symm.trans hb₂, hb₃, rfl⟩
  · intro hb
    obtain ⟨bs₁, _, hb₁, hrest, rfl⟩ := allBytes?_cons.1 hb
    obtain ⟨bs₂, bs₃, hb₂, hb₃, rfl⟩ := allBytes?_cons.1 hrest
    rw [← allBytes?_singleton] at hb₁ hb₂
    refine ⟨t.words.length, bs₁, bs₂ ++ bs₃, (length_mirrors _ _).2 ⟨trivial, hb₁, trivial⟩, ?_,
      rfl⟩
    refine ⟨(), bs₂, bs₃, (newlinePlan_mirrors _ _).2 ⟨trivial, hb₂, trivial⟩, ?_, rfl⟩
    exact entriesPlan_yields.2 ⟨t.words, rfl, rfl, hb₃⟩

end Plans

theorem bytes?_of_lengths {ws : List String}
    (h : ∀ s ∈ ws, (Text.utf8 s).length ≤ Encoder.maxCount) :
    ∃ bs, ∀ t, allBytes? t (ws.flatMap entryFields) = some bs := by
  induction ws with
  | nil => exact ⟨[], fun _ ↦ rfl⟩
  | cons s ws ih =>
    obtain ⟨hs, hws⟩ := List.forall_mem_cons.1 h
    obtain ⟨bs, hbs⟩ := ih hws
    let entry := word 4 (Text.utf8 s).length ++ (Text.utf8 s ++ newline)
    have hentry (t : StringTable) : allBytes? t (entryFields s) = some entry := by
      simp [entryFields, allBytes?, Field.bytes?, hs, entry]
    exact ⟨entry ++ bs, fun t ↦ allBytes?_append.2 ⟨entry, bs, hentry t, hbs t, rfl⟩⟩

theorem write_of_bytes? {t : StringTable} {bs : Bytes} (h : allBytes? .empty t.fields = some bs) :
    t.write (.empty none) = (.ok bs.length, ⟨none, bs.toArray⟩) := by
  have hput := Encoder.putAll_of_bytes? t.fields (e := .start (.empty none) .empty) rfl h
  rw [write, hput]
  simp [Encoder.append, Encoder.start, Sink.empty]

theorem write_ok {t : StringTable} {count : Nat} {sink : Sink}
    (h : t.write (.empty none) = (.ok count, sink)) : t.size ≤ Encoder.maxCount ∧
      ∀ t', allBytes? t' t.fields = some sink.bytes := by
  obtain ⟨e, hput⟩ : ∃ e, Encoder.putAll t.fields (.start (.empty none) .empty) = (.ok (), e) := by
    rw [write] at h
    split at h
    · next e hput => exact ⟨e, hput⟩
    · cases h
  have hwritable : ∀ f ∈ t.fields, f.Writable := by
    rw [← Field.allWritable_iff]
    obtain ⟨_, _, _, _, haccepted⟩ | ⟨_, _, _, _, _, hstopped, _, _⟩ :=
      Encoder.putAll_writes t.fields (e := .start (.empty none) .empty) rfl
    · exact haccepted
    · rw [hput] at hstopped
      cases congrArg Prod.fst hstopped
  have hsize : t.words.length ≤ Encoder.maxCount := hwritable _ List.mem_cons_self
  have hlengths : ∀ s ∈ t.words, (Text.utf8 s).length ≤ Encoder.maxCount := fun s hs ↦
    hwritable (.count (Text.utf8 s).length)
      (.tail _ (.tail _ (List.mem_flatMap.2 ⟨s, hs, List.mem_cons_self⟩)))
  obtain ⟨entries, hentries⟩ := bytes?_of_lengths hlengths
  have hbytes (t' : StringTable) : allBytes? t' t.fields =
      some (word 4 t.words.length ++ (newline ++ entries)) := by
    simp [fields, allBytes?, Field.bytes?, hsize, hentries]
  have hwritten := write_of_bytes? (hbytes .empty)
  rw [h] at hwritten
  obtain rfl := (Prod.mk.inj hwritten).2
  exact ⟨hsize, hbytes⟩

theorem load_parses : load.Parses (plan.Yields Scope.empty fun _ _ _ ↦ False) :=
  Plan.runPlain_parses plan

/-- A table that was written is read, whatever follows. -/
theorem load_write {t : StringTable} {count : Nat} {sink : Sink}
    (h : t.write (.empty none) = (.ok count, sink)) (rest : Bytes) (ending : Ending) :
    load (.start (sink.bytes ++ rest) ending) =
      (.ok t, ⟨rest, ending, sink.bytes.length, []⟩) := by
  have hload := load_parses.complete ((plan_mirrors _ _).2 ⟨trivial, (write_ok h).2 _, trivial⟩)
    rest ending 0 []
  rwa [Nat.zero_add] at hload

/-- A table is read from an input exactly if the input begins with what is written of the table.
The rest is unread. -/
theorem load_eq_ok_iff (bytes : Bytes) (fault? : Option Fault) (t : StringTable) (c : Cursor) :
    load (.start bytes (.ofFault? fault?)) = (.ok t, c) ↔
      ∃ count sink rest, t.write (.empty none) = (.ok count, sink) ∧ bytes = sink.bytes ++ rest ∧
        c = ⟨rest, .ofFault? fault?, count, []⟩ := by
  constructor
  · intro h
    obtain ⟨used, rest, rfl, hused, rfl⟩ := load_parses.sound h
    obtain ⟨-, hbytes, -⟩ := (plan_mirrors _ _).1 hused
    refine ⟨used.length, _, rest, write_of_bytes? hbytes, rfl, ?_⟩
    rw [Nat.zero_add]
  · rintro ⟨count, sink, rest, hw, rfl, rfl⟩
    have hagain := write_of_bytes? ((write_ok hw).2 .empty)
    rw [hw] at hagain
    obtain rfl : count = sink.bytes.length := Except.ok.inj (Prod.mk.inj hagain).1
    exact load_write hw rest (.ofFault? fault?)

end TreeBytecode.StringTable
