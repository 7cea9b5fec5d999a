import TreeBytecode.Proofs.FailurePlace
import TreeBytecode.Proofs.SideFile
import TreeBytecode.Proofs.Truncation

namespace TreeBytecode

namespace Wire

variable {α β : Type}

/-- What a reader that is short of bytes reports at a fault, if it reports `f` at an end. The two
are one for an unexpected end, where the reader is lenient. -/
def Failure.Becomes (f : Failure) (lenient : Prop) (fault : Fault) (g : Failure) : Prop :=
  g = f ∧ fault = .unexpectedEnd ∧ lenient ∨
    g = .device fault ∧ ¬ (fault = .unexpectedEnd ∧ lenient)

/-- At an end the step finds no fault with a device. If it is short of bytes, it reports the fault
with which they end, if there is one, but an unexpected end is an end on lenient inputs. -/
def Step.Ends (lenient : Bytes → Prop) (x : Step Cursor α) : Prop :=
  ∀ bytes offset frames f c, x ⟨bytes, .clean, offset, frames⟩ = (.error f, c) →
    (∀ fault, f ≠ .device fault) ∧ (Truncated (.error f : Except Failure α) →
      ∀ fault, ∃ g d, x ⟨bytes, .faulty fault, offset, frames⟩ = (.error g, d) ∧
        f.Becomes (lenient bytes) fault g)

namespace Step.Ends

variable {P R : Bytes → Prop}

theorem pure (a : α) : (Pure.pure a : Step Cursor α).Ends P := by
  intro bytes offset frames f c h
  cases h

/-- If the first step has its bytes, the next one decides whether both are lenient. -/
theorem bind {G : Grammar β} {Q : β → Bytes → Prop} {x : Step Cursor β} {k : β → Step Cursor α}
    (hx : x.Ends P) (hp : x.Parses G) (hk : ∀ b, (k b).Ends (Q b))
    (hfirst : ∀ bytes, (∀ used rest b, G used b → bytes ≠ used ++ rest) → (R bytes ↔ P bytes))
    (hnext : ∀ used rest b, G used b → (R (used ++ rest) ↔ Q b rest)) : (x >>= k).Ends R := by
  intro bytes offset frames f c h
  rcases h₁ : x ⟨bytes, .clean, offset, frames⟩ with ⟨f₁ | b, d⟩
  · rw [Step.bind_of_error h₁] at h
    obtain ⟨⟨⟩, rfl⟩ := Prod.mk.inj h
    have hnone : ∀ used rest b, G used b → bytes ≠ used ++ rest := by
      rintro used rest b hb rfl
      rw [hp.complete hb] at h₁
      cases h₁
    obtain ⟨hdevice, hshort⟩ := hx _ _ _ _ _ h₁
    refine ⟨hdevice, fun htruncated fault ↦ ?_⟩
    obtain ⟨g, d', hd', hg⟩ := hshort (truncated_error.1 htruncated) fault
    rw [hfirst bytes hnone]
    exact ⟨g, d', Step.bind_of_error hd', hg⟩
  · obtain ⟨used, rest, rfl, hb, rfl⟩ := hp.sound_clean h₁
    rw [Step.bind_of_ok h₁] at h
    obtain ⟨hdevice, hshort⟩ := hk b _ _ _ _ _ h
    refine ⟨hdevice, fun htruncated fault ↦ ?_⟩
    rw [Step.bind_of_ok (hp.complete hb ..), hnext used rest b hb]
    exact hshort htruncated fault

theorem bind_first {G : Grammar β} {x : Step Cursor β} {k : β → Step Cursor α} (hx : x.Ends P)
    (hp : x.Parses G) (hk : ∀ b, (k b).Ends fun _ ↦ False)
    (hP : ∀ used rest b, G used b → ¬ P (used ++ rest)) : (x >>= k).Ends P :=
  hx.bind hp hk (fun _ _ ↦ Iff.rfl) fun used rest b hb ↦ iff_of_false (hP used rest b hb) id

theorem judged {x : Step Cursor β} {judge : β → Location → Except Failure α} (hx : x.Ends P)
    (hj : Blames judge) : (x.judged judge).Ends P := by
  intro bytes offset frames f c h
  simp only [Step.judged] at h
  split at h
  · next b d h₁ =>
    obtain ⟨hplace, htruncated⟩ := hj b _ f (Prod.mk.inj h).1
    refine ⟨?_, fun h ↦ absurd h htruncated⟩
    rintro fault rfl
    cases hplace
  · next f₁ d h₁ =>
    obtain ⟨⟨⟩, rfl⟩ := Prod.mk.inj h
    obtain ⟨hdevice, hshort⟩ := hx _ _ _ _ _ h₁
    refine ⟨hdevice, fun htruncated fault ↦ ?_⟩
    obtain ⟨g, d', hd', hg⟩ := hshort (truncated_error.1 htruncated) fault
    exact ⟨g, d', by simp only [Step.judged, hd'], hg⟩

theorem within {x : Step Cursor α} (hx : x.Ends P) (t : Tag) : (x.within t).Ends P := by
  intro bytes offset frames f c h
  simp only [Step.within, Cursor.enter] at h
  split at h
  · cases h
  · next f₁ d h₁ =>
    obtain ⟨⟨⟩, rfl⟩ := Prod.mk.inj h
    obtain ⟨hdevice, hshort⟩ := hx _ _ _ _ _ h₁
    refine ⟨hdevice, fun htruncated fault ↦ ?_⟩
    obtain ⟨g, d', hd', hg⟩ := hshort htruncated fault
    exact ⟨g, d', by simp only [Step.within, Cursor.enter, hd'], hg⟩

end Step.Ends

namespace Cursor

theorem readWord_ends {width : Nat} {P : Bytes → Prop}
    (hP : ∀ bytes, bytes.length < width → P bytes) : (readWord width).Ends P := by
  intro bytes offset frames f c h
  simp only [readWord, fill_clean, endFault?] at h
  split at h
  · cases h
  · next hne =>
    have hshort : P bytes := hP bytes (by rw [List.length_take] at hne; omega)
    obtain ⟨⟨⟩, -⟩ := Prod.mk.inj h
    refine ⟨by rintro _ ⟨⟩, fun _ fault ↦ ?_⟩
    simp only [readWord, fill_faulty, if_neg hne, endFault?]
    cases fault with
    | unexpectedEnd => exact ⟨_, _, rfl, .inl ⟨rfl, rfl, hshort⟩⟩
    | _ => exact ⟨_, _, rfl, .inr ⟨rfl, by rintro ⟨⟨⟩, -⟩⟩⟩

theorem readBytes_ends (count : Nat) : (readBytes count).Ends fun _ ↦ False := by
  intro bytes offset frames f c h
  simp only [readBytes, fill_clean, endFault?] at h
  split at h
  · cases h
  · next hne =>
    obtain ⟨⟨⟩, -⟩ := Prod.mk.inj h
    refine ⟨by rintro _ ⟨⟩, fun _ fault ↦ ?_⟩
    simp only [readBytes, fill_faulty, if_neg hne, endFault?]
    exact ⟨_, _, rfl, .inr ⟨rfl, And.right⟩⟩

end Cursor

theorem Plan.ends {scope : Scope} {G : (e : Expectation) → Grammar e.Content}
    {frame : (e : Expectation) → Step Cursor e.Content} (hG : ∀ e, (frame e).Parses (G e))
    (hframe : ∀ e, (frame e).Ends fun _ ↦ True) (p : Plan α) (h : p.Regular false) :
    Step.Ends (fun _ ↦ True) (p.run scope frame) := by
  have hword (width : Nat) : (Cursor.readWord width).Ends fun _ ↦ True :=
    Cursor.readWord_ends fun _ _ ↦ trivial
  induction p with
  | pure a => exact .pure a
  | bind first next ih₁ ih₂ =>
    rw [run_bind]
    exact (ih₁ h.1).bind (parses hG first) (fun b ↦ ih₂ b (h.2 b)) (fun _ _ ↦ Iff.rfl)
      fun _ _ _ _ ↦ Iff.rfl
  | word width => exact hword width
  | bytes count => exact absurd h Bool.false_ne_true
  | text =>
    obtain ⟨judge, hj, heq⟩ := text_judged scope frame
    rw [heq]
    exact (hword 4).judged hj
  | typed name ih =>
    obtain ⟨judge, hj, heq⟩ := typed_judged scope frame name
    rw [heq]
    exact (ih h.2).judged hj
  | checked value check ih =>
    obtain ⟨judge, hj, heq⟩ := checked_judged scope frame value check
    rw [heq]
    exact (ih h.2).judged hj
  | child e => exact hframe e

end Wire

open Wire

namespace Decoder

theorem opening_ends (p : Placement) (e : Expectation) : (opening p e).Ends fun _ ↦ True := by
  have hword : (Cursor.readWord 1).Ends fun _ ↦ True := Cursor.readWord_ends fun _ _ ↦ trivial
  obtain ⟨judge, hj, heq⟩ := opening_judged p e
  obtain ⟨judge', hj', htag⟩ := Plan.checked_judged .empty
    (fun _ ↦ Step.fail (.device .other)) (.word 1) _
  rw [heq, Plan.runPlain, Plan.tag, htag]
  exact (hword.judged hj').judged hj

theorem frame_ends (d : Decoder) (levels : Nat) (p : Placement) (e : Expectation) :
    (d.frame levels p e).Ends fun _ ↦ True := by
  induction levels generalizing p e with
  | zero =>
    obtain ⟨judge, hj, heq⟩ := d.frame_zero_judged p e
    rw [heq]
    exact (opening_ends p e).judged hj
  | succ levels ih =>
    obtain ⟨judge, hj, heq⟩ := d.frame_succ_judged levels p e
    have hplan (t : Tag) : Step.Ends (fun _ ↦ True)
        ((Node.plan d.layout t).run d.scope (d.frame levels .embedded)) :=
      Plan.ends (d.frame_parses levels .embedded) (ih .embedded) _ (Node.plan_regular d.layout t)
    rw [heq]
    exact ((opening_ends p e).bind (opening_parses p e) (fun t ↦ (hplan t).within t)
      (fun _ _ ↦ Iff.rfl) fun _ _ _ _ ↦ Iff.rfl).judged hj

end Decoder

namespace Wire.Plan

variable {α β : Type}

theorem checked_ends {P : Bytes → Prop} {value : Plan β} {check : β → Except Defect α}
    (h : value.runPlain.Ends P) : (checked value check).runPlain.Ends P := by
  obtain ⟨judge, hj, heq⟩ := checked_judged .empty (fun _ ↦ Step.fail (.device .other)) value check
  rw [runPlain, heq]
  exact h.judged hj

theorem length_yields {bs : Bytes} {n : Nat} :
    length.Yields Scope.empty (fun _ _ _ ↦ False) bs n ↔
      n ≤ Encoder.maxCount ∧ bs = Wire.word 4 n := by
  rw [length_mirrors bs n, Field.allBytes?_singleton, Field.bytes?, Option.ite_none_right_eq_some]
  simp [eq_comm]

theorem length_ends : length.runPlain.Ends (·.length < 4) := by
  have hword : (word 4).runPlain.Ends (·.length < 4) := Cursor.readWord_ends fun _ h ↦ h
  have hi32 : i32.runPlain.Ends (·.length < 4) := by
    have heq : i32.runPlain = (word 4).runPlain >>= fun n ↦ Pure.pure (signed n) :=
      run_bind (word 4) (Plan.pure ∘ signed)
    rw [heq]
    refine hword.bind_first (runPlain_parses _) (fun _ ↦ .pure _) fun used rest n h ↦ ?_
    rw [List.length_append, h.1]
    omega
  exact checked_ends hi32

end Wire.Plan

namespace StringTable

open Wire.Plan
open TreeBytecode.Wire.Field (allBytes? allBytes?_cons allBytes?_append allBytes?_singleton)

theorem not_short_of_count {t : StringTable} {n : Nat} {fs : List Field} {used : Bytes}
    (h : allBytes? t (.count n :: fs) = some used) (rest : Bytes) :
    ¬ (used ++ rest).length < 4 := by
  obtain ⟨bs, cs, hbs, -, rfl⟩ := allBytes?_cons.1 h
  rw [Field.bytes?, Option.ite_none_right_eq_some] at hbs
  obtain rfl := Option.some.inj hbs.2
  rw [List.append_assoc, List.length_append, length_word]
  omega

theorem newlinePlan_ends : newlinePlan.runPlain.Ends fun _ ↦ False :=
  checked_ends (Cursor.readBytes_ends newline.length)

theorem textPlan_ends : textPlan.runPlain.Ends (·.length < 4) := by
  have hbytes : (Plan.length >>= Plan.bytes).runPlain.Ends (·.length < 4) := by
    rw [runPlain_bind]
    refine length_ends.bind_first (runPlain_parses _) Cursor.readBytes_ends fun used rest n h ↦ ?_
    exact not_short_of_count ((length_mirrors _ _).1 h).2.1 rest
  exact checked_ends hbytes

theorem entryPlan_ends (t : StringTable) : (entryPlan add t).runPlain.Ends (·.length < 4) := by
  have hmark (s : String) :
      (do newlinePlan; return s : Plan String).runPlain.Ends fun _ ↦ False := by
    rw [runPlain_bind]
    exact newlinePlan_ends.bind_first (runPlain_parses _) (fun _ ↦ .pure s) fun _ _ _ _ ↦ id
  have hentry : (do let s ← textPlan; newlinePlan; return s : Plan String).runPlain.Ends
      (·.length < 4) := by
    rw [runPlain_bind]
    refine textPlan_ends.bind_first (runPlain_parses _) hmark fun used rest s h ↦ ?_
    exact not_short_of_count ((textPlan_mirrors _ _).1 h).2.1 rest
  exact checked_ends hentry

def EndsInEntries (n : Nat) (t : StringTable) (bytes : Bytes) : Prop :=
  ∃ ws used tail, ws.length < n ∧ (t.words ++ ws).Nodup ∧
    allBytes? .empty (ws.flatMap entryFields) = some used ∧ bytes = used ++ tail ∧ tail.length < 4

/-- The grammar of an entry that is read into a table. -/
abbrev Entry (t : StringTable) : Grammar StringTable :=
  (entryPlan add t).Yields Scope.empty fun _ _ _ ↦ False

theorem entry_of_nodup {t : StringTable} {s : String} {ws : List String} {bs : Bytes}
    (hnodup : (t.words ++ s :: ws).Nodup) (hb : allBytes? .empty (entryFields s) = some bs) :
    t.Entry bs (t.insert s) ∧ ((t.insert s).words ++ ws).Nodup := by
  have hnew := not_mem_of_nodup hnodup
  refine ⟨entryPlan_yields.2 ⟨s, hnew, rfl, hb⟩, ?_⟩
  rwa [StringTable.words_insert_of_not_mem hnew, List.append_assoc]

theorem endsInEntries_of_no_entry {n : Nat} {t : StringTable} {bytes : Bytes}
    (h : ∀ used rest t', t.Entry used t' → bytes ≠ used ++ rest) :
    EndsInEntries (n + 1) t bytes ↔ bytes.length < 4 := by
  constructor
  · rintro ⟨ws, used, tail, -, hnodup, hused, rfl, htail⟩
    cases ws with
    | nil =>
      obtain rfl := Option.some.inj hused
      exact htail
    | cons s ws =>
      obtain ⟨bs₁, bs₂, hb₁, -, rfl⟩ := allBytes?_append.1 hused
      exact absurd (List.append_assoc ..) (h bs₁ (bs₂ ++ tail) _ (entry_of_nodup hnodup hb₁).1)
  · intro hshort
    exact ⟨[], [], bytes, Nat.succ_pos n, (List.append_nil _).symm ▸ t.distinct, rfl, rfl, hshort⟩

theorem endsInEntries_of_entry {n : Nat} {t t' : StringTable} {used : Bytes} (h : t.Entry used t')
    (rest : Bytes) : EndsInEntries (n + 1) t (used ++ rest) ↔ EndsInEntries n t' rest := by
  obtain ⟨s, hnew, rfl, hb⟩ := entryPlan_yields.1 h
  constructor
  · rintro ⟨ws, used', tail, hl, hnodup, hused', heq, htail⟩
    cases ws with
    | nil =>
      obtain rfl := Option.some.inj hused'
      rw [List.nil_append] at heq
      exact absurd (heq ▸ htail) (not_short_of_count hb rest)
    | cons s' ws =>
      obtain ⟨bs₁, bs₂, hb₁, hb₂, rfl⟩ := allBytes?_append.1 hused'
      obtain ⟨hentry, hnodup⟩ := entry_of_nodup hnodup hb₁
      rw [List.append_assoc] at heq
      obtain ⟨ht, rfl⟩ := (runPlain_parses (entryPlan add t)).unique h hentry heq
      exact ⟨ws, bs₂, tail, Nat.lt_of_succ_lt_succ hl, ht ▸ hnodup, hb₂, rfl, htail⟩
  · rintro ⟨ws, bs, tail, hl, hnodup, hbs, rfl, htail⟩
    rw [StringTable.words_insert_of_not_mem hnew, List.append_assoc] at hnodup
    exact ⟨s :: ws, used ++ bs, tail, Nat.succ_lt_succ hl, hnodup,
      allBytes?_append.2 ⟨used, bs, hb, hbs, rfl⟩, (List.append_assoc ..).symm, htail⟩

theorem entriesPlan_ends (n : Nat) (t : StringTable) :
    (entriesPlan add n t).runPlain.Ends (EndsInEntries n t) := by
  induction n generalizing t with
  | zero => exact .pure t
  | succ n ih =>
    rw [entriesPlan, runPlain_bind]
    exact (entryPlan_ends t).bind (runPlain_parses _) ih
      (fun bytes h ↦ endsInEntries_of_no_entry h) fun used rest t' h ↦ endsInEntries_of_entry h rest

def EndsInLength (bytes : Bytes) : Prop :=
  bytes.length < 4 ∨ ∃ n rest, n ≤ Encoder.maxCount ∧ bytes = word 4 n ++ (newline ++ rest) ∧
    EndsInEntries n .empty rest

theorem newlinePlan_yields {bs : Bytes} {u : Unit} :
    newlinePlan.Yields Scope.empty (fun _ _ _ ↦ False) bs u ↔ bs = newline := by
  rw [newlinePlan_mirrors bs u, allBytes?_singleton, Field.bytes?]
  simp [eq_comm]

theorem body_ends (n : Nat) : (do newlinePlan; entriesPlan add n empty).runPlain.Ends fun bytes ↦
    ∃ rest, bytes = newline ++ rest ∧ EndsInEntries n .empty rest := by
  rw [runPlain_bind]
  refine newlinePlan_ends.bind (runPlain_parses _) (fun _ ↦ entriesPlan_ends n .empty) ?_ ?_
  · intro bytes hnone
    refine iff_of_false ?_ id
    rintro ⟨rest, rfl, -⟩
    exact hnone newline rest () (newlinePlan_yields.2 rfl) rfl
  · intro used rest u hused
    obtain rfl := newlinePlan_yields.1 hused
    constructor
    · rintro ⟨rest', heq, h⟩
      obtain rfl := List.append_cancel_left heq
      exact h
    · exact fun h ↦ ⟨rest, rfl, h⟩

theorem load_ends : load.Ends EndsInLength := by
  rw [load, plan, tablePlan, runPlain_bind]
  refine length_ends.bind (runPlain_parses _) body_ends ?_ ?_
  · intro bytes hnone
    constructor
    · rintro (h | ⟨n, rest, hn, rfl, -⟩)
      · exact h
      · exact absurd rfl (hnone (word 4 n) (newline ++ rest) n (length_yields.2 ⟨hn, rfl⟩))
    · exact .inl
  · intro used rest n hused
    obtain ⟨hn, rfl⟩ := length_yields.1 hused
    constructor
    · rintro (hshort | ⟨n', rest', hn', heq, h⟩)
      · rw [List.length_append, length_word] at hshort
        omega
      · obtain ⟨rfl, rfl⟩ := (runPlain_parses _).unique hused (length_yields.2 ⟨hn', rfl⟩) heq
        exact ⟨rest', rfl, h⟩
    · rintro ⟨rest', rfl, h⟩
      exact .inr ⟨n, rest', hn, rfl, h⟩

theorem load_isLocal : load.IsLocal := Plan.isLocal (fun _ ↦ .fail _) plan

end StringTable

section Unexpected

variable {α : Type} {x : Step Cursor α} {bytes : Bytes}

/-- Both ends come to the same, and never to a fault. -/
def Wire.Step.EndsAlike (x : Step Cursor α) (bytes : Bytes) : Prop :=
  x.result (.start bytes (.faulty .unexpectedEnd)) = x.result (.start bytes .clean) ∧
    ∀ fault, x.result (.start bytes .clean) ≠ .error (.device fault)

def Wire.Step.EndsApart (x : Step Cursor α) (bytes : Bytes) : Prop :=
  Truncated (x.result (.start bytes .clean)) ∧
    x.result (.start bytes (.faulty .unexpectedEnd)) = .error (.device .unexpectedEnd)

theorem Wire.Step.Ends.result_of_truncated {lenient : Bytes → Prop} (hx : x.Ends lenient)
    (h : Truncated (x.result (.start bytes .clean))) :
    (lenient bytes →
      x.result (.start bytes (.faulty .unexpectedEnd)) = x.result (.start bytes .clean)) ∧
    (¬ lenient bytes →
      x.result (.start bytes (.faulty .unexpectedEnd)) = .error (.device .unexpectedEnd)) := by
  obtain ⟨wanted, place, hclean⟩ := h
  have hrun : x (.start bytes .clean) = (.error (.truncated wanted place), _) :=
    Prod.ext hclean rfl
  obtain ⟨g, d, hd, hg⟩ := (hx _ _ _ _ _ hrun).2 ⟨wanted, place, rfl⟩ .unexpectedEnd
  have hfaulty : x.result (.start bytes (.faulty .unexpectedEnd)) = .error g := congrArg Prod.fst hd
  rw [hfaulty, hclean]
  obtain ⟨rfl, -, hlenient⟩ | ⟨rfl, hlenient⟩ := hg
  · exact ⟨fun _ ↦ rfl, fun h ↦ absurd hlenient h⟩
  · exact ⟨fun h ↦ absurd ⟨rfl, h⟩ hlenient, fun _ ↦ rfl⟩

theorem Wire.Step.Ends.apart_iff {lenient : Bytes → Prop} (hx : x.Ends lenient) :
    x.EndsApart bytes ↔ Truncated (x.result (.start bytes .clean)) ∧ ¬ lenient bytes := by
  constructor
  · rintro ⟨htruncated, hfaulty⟩
    refine ⟨htruncated, fun hlenient ↦ ?_⟩
    have halike := (hx.result_of_truncated htruncated).1 hlenient
    obtain ⟨wanted, place, hclean⟩ := htruncated
    rw [hfaulty, hclean] at halike
    cases halike
  · intro h
    exact ⟨h.1, (hx.result_of_truncated h.1).2 h.2⟩

theorem Wire.Step.Ends.alike_or_apart {lenient : Bytes → Prop} (hx : x.Ends lenient)
    (hlocal : x.IsLocal) (bytes : Bytes) : x.EndsAlike bytes ∨ x.EndsApart bytes := by
  have hdevice : ∀ fault, x.result (.start bytes .clean) ≠ .error (.device fault) :=
    fun fault h ↦ (hx _ _ _ _ _ (Prod.ext h rfl)).1 fault rfl
  rcases hrun : x (.start bytes .clean) with ⟨r, c⟩
  have hclean : x.result (.start bytes .clean) = r := congrArg Prod.fst hrun
  obtain htruncated | ⟨used, rfl, hused⟩ := hlocal bytes 0 [] r c hrun
  · rw [← hclean] at htruncated
    by_cases hlenient : lenient bytes
    · exact .inl ⟨(hx.result_of_truncated htruncated).1 hlenient, hdevice⟩
    · exact .inr ⟨htruncated, (hx.result_of_truncated htruncated).2 hlenient⟩
  · have hfaulty : x.result (.start (used ++ c.rest) (.faulty .unexpectedEnd)) = r :=
      congrArg Prod.fst (hused c.rest (.faulty .unexpectedEnd))
    exact .inl ⟨hfaulty.trans hclean.symm, hdevice⟩

theorem Adapter.load_endsAlike (a : Adapter) (scope : Scope) (maxDepth : Nat) (e : Expectation)
    (bytes : Bytes) : (a.load scope maxDepth e).EndsAlike bytes := by
  have hends := Decoder.frame_ends ⟨scope, a.layout, maxDepth⟩ maxDepth .top e
  have hapart : ¬ (a.load scope maxDepth e).EndsApart bytes := fun h ↦
    (hends.apart_iff.1 h).2 trivial
  exact (hends.alike_or_apart (Decoder.frame_isLocal _ _ _ _) bytes).resolve_right hapart

theorem Header.read_short_faulty (h : bytes.length < size) (fault : Fault) :
    read.result (.start bytes (.faulty fault)) = .error (.device fault) := by
  have hne : (bytes.take size).length ≠ size := by
    rw [List.length_take]
    omega
  simp only [Step.result, read, Cursor.readBytes, Cursor.start, Cursor.fill_faulty, if_neg hne,
    Cursor.endFault?]

theorem Header.read_endsApart (h : bytes.length < size) : read.EndsApart bytes := by
  obtain ⟨c, hc⟩ := read_short h
  exact ⟨⟨size, .outside, congrArg Prod.fst hc⟩, read_short_faulty h .unexpectedEnd⟩

theorem Header.read_endsAlike {head : Bytes} (h : head.length = size) (rest : Bytes) :
    read.EndsAlike (head ++ rest) := by
  simp only [Step.EndsAlike, Step.result, read_append h, true_and]
  intro fault
  split <;> rintro ⟨⟩

theorem Artifact.read_of_error (r : Registry) (scope : Scope) (maxDepth : Nat) (e : Expectation)
    {input : Cursor} {f : Failure} (h : Header.read.result input = .error f) :
    (read r scope maxDepth e).result input = .error f := by
  rw [Step.result] at h ⊢
  rcases hc : Header.read input with ⟨g | header, c⟩
  · rw [hc] at h
    simp only [read, hc, Except.error.inj h]
  · rw [hc] at h
    cases h

theorem Artifact.read_endsApart (r : Registry) (scope : Scope) (maxDepth : Nat) (e : Expectation)
    (h : bytes.length < Header.size) : (read r scope maxDepth e).EndsApart bytes := by
  obtain ⟨⟨wanted, place, hclean⟩, hfaulty⟩ := Header.read_endsApart h
  exact ⟨⟨wanted, place, read_of_error r scope maxDepth e hclean⟩,
    read_of_error r scope maxDepth e hfaulty⟩

theorem Artifact.read_endsAlike (r : Registry) (scope : Scope) (maxDepth : Nat) (e : Expectation)
    {head : Bytes} (h : head.length = Header.size) (rest : Bytes) :
    (read r scope maxDepth e).EndsAlike (head ++ rest) := by
  simp only [Step.EndsAlike, Step.result, read, Header.read_append h]
  by_cases hvalid : (Header.parse head).isValid
  · simp only [hvalid, if_true, Registry.get]
    cases r.find? (Header.parse head).version with
    | none => exact ⟨rfl, by rintro _ ⟨⟩⟩
    | some a => exact a.load_endsAlike scope maxDepth e rest
  · simp only [hvalid]
    exact ⟨rfl, by rintro _ ⟨⟩⟩

/-- An unexpected end of an input is an end to a reader of frames. To one of headers it is a fault,
and so it is to one of artifacts as long as the header is not complete, and to one of string tables
unless it is inside a length. -/
theorem alike_or_apart_at_unexpectedEnd (bytes : Bytes) :
    (∀ (a : Adapter) scope maxDepth e, (a.load scope maxDepth e).EndsAlike bytes) ∧
    (if bytes.length < Header.size then Header.read.EndsApart bytes
      else Header.read.EndsAlike bytes) ∧
    (∀ r scope maxDepth e,
      if bytes.length < Header.size then (Artifact.read r scope maxDepth e).EndsApart bytes
      else (Artifact.read r scope maxDepth e).EndsAlike bytes) ∧
    (StringTable.load.EndsAlike bytes ∨ StringTable.load.EndsApart bytes) ∧
    (StringTable.load.EndsApart bytes ↔
      Truncated (StringTable.load.result (.start bytes .clean)) ∧
        ¬ StringTable.EndsInLength bytes) := by
  have hsplit (h : ¬ bytes.length < Header.size) :
      ∃ head rest, head.length = Header.size ∧ bytes = head ++ rest :=
    ⟨_, _, List.length_take_of_le (Nat.le_of_not_lt h), (List.take_append_drop ..).symm⟩
  refine ⟨fun a scope maxDepth e ↦ a.load_endsAlike scope maxDepth e bytes, ?_, ?_,
    StringTable.load_ends.alike_or_apart StringTable.load_isLocal bytes,
    StringTable.load_ends.apart_iff⟩
  · split
    · next h => exact Header.read_endsApart h
    · next h =>
      obtain ⟨head, rest, hhead, rfl⟩ := hsplit h
      exact Header.read_endsAlike hhead rest
  · intro r scope maxDepth e
    split
    · next h => exact Artifact.read_endsApart r scope maxDepth e h
    · next h =>
      obtain ⟨head, rest, hhead, rfl⟩ := hsplit h
      exact Artifact.read_endsAlike r scope maxDepth e hhead rest

theorem apart_at_unexpectedEnd :
    Header.read.result (.start Header.expectedMagic (.faulty .unexpectedEnd)) =
      .error (.device .unexpectedEnd) ∧
    (Artifact.read .builtin .empty Decoder.defaultMaxDepth .any).result
      (.start Header.expectedMagic (.faulty .unexpectedEnd)) = .error (.device .unexpectedEnd) ∧
    StringTable.load.result (.start [0, 0, 0, 0] (.faulty .unexpectedEnd)) =
      .error (.device .unexpectedEnd) := by
  have htable : (match StringTable.load.result (.start [0, 0, 0, 0] (.faulty .unexpectedEnd)) with
    | .error f => some f
    | .ok _ => none) = some (.device .unexpectedEnd) := by decide +kernel
  refine ⟨rfl, rfl, ?_⟩
  split at htable
  · next f h => rw [h, Option.some.inj htable]
  · cases htable

end Unexpected

end TreeBytecode
