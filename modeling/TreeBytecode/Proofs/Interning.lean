import Mathlib.Data.List.Induction
import TreeBytecode.Proofs.Runs
import TreeBytecode.StringTable.SideFile

namespace TreeBytecode.StringTable

open Wire

variable {s : String} {id : UInt32}

section Entries

variable {τ σ : Type} {add : τ → String → Except Defect τ} {add' : σ → String → Except Defect σ}

theorem entriesPlan_invariant {I : τ → Prop} (hadd : ∀ t s t', I t → add t s = .ok t' → I t')
    {n : Nat} {t t' : τ} {c c' : Cursor} (ht : I t)
    (h : (entriesPlan add n t).runPlain c = (.ok t', c')) : I t' := by
  induction n generalizing t c with
  | zero =>
    obtain rfl : t = t' := Except.ok.inj (Prod.mk.inj h).1
    exact ht
  | succ n ih =>
    rw [entriesPlan, Plan.runPlain_bind] at h
    obtain ⟨t₁, c₁, hentry, hrest⟩ := Step.bind_eq_ok.1 h
    refine ih ?_ hrest
    rw [entryPlan, Plan.runPlain, Plan.run_checked, Step.judged] at hentry
    split at hentry
    · next s _ _ =>
      have hresult := (Prod.mk.inj hentry).1
      split at hresult
      · next t₂ hs =>
        obtain rfl := Except.ok.inj hresult
        exact hadd t s t₂ ht hs
      · cases hresult
    · cases (Prod.mk.inj hentry).1

/-- A table of one kind is read as one of the other is, if entries are added alike. -/
theorem entriesPlan_map {f : τ → σ} (hadd : ∀ t s, add' (f t) s = (add t s).map f) (n : Nat) (t : τ)
    (c : Cursor) : (entriesPlan add' n (f t)).runPlain c =
      (((entriesPlan add n t).runPlain c).1.map f, ((entriesPlan add n t).runPlain c).2) := by
  induction n generalizing t c with
  | zero => rfl
  | succ n ih =>
    have hentry : (entryPlan add' (f t)).runPlain c =
        (((entryPlan add t).runPlain c).1.map f, ((entryPlan add t).runPlain c).2) := by
      simp only [entryPlan, Plan.runPlain, Plan.run_checked, Step.judged, hadd]
      split
      · next s d _ => cases add t s <;> rfl
      · rfl
    simp only [entriesPlan, Plan.runPlain_bind, Step.bind_apply, hentry]
    rcases (entryPlan add t).runPlain c with ⟨f | t', d⟩
    · rfl
    · exact ih t' d

end Entries

namespace Raw

variable {t t' : Raw}

theorem InStep.add (h : t.InStep) (hs : t.add s = .ok t') : t'.InStep := by
  rw [Raw.add] at hs
  split at hs
  · cases hs
  · obtain rfl := Except.ok.inj hs
    exact h.intern s

theorem inStep_load {c c' : Cursor} (h : load c = (.ok t, c')) : t.InStep := by
  rw [load, tablePlan, Plan.runPlain_bind] at h
  obtain ⟨n, c₁, -, h⟩ := Step.bind_eq_ok.1 h
  rw [Plan.runPlain_bind] at h
  obtain ⟨⟨⟩, c₂, -, h⟩ := Step.bind_eq_ok.1 h
  exact entriesPlan_invariant (fun _ _ _ ↦ InStep.add) inStep_empty h

/-- What is done to a table, or with it. -/
inductive Action
  | intern (s : String)
  /-- A table is read, and is used from then on. -/
  | load (input : Cursor)
  /-- The side file is written, or something is looked up: the table stays what it is. -/
  | consult

def Action.replaces : Action → Bool
  | .load _ => true
  | .intern _ | .consult => false

def act (t : Raw) : Action → Raw
  | .intern s => (t.intern s).2
  | .load input =>
    match load input with
    | (.ok t', _) => t'
    | (.error _, _) => t
  | .consult => t

def run (t : Raw) (actions : List Action) : Raw := actions.foldl act t

theorem run_append (t : Raw) (actions later : List Action) :
    t.run (actions ++ later) = (t.run actions).run later := List.foldl_append

theorem InStep.act (h : t.InStep) (action : Action) : (t.act action).InStep := by
  cases action with
  | intern s => exact h.intern s
  | load input =>
    rw [Raw.act]
    split
    · next hload => exact inStep_load hload
    · exact h
  | consult => exact h

theorem InStep.run (h : t.InStep) (actions : List Action) : (t.run actions).InStep := by
  induction actions generalizing t with
  | nil => exact h
  | cons action actions ih => exact ih (h.act action)

theorem strings_intern_of_new (h : t.id? s = none) :
    (t.intern s).2.strings = t.strings ++ [s] := by
  simp only [intern, h]

/-- Only another table takes away strings, or moves them. -/
theorem prefix_act (t : Raw) {action : Action} (h : action.replaces = false) :
    t.strings <+: (t.act action).strings := by
  cases action with
  | intern s =>
    cases hs : t.id? s with
    | some id => exact ⟨[], by simp only [act, intern, hs, List.append_nil]⟩
    | none => exact ⟨[s], (strings_intern_of_new hs).symm⟩
  | load input => cases h
  | consult => exact List.prefix_rfl

theorem prefix_run {actions : List Action} (t : Raw)
    (h : ∀ action ∈ actions, action.replaces = false) :
    t.strings <+: (t.run actions).strings := by
  induction actions generalizing t with
  | nil => exact List.prefix_rfl
  | cons action actions ih =>
    obtain ⟨haction, hactions⟩ := List.forall_mem_cons.1 h
    exact (prefix_act t haction).trans (ih (t.act action) hactions)

theorem InStep.id?_eq_some_iff (h : t.InStep) (hsize : t.size ≤ UInt32.size) :
    t.id? s = some id ↔ t.string? id = some s := by
  have hfind (n : Nat) : t.strings.idxOf? s = some n ↔ t.strings[n]? = some s :=
    find?_eq_some_iff (t := ⟨t, h⟩)
  rw [h.id?_eq, Option.map_eq_some_iff, string?]
  constructor
  · rintro ⟨n, hn, rfl⟩
    have hs := (hfind n).1 hn
    have hlt : n < t.strings.length := (List.getElem?_eq_some_iff.1 hs).1
    rwa [UInt32.toNat_ofNat_of_lt' (Nat.lt_of_lt_of_le hlt hsize)]
  · intro hs
    exact ⟨id.toNat, (hfind _).2 hs, UInt32.ofNat_toNat⟩

theorem exists_string?_iff : (∃ s, t.string? id = some s) ↔ id.toNat < t.size := by
  rw [← Option.isSome_iff_exists, string?, isSome_getElem?]
  rfl

theorem mem_entries_iff {n : Nat} : (n, s) ∈ t.entries ↔ t.strings[n]? = some s := by
  rw [entries, List.mem_mapIdx, List.getElem?_eq_some_iff]
  constructor
  · rintro ⟨i, hi, he⟩
    obtain ⟨rfl, rfl⟩ := Prod.mk.inj he
    exact ⟨hi, rfl⟩
  · rintro ⟨hi, rfl⟩
    exact ⟨n, hi, rfl⟩

theorem intern_of_id? (h : t.id? s = some id) : t.intern s = (id, t) := by
  simp only [intern, h]

theorem intern_of_new (h : t.id? s = none) (hsize : t.size < UInt32.size) :
    (t.intern s).1.toNat = t.size ∧ (t.intern s).2.entries = t.entries ++ [(t.size, s)] := by
  constructor
  · simp only [intern, h]
    exact UInt32.toNat_ofNat_of_lt' hsize
  · rw [entries, strings_intern_of_new h, List.mapIdx_concat]
    rfl

/-- Ids and strings stand for each other, one for one, and the ids are the first numbers. -/
structure Numbered (t : Raw) : Prop where
  inverse : ∀ s id, t.id? s = some id ↔ t.string? id = some s
  strings_apart : ∀ s s' id, t.id? s = some id → t.id? s' = some id → s = s'
  ids_apart : ∀ s id id', t.string? id = some s → t.string? id' = some s → id = id'
  first : ∀ n, (∃ id s, id.toNat = n ∧ t.string? id = some s) ↔ n < t.size
  entries : ∀ n s, (n, s) ∈ t.entries ↔ ∃ id, id.toNat = n ∧ t.string? id = some s

theorem InStep.numbered (h : t.InStep) (hsize : t.size ≤ UInt32.size) : t.Numbered := by
  have hid {n : Nat} (hn : n < t.size) : (UInt32.ofNat n).toNat = n :=
    UInt32.toNat_ofNat_of_lt' (Nat.lt_of_lt_of_le hn hsize)
  constructor
  case inverse =>
    intro s id
    exact h.id?_eq_some_iff hsize
  case strings_apart =>
    intro s s' id hs hs'
    rw [h.id?_eq_some_iff hsize] at hs hs'
    exact Option.some.inj (hs.symm.trans hs')
  case ids_apart =>
    intro s id id' hid hid'
    rw [← h.id?_eq_some_iff hsize] at hid hid'
    exact Option.some.inj (hid.symm.trans hid')
  case first =>
    intro n
    constructor
    · rintro ⟨id, s, rfl, hs⟩
      exact exists_string?_iff.1 ⟨s, hs⟩
    · intro hn
      have hlt : (UInt32.ofNat n).toNat < t.size := by rwa [hid hn]
      obtain ⟨s, hs⟩ := exists_string?_iff.2 hlt
      exact ⟨UInt32.ofNat n, s, hid hn, hs⟩
  case entries =>
    intro n s
    rw [mem_entries_iff]
    constructor
    · intro hn
      have hlt : n < t.size := (List.getElem?_eq_some_iff.1 hn).1
      refine ⟨UInt32.ofNat n, hid hlt, ?_⟩
      rwa [string?, hid hlt]
    · rintro ⟨id, rfl, hs⟩
      exact hs

theorem string?_mono (h : t.strings <+: t'.strings) (hs : t.string? id = some s) :
    t'.string? id = some s := by
  obtain ⟨more, hmore⟩ := h
  have hlt := (List.getElem?_eq_some_iff.1 hs).1
  rw [string?, ← hmore, List.getElem?_append_left hlt]
  exact hs

/-- After any run, as long as ids fit in 32 bits: ids and strings are numbered one for one, a known
string keeps its id, a new one comes last, and what an id stands for it stands for ever. -/
theorem numbered_of_run (actions : List Action)
    (hsize : (run .empty actions).size ≤ UInt32.size) :
    let t := run .empty actions
    t.Numbered ∧ (∀ s id, t.id? s = some id → t.intern s = (id, t)) ∧
    (∀ s, t.id? s = none → t.size < UInt32.size →
      (t.intern s).1.toNat = t.size ∧ (t.intern s).2.entries = t.entries ++ [(t.size, s)]) ∧
    ∀ s id, t.string? id = some s → ∀ later : List Action,
      (∀ action ∈ later, action.replaces = false) →
      (run .empty (actions ++ later)).string? id = some s ∧
      ((run .empty (actions ++ later)).size ≤ UInt32.size →
        (run .empty (actions ++ later)).id? s = some id) := by
  intro t
  refine ⟨(inStep_empty.run actions).numbered hsize, fun s id ↦ intern_of_id?,
    fun s ↦ intern_of_new, ?_⟩
  intro s id hs later hlater
  have hgrown : t.strings <+: (run .empty (actions ++ later)).strings := by
    rw [run_append]
    exact prefix_run t hlater
  have hstill : (run .empty (actions ++ later)).string? id = some s := string?_mono hgrown hs
  refine ⟨hstill, fun hsize' ↦ ?_⟩
  exact ((inStep_empty.run (actions ++ later)).id?_eq_some_iff hsize').2 hstill

theorem numbered_of_run_loaded :
    let file : Bytes := [2, 0, 0, 0, 10, 0, 0, 0, 0, 10, 1, 0, 0, 0, 120, 10]
    let actions : List Action := [.intern "ctor", .load (.start file .clean), .consult, .intern "y"]
    let t := run .empty actions
    t.Numbered ∧ t.intern "x" = (1, t) ∧ t.intern "y" = (2, t) ∧
      (t.intern "ctor").2.entries = t.entries ++ [(3, "ctor")] ∧
      (run .empty (actions ++ [.intern "ctor"])).id? "y" = some 2 := by
  intro file actions t
  have ht : t = ⟨[("", 0), ("x", 1), ("y", 2)], ["", "x", "y"]⟩ := by decide +kernel
  have hsize : t.size ≤ UInt32.size := by
    rw [ht]
    decide
  obtain ⟨hnumbered, hknown, hnew, hlater⟩ := numbered_of_run actions hsize
  have hx : t.id? "x" = some 1 := by
    rw [ht]
    decide
  have hy : t.id? "y" = some 2 := by
    rw [ht]
    decide
  have hctor : t.id? "ctor" = none := by
    rw [ht]
    decide
  have hroom : t.size < UInt32.size := by
    rw [ht]
    decide
  have hthree : t.size = 3 := by
    rw [ht]
    rfl
  refine ⟨hnumbered, hknown "x" 1 hx, hknown "y" 2 hy, ?_, ?_⟩
  · rw [(hnew "ctor" hctor hroom).2, hthree]
  · have hs : t.string? 2 = some "y" := (hnumbered.inverse "y" 2).1 hy
    have hgrown : (run .empty (actions ++ [.intern "ctor"])).size ≤ UInt32.size := by
      rw [run_append, show run .empty actions = _ from ht]
      decide
    exact (hlater "y" 2 hs [.intern "ctor"] (by decide)).2 hgrown

/-- The tables in step are those that a run comes to. -/
theorem inStep_iff_exists_run : t.InStep ↔ ∃ actions, t = run .empty actions := by
  constructor
  · intro h
    refine ⟨t.strings.map .intern, ?_⟩
    obtain ⟨map, strings⟩ := t
    obtain ⟨hdistinct, hmap⟩ := h
    obtain rfl : map = .ofNames strings := hmap
    dsimp only at hdistinct ⊢
    induction strings using List.reverseRecOn with
    | nil => rfl
    | append_singleton strings s ih =>
      obtain ⟨hstrings, -, hnew⟩ := List.nodup_append.1 hdistinct
      have hs : s ∉ strings := fun hmem ↦ hnew s hmem s (List.mem_singleton_self s) rfl
      have hid : id? ⟨.ofNames strings, strings⟩ s = none :=
        Numbering.lookup_ofNames_eq_none_iff.2 hs
      rw [List.map_append, run_append, ← ih hstrings]
      simp only [List.map_cons, List.map_nil, run, List.foldl_cons, List.foldl_nil, act, intern,
        hid, Numbering.put_ofNames hs]
  · rintro ⟨actions, rfl⟩
    exact inStep_empty.run actions

end Raw

theorem raw_intern (t : StringTable) (s : String) : (t.intern s).2.raw = (t.raw.intern s).2 := rfl

theorem raw_load (c : Cursor) : Raw.load c = ((load c).1.map raw, (load c).2) := by
  have hadd (t : StringTable) (s : String) : Raw.add t.raw s = (t.add s).map raw := by
    rw [Raw.add, add, id?]
    split <;> rfl
  simp only [Raw.load, load, plan, tablePlan, Plan.runPlain_bind, Step.bind_apply]
  rcases Plan.length.runPlain c with ⟨f | n, d⟩
  · rfl
  · dsimp only
    rcases newlinePlan.runPlain d with ⟨f | ⟨⟩, d'⟩
    · rfl
    · exact entriesPlan_map (f := raw) hadd n .empty d'

end TreeBytecode.StringTable
