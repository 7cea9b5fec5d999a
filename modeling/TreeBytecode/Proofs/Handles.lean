import Mathlib.Data.Finset.Card
import Mathlib.Data.Finset.Dedup
import TreeBytecode.Proofs.Growth

namespace TreeBytecode

namespace Numbering

theorem eq_of_lookup_ofNames {names : List String} (hsize : names.length ≤ UInt32.size)
    {a b : String} {n : UInt32} (ha : (ofNames names).lookup a = some n)
    (hb : (ofNames names).lookup b = some n) : a = b := by
  rw [lookup_ofNames, Option.map_eq_some_iff] at ha hb
  obtain ⟨i, hi, rfl⟩ := ha
  obtain ⟨j, hj, heq⟩ := hb
  obtain ⟨hilt, rfl, -⟩ := List.idxOf?_eq_some_iff.1 hi
  obtain ⟨hjlt, rfl, -⟩ := List.idxOf?_eq_some_iff.1 hj
  have hnum := congrArg UInt32.toNat heq
  rw [UInt32.toNat_ofNat_of_lt' (Nat.lt_of_lt_of_le hjlt hsize),
    UInt32.toNat_ofNat_of_lt' (Nat.lt_of_lt_of_le hilt hsize)] at hnum
  simp only [hnum]

end Numbering

namespace TypeUniverse

variable {u : TypeUniverse} {declared names : List String} {name : String} {ref : TypeRef}

/-- The handles are the positions of the declared names, each of which counts once. -/
def Ordered (u : TypeUniverse) (declared : List String) : Prop :=
  ∃ names, u.types = .ofNames names ∧ names.Nodup ∧ names.toFinset = declared.toFinset

theorem ordered_empty : empty.Ordered [] := ⟨[], rfl, List.nodup_nil, rfl⟩

namespace Ordered

theorem isSome_resolve?_iff (h : u.Ordered declared) :
    (u.resolve? name).isSome ↔ name ∈ declared := by
  obtain ⟨names, htypes, -, hnames⟩ := h
  rw [← List.mem_toFinset, ← hnames, List.mem_toFinset, ← not_iff_not,
    Option.not_isSome_iff_eq_none, resolve?, htypes, Numbering.lookup_ofNames_eq_none_iff]

theorem resolve?_eq_none (h : u.Ordered declared) (hname : name ∉ declared) :
    u.resolve? name = none :=
  Option.not_isSome_iff_eq_none.1 (mt h.isSome_resolve?_iff.1 hname)

theorem size_eq (h : u.Ordered declared) : u.size = declared.toFinset.card := by
  obtain ⟨names, htypes, hdistinct, hnames⟩ := h
  rw [← hnames, List.toFinset_card_of_nodup hdistinct, size, htypes, Numbering.length_ofNames]

theorem eq_of_resolve? (h : u.Ordered declared) (hsize : u.size ≤ UInt32.size) {a b : String}
    {handle : UInt32} (ha : u.resolve? a = some handle) (hb : u.resolve? b = some handle) :
    a = b := by
  obtain ⟨names, htypes, -, -⟩ := h
  rw [size, htypes, Numbering.length_ofNames] at hsize
  rw [resolve?, htypes] at ha hb
  exact Numbering.eq_of_lookup_ofNames hsize ha hb

theorem declare (h : u.Ordered declared) (name : String) :
    (u.declare name).2.Ordered (declared ++ [name]) := by
  by_cases hname : name ∈ declared
  · obtain ⟨handle, hhandle⟩ := Option.isSome_iff_exists.1 (h.isSome_resolve?_iff.2 hname)
    rw [declare_of_known hhandle]
    obtain ⟨names, htypes, hdistinct, hnames⟩ := h
    refine ⟨names, htypes, hdistinct, hnames.trans ?_⟩
    ext x
    simp only [List.mem_toFinset, List.mem_append, List.mem_singleton]
    exact (or_iff_left_of_imp fun hx ↦ hx ▸ hname).symm
  · rw [declare_of_new (h.resolve?_eq_none hname)]
    obtain ⟨names, htypes, hdistinct, hnames⟩ := h
    refine ⟨names ++ [name], ?_, ?_, ?_⟩
    · simp only [htypes, size, Numbering.length_ofNames, Numbering.ofNames_concat]
    · refine hdistinct.append (List.nodup_singleton name) fun x hx hx' ↦ hname ?_
      obtain rfl := List.mem_singleton.1 hx'
      rwa [← List.mem_toFinset, ← hnames, List.mem_toFinset]
    · rw [List.toFinset_append, List.toFinset_append, hnames]

end Ordered

def declareAll (u : TypeUniverse) : List String → List TypeRef × TypeUniverse
  | [] => ([], u)
  | name :: names =>
    let (ref, u) := u.declare name
    let (refs, u) := declareAll u names
    (ref :: refs, u)

theorem declareAll_snd (u : TypeUniverse) (names : List String) :
    (u.declareAll names).2 = names.foldl (fun u name ↦ (u.declare name).2) u := by
  induction names generalizing u with
  | nil => rfl
  | cons name names ih => exact ih (u.declare name).2

theorem declareAll_append (u : TypeUniverse) (names later : List String) :
    (u.declareAll (names ++ later)).2 = ((u.declareAll names).2.declareAll later).2 := by
  simp only [declareAll_snd, List.foldl_append]

theorem Ordered.declareAll (h : u.Ordered declared) (names : List String) :
    (u.declareAll names).2.Ordered (declared ++ names) := by
  induction names generalizing u declared with
  | nil => rwa [List.append_nil]
  | cons name names ih =>
    rw [List.append_cons]
    exact ih (h.declare name)

theorem names_declareAll (u : TypeUniverse) (names : List String) :
    (u.declareAll names).1.map TypeRef.name = names := by
  induction names generalizing u with
  | nil => rfl
  | cons name names ih => exact congrArg (name :: ·) (ih (u.declare name).2)

theorem typeRef?_declareAll (h : u.typeRef? name = some ref) (names : List String) :
    (u.declareAll names).2.typeRef? name = some ref := by
  obtain ⟨handle, hhandle, rfl⟩ := Option.map_eq_some_iff.1 h
  rw [declareAll_snd]
  exact Option.map_eq_some_iff.2 ⟨handle, resolve?_foldl_declare hhandle names, rfl⟩

theorem resolve?_declare_self (u : TypeUniverse) (name : String) :
    (u.declare name).2.resolve? name = some (u.declare name).1.handle := by
  cases h : u.resolve? name with
  | some handle => rwa [declare_of_known h]
  | none =>
    rw [declare_of_new h]
    change (u.types ++ [(name, _)]).lookup name = some _
    rw [List.lookup_append, show u.types.lookup name = none from h, Option.none_or,
      List.lookup_cons, beq_self_eq_true]

theorem typeRef?_declare (u : TypeUniverse) (name : String) :
    (u.declare name).2.typeRef? name = some (u.declare name).1 :=
  Option.map_eq_some_iff.2 ⟨_, resolve?_declare_self u name, rfl⟩

/-- What was given out is found from then on. -/
theorem typeRef?_of_mem_declareAll (h : ref ∈ (u.declareAll names).1) :
    (u.declareAll names).2.typeRef? ref.name = some ref := by
  induction names generalizing u with
  | nil => cases h
  | cons name names ih =>
    obtain rfl | h := List.mem_cons.1 h
    · exact typeRef?_declareAll (typeRef?_declare u name) names
    · exact ih h

/-- A new name gets the number of those before it, and keeps it. -/
theorem resolve?_of_split {before after : List String} (hname : name ∉ before) :
    (empty.declareAll (before ++ name :: after)).2.resolve? name =
      some (UInt32.ofNat before.toFinset.card) := by
  have hordered := ordered_empty.declareAll before
  rw [List.nil_append] at hordered
  have hnew := hordered.resolve?_eq_none hname
  have hself := resolve?_declare_self (empty.declareAll before).2 name
  rw [declare_of_new hnew, hordered.size_eq] at hself
  rw [declareAll_append, declareAll_snd, List.foldl_cons, declare_of_new hnew, hordered.size_eq]
  exact resolve?_foldl_declare hself after

/-- After any run of declarations, on a universe that is new or has some names from the start: just
the declared names resolve, each to the number of distinct names before its first declaration, and
no two to the same. Declaring a name again changes nothing, and what was ever given out for a name
is found under it, whatever is declared later. -/
theorem handles_of_declarations (first names : List String)
    (hsize : (first ++ names).toFinset.card ≤ UInt32.size) :
    let run := (empty.declareAll first).2.declareAll names
    let u := run.2
    (∀ name, (u.resolve? name).isSome ↔ name ∈ first ++ names) ∧
    (∀ before name after, first ++ names = before ++ name :: after → name ∉ before →
      ∃ handle, u.resolve? name = some handle ∧ handle.toNat = before.toFinset.card) ∧
    (∀ a b handle, u.resolve? a = some handle → u.resolve? b = some handle → a = b) ∧
    (∀ name, (u.resolve? name).isSome →
      (u.declare name).2 = u ∧ u.typeRef? name = some (u.declare name).1) ∧
    run.1.map TypeRef.name = names ∧
    ∀ ref ∈ run.1, ∀ later, (u.declareAll later).2.typeRef? ref.name = some ref := by
  intro run u
  have hrun : u = (empty.declareAll (first ++ names)).2 := (declareAll_append _ _ _).symm
  have hordered : u.Ordered (first ++ names) := hrun ▸ ordered_empty.declareAll (first ++ names)
  refine ⟨fun name ↦ hordered.isSome_resolve?_iff, fun before name after hsplit hname ↦ ?_,
    fun a b handle ↦ hordered.eq_of_resolve? (hordered.size_eq ▸ hsize), fun name hknown ↦ ?_,
    names_declareAll _ names, fun ref href later ↦ ?_⟩
  · have hle : before.toFinset.card < UInt32.size := by
      refine Nat.lt_of_lt_of_le (Finset.card_lt_card ?_) hsize
      rw [Finset.ssubset_iff_of_subset]
      · exact ⟨name, by simp [hsplit], by simpa using hname⟩
      · intro x hx
        simp only [hsplit, List.toFinset_append, Finset.mem_union]
        exact .inl hx
    refine ⟨UInt32.ofNat before.toFinset.card, ?_, UInt32.toNat_ofNat_of_lt' hle⟩
    rw [hrun, hsplit]
    exact resolve?_of_split hname
  · obtain ⟨handle, hhandle⟩ := Option.isSome_iff_exists.1 hknown
    have hfound := typeRef?_declare u name
    rw [declare_of_known hhandle] at hfound ⊢
    exact ⟨rfl, hfound⟩
  · exact typeRef?_declareAll (typeRef?_of_mem_declareAll href) later

theorem handles_of_declarations_builtin :
    let u : TypeUniverse := (builtins.declareAll ["Shape", "int", "Shape", "Calc"]).2
    u.resolve? "int" = some 5 ∧ u.resolve? "Calc" = some 8 ∧
      (u.declare "Shape").2 = u ∧
      (u.declareAll ["Util"]).2.typeRef? "Shape" = some ⟨"Shape", 7⟩ := by
  intro u
  obtain ⟨-, hhandle, -, hagain, -, hstays⟩ := handles_of_declarations builtinNames
    ["Shape", "int", "Shape", "Calc"] (by decide)
  have hint : u.resolve? "int" = some 5 := by
    obtain ⟨handle, hresolve, hnumber⟩ := hhandle ["void", "object", "type", "str", "num"] "int"
      ["bool", "Shape", "int", "Shape", "Calc"] rfl (by decide)
    rw [show handle = 5 from UInt32.toNat_inj.1 hnumber] at hresolve
    exact hresolve
  have hcalc : u.resolve? "Calc" = some 8 := by
    obtain ⟨handle, hresolve, hnumber⟩ := hhandle (builtinNames ++ ["Shape", "int", "Shape"])
      "Calc" [] rfl (by decide)
    rw [show handle = 8 from UInt32.toNat_inj.1 hnumber] at hresolve
    exact hresolve
  have hshape : (u.resolve? "Shape").isSome := by decide +kernel
  exact ⟨hint, hcalc, (hagain "Shape" hshape).1,
    hstays ⟨"Shape", 7⟩ (by decide +kernel) ["Util"]⟩

end TypeUniverse

end TreeBytecode
