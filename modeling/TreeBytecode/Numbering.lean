namespace TreeBytecode

abbrev Numbering := List (String × UInt32)

namespace Numbering

variable {names : List String} {name : String}

def put (m : Numbering) (name : String) (n : UInt32) : Numbering :=
  m.filter (fun entry ↦ entry.1 ≠ name) ++ [(name, n)]

def orPut (m : Numbering) (name : String) (n : UInt32) : UInt32 × Numbering :=
  match m.lookup name with
  | some old => (old, m)
  | none => (n, m ++ [(name, n)])

def ofNames (names : List String) : Numbering :=
  names.mapIdx fun i name ↦ (name, UInt32.ofNat i)

theorem lookup_mapIdx (f : Nat → UInt32) (names : List String) (name : String) :
    (names.mapIdx fun i name ↦ (name, f i)).lookup name = (names.idxOf? name).map f := by
  induction names generalizing f with
  | nil => rfl
  | cons head names ih =>
    rw [List.mapIdx_cons, List.lookup_cons, List.idxOf?_cons, ih fun i ↦ f (i + 1)]
    by_cases h : name = head
    · simp [h]
    · have hne : (head == name) = false := beq_false_of_ne (Ne.symm h)
      simp [beq_false_of_ne h, hne, Function.comp_def]

theorem lookup_ofNames (names : List String) (name : String) :
    (ofNames names).lookup name = (names.idxOf? name).map UInt32.ofNat :=
  lookup_mapIdx UInt32.ofNat names name

theorem lookup_ofNames_eq_none_iff : (ofNames names).lookup name = none ↔ name ∉ names := by
  rw [lookup_ofNames, Option.map_eq_none_iff, List.idxOf?_eq_none_iff]

theorem length_ofNames (names : List String) : (ofNames names).length = names.length :=
  List.length_mapIdx

theorem ofNames_concat (names : List String) (name : String) :
    ofNames (names ++ [name]) = ofNames names ++ [(name, UInt32.ofNat names.length)] :=
  List.mapIdx_concat

theorem put_ofNames (h : name ∉ names) :
    (ofNames names).put name (UInt32.ofNat names.length) = ofNames (names ++ [name]) := by
  have hkept : (ofNames names).filter (fun entry ↦ entry.1 ≠ name) = ofNames names := by
    refine List.filter_eq_self.2 fun entry hentry ↦ decide_eq_true ?_
    obtain ⟨i, hi, rfl⟩ := List.mem_mapIdx.1 hentry
    rintro rfl
    exact h (List.getElem_mem hi)
  rw [put, hkept, ofNames_concat]

end Numbering

end TreeBytecode
