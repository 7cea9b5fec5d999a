import TreeBytecode.Numbering
import TreeBytecode.Wire.Failure

namespace TreeBytecode

open Wire (Failure)

/-- Strings in the order in which they were interned, and a map from each string to its id. -/
structure StringTable.Raw where
  map : Numbering
  strings : List String
deriving DecidableEq, Inhabited

namespace StringTable.Raw

variable {t : Raw} {s : String}

def empty : Raw := ⟨[], []⟩

def size (t : Raw) : Nat := t.strings.length

def id? (t : Raw) (s : String) : Option UInt32 := t.map.lookup s

def string? (t : Raw) (id : UInt32) : Option String := t.strings[id.toNat]?

def entries (t : Raw) : List (Nat × String) := t.strings.mapIdx Prod.mk

/-- A string that is not in the map goes to the end of the list, and its place into the map. -/
def intern (t : Raw) (s : String) : UInt32 × Raw :=
  match t.id? s with
  | some id => (id, t)
  | none =>
    let id := UInt32.ofNat t.strings.length
    (id, { map := t.map.put s id, strings := t.strings ++ [s] })

/-- The map has the strings of the list, each with its place. -/
structure InStep (t : Raw) : Prop where
  distinct : t.strings.Nodup
  map_eq : t.map = .ofNames t.strings

theorem inStep_empty : empty.InStep := ⟨List.nodup_nil, rfl⟩

namespace InStep

theorem id?_eq (h : t.InStep) (s : String) :
    t.id? s = (t.strings.idxOf? s).map UInt32.ofNat := by
  rw [id?, h.map_eq, Numbering.lookup_ofNames]

theorem id?_eq_none_iff (h : t.InStep) : t.id? s = none ↔ s ∉ t.strings := by
  rw [id?, h.map_eq, Numbering.lookup_ofNames_eq_none_iff]

theorem intern (h : t.InStep) (s : String) : (t.intern s).2.InStep := by
  rw [Raw.intern]
  split
  · exact h
  · next hs =>
    have hnew := h.id?_eq_none_iff.1 hs
    constructor
    · refine List.nodup_append.2 ⟨h.distinct, by simp, ?_⟩
      rintro a ha b hb rfl
      obtain rfl := List.mem_singleton.1 hb
      exact hnew ha
    · dsimp only
      rw [h.map_eq, Numbering.put_ofNames hnew]

end InStep

end StringTable.Raw

structure StringTable where
  raw : StringTable.Raw
  inStep : raw.InStep

namespace StringTable

variable {t u : StringTable} {s : String} {n : Nat}

def empty : StringTable := ⟨.empty, Raw.inStep_empty⟩

instance : Inhabited StringTable := ⟨empty⟩

def words (t : StringTable) : List String := t.raw.strings

def size (t : StringTable) : Nat := t.raw.size

def id? (t : StringTable) (s : String) : Option UInt32 := t.raw.id? s

def string? (t : StringTable) (id : UInt32) : Option String := t.raw.string? id

def entries (t : StringTable) : List (Nat × String) := t.raw.entries

def intern (t : StringTable) (s : String) : UInt32 × StringTable :=
  ((t.raw.intern s).1, ⟨(t.raw.intern s).2, t.inStep.intern s⟩)

def insert (t : StringTable) (s : String) : StringTable := (t.intern s).2

def ofList (words : List String) : StringTable := words.foldl insert empty

/-- Outside any stream, so that the failure has no place in one. -/
def resolve (t : StringTable) (id : UInt32) : Except Failure String :=
  match t.string? id with
  | some s => .ok s
  | none => .error (.unresolved (.stringId id.toNat) .outside)

def find? (t : StringTable) (s : String) : Option Nat := t.words.idxOf? s

def get? (t : StringTable) (n : Nat) : Option String := t.words[n]?

def number (t : StringTable) (s : String) : Nat := (t.find? s).getD t.size

instance : Membership String StringTable := ⟨fun t s ↦ s ∈ t.words⟩

instance (s : String) (t : StringTable) : Decidable (s ∈ t) :=
  inferInstanceAs (Decidable (s ∈ t.words))

theorem distinct (t : StringTable) : t.words.Nodup := t.inStep.distinct

@[ext] theorem ext (h : t.words = u.words) : t = u := by
  obtain ⟨⟨map, strings⟩, ht⟩ := t
  obtain ⟨⟨map', strings'⟩, hu⟩ := u
  obtain rfl : strings = strings' := h
  obtain rfl : map = map' := ht.map_eq.trans hu.map_eq.symm
  rfl

instance : DecidableEq StringTable := fun _ _ ↦
  decidable_of_iff _ ⟨ext, congrArg words⟩

theorem mem_def : s ∈ t ↔ s ∈ t.words := Iff.rfl

theorem entries_eq (t : StringTable) : t.entries = t.words.mapIdx Prod.mk := rfl

theorem id?_eq (t : StringTable) (s : String) : t.id? s = (t.find? s).map UInt32.ofNat :=
  t.inStep.id?_eq s

theorem find?_eq_none_iff : t.find? s = none ↔ s ∉ t := by
  rw [find?, List.idxOf?_eq_none_iff]
  rfl

theorem find?_eq_some_iff : t.find? s = some n ↔ t.get? n = some s := by
  rw [find?, get?, List.idxOf?_eq_some_iff, List.getElem?_eq_some_iff]
  constructor
  · rintro ⟨h, hs, -⟩
    exact ⟨h, hs⟩
  · rintro ⟨h, hs⟩
    refine ⟨h, hs, fun j hj hjs ↦ ?_⟩
    have := (List.getElem_inj t.distinct).1 (hjs.trans hs.symm)
    omega

theorem isSome_id?_iff : (t.id? s).isSome ↔ s ∈ t := by
  rw [id?_eq, Option.isSome_map, ← Option.ne_none_iff_isSome, ne_eq, find?_eq_none_iff,
    Decidable.not_not]

theorem intern_of_mem (h : s ∈ t) : t.intern s = (UInt32.ofNat (t.number s), t) := by
  obtain ⟨n, hn⟩ := Option.ne_none_iff_exists'.1 (mt find?_eq_none_iff.1 (not_not_intro h))
  have hid : t.raw.id? s = some (UInt32.ofNat n) := by
    rw [t.inStep.id?_eq]
    exact congrArg (Option.map UInt32.ofNat) hn
  simp only [intern, Raw.intern, hid, number, hn, Option.getD_some]

theorem id?_of_not_mem (h : s ∉ t) : t.raw.id? s = none :=
  t.inStep.id?_eq_none_iff.2 h

theorem insert_of_mem (h : s ∈ t) : t.insert s = t :=
  congrArg Prod.snd (intern_of_mem h)

theorem words_insert_of_not_mem (h : s ∉ t) : (t.insert s).words = t.words ++ [s] := by
  simp only [insert, intern, words, Raw.intern, id?_of_not_mem h]

theorem intern_eq (t : StringTable) (s : String) :
    t.intern s = (UInt32.ofNat (t.number s), t.insert s) := by
  by_cases h : s ∈ t
  · rw [insert_of_mem h, intern_of_mem h]
  · refine Prod.ext ?_ rfl
    rw [number, find?_eq_none_iff.2 h, Option.getD_none, size, Raw.size]
    simp only [intern, Raw.intern, id?_of_not_mem h]

theorem find?_insert_self (t : StringTable) (s : String) :
    (t.insert s).find? s = some (t.number s) := by
  by_cases h : s ∈ t
  · obtain ⟨n, hn⟩ := Option.ne_none_iff_exists'.1 (mt find?_eq_none_iff.1 (not_not_intro h))
    rw [insert_of_mem h, number, hn, Option.getD_some]
  · rw [find?_eq_some_iff, get?, words_insert_of_not_mem h, number, find?_eq_none_iff.2 h,
      Option.getD_none]
    exact List.getElem?_concat_length

theorem string?_intern (h : t.number s < UInt32.size) :
    (t.intern s).2.string? (t.intern s).1 = some s := by
  have hfind := find?_eq_some_iff.1 (find?_insert_self t s)
  rw [intern_eq, string?, Raw.string?, UInt32.toNat_ofNat_of_lt' h]
  exact hfind

end StringTable

end TreeBytecode
