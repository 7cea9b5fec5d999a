import TreeBytecode.StringTable
import TreeBytecode.Tree.TypeRef

namespace TreeBytecode.StringTable

variable {t u : StringTable} {s : String} {n : Nat}

theorem get?_mono (h : t.words <+: u.words) (hn : t.get? n = some s) : u.get? n = some s := by
  obtain ⟨ws, hs⟩ := h
  have hlt := (List.getElem?_eq_some_iff.1 hn).1
  rw [get?, ← hs, List.getElem?_append_left hlt]
  exact hn

theorem find?_mono (h : t.words <+: u.words) (hs : t.find? s = some n) :
    u.find? s = some n :=
  find?_eq_some_iff.2 (get?_mono h (find?_eq_some_iff.1 hs))

theorem prefix_insert (t : StringTable) (s : String) : t.words <+: (t.insert s).words := by
  by_cases h : s ∈ t
  · exact ⟨[], by rw [List.append_nil, insert_of_mem h]⟩
  · exact ⟨[s], (words_insert_of_not_mem h).symm⟩

theorem mem_insert {x : String} : x ∈ t.insert s ↔ x ∈ t ∨ x = s := by
  by_cases h : s ∈ t
  · rw [insert_of_mem h]
    exact (or_iff_left_of_imp fun hx ↦ hx ▸ h).symm
  · rw [mem_def, words_insert_of_not_mem h, List.mem_append, List.mem_singleton]
    rfl

theorem prefix_foldl_insert (t : StringTable) (ws : List String) :
    t.words <+: (ws.foldl insert t).words := by
  induction ws generalizing t with
  | nil => exact List.prefix_rfl
  | cons s ws ih => exact (prefix_insert t s).trans (ih (t.insert s))

theorem mem_foldl_insert {ws : List String} {x : String} :
    x ∈ ws.foldl insert t ↔ x ∈ t ∨ x ∈ ws := by
  induction ws generalizing t with
  | nil => simp
  | cons s ws ih => rw [List.foldl_cons, ih, mem_insert, List.mem_cons, or_assoc]

theorem lt_size_of_find? (h : t.find? s = some n) : n < t.size :=
  (List.getElem?_eq_some_iff.1 (find?_eq_some_iff.1 h)).1

theorem mem_of_find? (h : t.find? s = some n) : s ∈ t := by
  by_cases hs : s ∈ t
  · exact hs
  · rw [find?_eq_none_iff.2 hs] at h
    exact absurd h (by simp)

theorem number_of_find? (h : t.find? s = some n) : t.number s = n := by
  rw [number, h, Option.getD_some]

end TreeBytecode.StringTable

namespace TreeBytecode.TypeUniverse

variable {u : TypeUniverse} {name : String} {handle : UInt32}

theorem resolve?_declare (h : u.resolve? name = some handle) (x : String) :
    (u.declare x).2.resolve? name = some handle := by
  cases hx : u.resolve? x with
  | some known => rwa [declare_of_known hx]
  | none =>
    rw [declare_of_new hx]
    change (u.types ++ _).lookup name = some handle
    rw [List.lookup_append, show u.types.lookup name = some handle from h, Option.some_or]

theorem resolve?_foldl_declare (h : u.resolve? name = some handle) (names : List String) :
    (names.foldl (fun u x ↦ (u.declare x).2) u).resolve? name = some handle := by
  induction names generalizing u with
  | nil => exact h
  | cons x names ih => exact ih (resolve?_declare h x)

end TreeBytecode.TypeUniverse
