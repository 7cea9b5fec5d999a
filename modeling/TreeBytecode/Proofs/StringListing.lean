import Mathlib.Data.List.Forall2
import TreeBytecode.Outline.Node
import TreeBytecode.Proofs.TextLines

namespace TreeBytecode.StringTable

variable {t t' : StringTable}

theorem length_repr (n : Nat) : n.repr.length = digitCount n := by
  rw [Nat.repr_eq_ofList_toDigits, String.length_ofList]
  induction n using Nat.strongRecOn with
  | _ n ih =>
    rw [digitCount]
    by_cases hn : n < 10
    · rw [if_pos hn, Nat.toDigits_of_lt_base hn, List.length_singleton]
    · have hlt : n / 10 < n := by omega
      rw [if_neg hn, Nat.toDigits_of_base_le (by decide) (by omega), List.length_append, ih _ hlt,
        List.length_singleton]

theorem digitCount_mono {m n : Nat} (h : m ≤ n) : digitCount m ≤ digitCount n := by
  induction n using Nat.strongRecOn generalizing m with
  | _ n ih =>
    unfold digitCount
    by_cases hm : m < 10
    · rw [if_pos hm]
      split <;> omega
    · have hle : m / 10 ≤ n / 10 := Nat.div_le_div_right h
      rw [if_neg hm, if_neg (by omega)]
      exact Nat.succ_le_succ (ih _ (by omega) hle)

theorem toList_paddedId (width id : Nat) : (paddedId width id).toList =
    List.replicate (width - digitCount id) '0' ++ id.repr.toList := by
  rw [← length_repr, Nat.repr_eq_ofList_toDigits, String.length_ofList, String.toList_ofList,
    paddedId, String.toList_ofList]

theorem digitCount_le_idWidth {n : Nat} (h : n < t.size) :
    digitCount (UInt32.ofNat n).toNat ≤ t.idWidth := by
  have hle : (UInt32.ofNat n).toNat ≤ n := by
    rw [UInt32.toNat_ofNat']
    exact Nat.mod_le _ _
  exact digitCount_mono (by omega)

theorem length_paddedId {n : Nat} (h : n < t.size) :
    (paddedId t.idWidth (UInt32.ofNat n).toNat).toList.length = t.idWidth := by
  have hle := digitCount_le_idWidth h
  rw [toList_paddedId, List.length_append, List.length_replicate, String.length_toList, length_repr]
  omega

def entryLine (width : Nat) (e : Nat × String) : List Char :=
  'S' :: (paddedId width (UInt32.ofNat e.1).toNat).toList ++ ' ' :: (Text.quote e.2).toList

def listing (t : StringTable) : List (List Char) :=
  "[strings]".toList :: t.entries.map (entryLine t.idWidth)

theorem toList_dump (t : StringTable) : t.dump.toList = t.listing.flatMap (· ++ ['\n']) := by
  have hhead : "[strings]\n".toList = "[strings]".toList ++ ['\n'] := by decide
  have hline (e : Nat × String) : ("S" ++ paddedId t.idWidth (UInt32.ofNat e.1).toNat ++ " " ++
      Text.quote e.2 ++ "\n").toList = entryLine t.idWidth e ++ ['\n'] := by
    simp [entryLine]
  simp only [dump, listing, String.toList_append (s := "[strings]\n"), String.toList_join, hhead,
    List.flatMap_cons, List.flatMap_map, hline]

theorem newline_not_mem_entryLine (width : Nat) (e : Nat × String) : '\n' ∉ entryLine width e := by
  intro h
  suffices hle : ∀ c ∈ entryLine width e, ' '.toNat ≤ c.toNat from absurd (hle _ h) (by decide)
  intro c hc
  rw [entryLine, toList_paddedId] at hc
  simp only [List.cons_append, List.append_assoc, List.mem_cons, List.mem_append,
    List.mem_replicate] at hc
  obtain rfl | ⟨-, rfl⟩ | hd | rfl | hq := hc
  · decide
  · decide
  · exact Text.clean_natRepr _ c hd
  · decide
  · exact Text.le_of_mem_quote hq

theorem splitOn_dump (t : StringTable) : t.dump.toList.splitOn '\n' = t.listing ++ [[]] := by
  rw [toList_dump]
  apply Text.splitOn_lines
  refine List.forall_mem_cons.2 ⟨by decide, ?_⟩
  exact List.forall_mem_map.2 fun e _ ↦ newline_not_mem_entryLine _ e

theorem length_entries (t : StringTable) : t.entries.length = t.size := List.length_mapIdx

theorem eq_of_entries (h : t.entries = t'.entries) : t = t' := by
  have hwords (u : StringTable) : u.entries.map Prod.snd = u.words :=
    List.ext_getElem? fun i ↦ by simp [entries_eq, Function.comp_def]
  exact StringTable.ext (by rw [← hwords t, h, hwords t'])

theorem entryLine_inj {width : Nat} {n : Nat} {s s' : String}
    (h : entryLine width (n, s) = entryLine width (n, s')) : s = s' := by
  have hquoted := (List.cons.inj (List.append_cancel_left h)).2
  exact Text.quote_injective (String.toList_inj.1 hquoted)

theorem entries_of_listing (h : t.listing = t'.listing) : t.entries = t'.entries := by
  have hlines := (List.cons.inj h).2
  have hsize : t.words.length = t'.words.length := by
    have hlength := congrArg List.length hlines
    rwa [List.length_map, List.length_map, length_entries, length_entries] at hlength
  have hwidth : t.idWidth = t'.idWidth := congrArg (fun n ↦ digitCount (n - 1)) hsize
  suffices hwords : t.words = t'.words by rw [entries_eq, entries_eq, hwords]
  refine List.ext_getElem hsize fun i hi hi' ↦ ?_
  have hline := congrArg (·[i]?) hlines
  rw [hwidth] at hline
  simp only [entries_eq, List.getElem?_map, List.getElem?_mapIdx, List.getElem?_eq_getElem hi,
    List.getElem?_eq_getElem hi', Option.map_some, Option.some.injEq] at hline
  exact entryLine_inj hline

/-- The listing has a heading and a line for each entry, in the order of the entries. The ids, of
32 bits, are filled with zeros to the width of the largest number below the size, and what is listed
can be told from the listing. -/
theorem listed_line_by_line (t t' : StringTable) :
    (∃ lines, t.dump.toList.splitOn '\n' = "[strings]".toList :: lines ++ [[]] ∧
      lines.length = t.size ∧
      List.Forall₂ (fun line e ↦ ∃ column : List Char,
        line = 'S' :: column ++ ' ' :: (Text.quote e.2).toList ∧
        (∃ zeros, column = List.replicate zeros '0' ++ (UInt32.ofNat e.1).toNat.repr.toList) ∧
        column.length = (t.size - 1).repr.length) lines t.entries) ∧
    (t.dump = t'.dump ↔ t.entries = t'.entries) := by
  constructor
  · refine ⟨t.entries.map (entryLine t.idWidth), splitOn_dump t, ?_, ?_⟩
    · rw [List.length_map, length_entries]
    · rw [List.forall₂_map_left_iff, List.forall₂_same]
      rintro ⟨n, s⟩ he
      have hn : n < t.size := by
        obtain ⟨i, hi, heq⟩ := List.mem_mapIdx.1 he
        obtain rfl := (Prod.mk.inj heq).1
        exact hi
      refine ⟨_, rfl, ⟨_, toList_paddedId _ _⟩, ?_⟩
      rw [length_paddedId hn, length_repr, idWidth]
  · constructor
    · intro h
      have hsplit := splitOn_dump t
      rw [h, splitOn_dump t'] at hsplit
      exact entries_of_listing (List.append_cancel_right hsplit.symm)
    · intro h
      rw [eq_of_entries h]

end TreeBytecode.StringTable
