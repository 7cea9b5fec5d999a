import Mathlib.Data.String.Basic
import TreeBytecode.Proofs.Files

namespace TreeBytecode

namespace Path

theorem splitOnAux_slash (before name rest : List Char) (found : List String) :
    (String.ofList (before ++ name ++ rest)).splitOnAux "/" ⟨String.utf8Len before⟩
        ⟨String.utf8Len before + String.utf8Len name⟩ 0 found =
      found.reverse ++ (List.splitOnPPrepend (· == '/') rest name.reverse).map String.ofList := by
  have hslash : String.Pos.Raw.get "/" 0 = '/' := by decide
  have hnext : String.Pos.Raw.next "/" 0 = ⟨1⟩ := by decide
  have hend : String.Pos.Raw.atEnd "/" ⟨1⟩ = true := by decide
  induction rest generalizing before name found with
  | nil =>
    have hlast := String.extract_of_valid before name []
    have hdone := String.atEnd_of_valid (before ++ name) []
    rw [String.splitOnAux]
    simp_all
  | cons c rest ih =>
    have hget := String.get_of_valid (before ++ name) (c :: rest)
    have hnext' := String.next_of_valid (before ++ name) c rest
    have hextract := String.extract_of_valid before name (c :: rest)
    have hgoes := String.atEnd_of_valid (before ++ name) (c :: rest)
    rw [String.utf8Len_append] at hget hnext' hgoes
    have hmore : ¬ String.Pos.Raw.atEnd (String.ofList (before ++ name ++ c :: rest))
        ⟨String.utf8Len before + String.utf8Len name⟩ = true :=
      fun h ↦ List.cons_ne_nil c rest (hgoes.1 h)
    rw [String.splitOnAux, if_neg hmore, hget, hnext', hslash, hnext, List.headD_cons,
      List.splitOnPPrepend_cons_eq_if]
    by_cases hc : (c == '/') = true
    · obtain rfl := eq_of_beq hc
      have hback : String.Pos.Raw.unoffsetBy
          ⟨String.utf8Len before + String.utf8Len name + '/'.utf8Size⟩ ⟨1⟩ =
            ⟨String.utf8Len before + String.utf8Len name⟩ := rfl
      have hrest := ih (before ++ name ++ ['/']) [] (String.ofList name :: found)
      have htext : before ++ name ++ ['/'] ++ [] ++ rest = before ++ name ++ '/' :: rest := by simp
      have hplace : String.utf8Len (before ++ name ++ ['/']) =
          String.utf8Len before + String.utf8Len name + '/'.utf8Size := by simp [Nat.add_assoc]
      rw [htext, hplace, String.utf8Len_nil, Nat.add_zero] at hrest
      rw [if_pos hc, if_pos hc]
      dsimp only
      rw [if_pos hend, hback, hextract, hrest, List.reverse_cons, List.append_assoc,
        List.reverse_reverse]
      rfl
    · have hstay : String.Pos.Raw.unoffsetBy
          ⟨String.utf8Len before + String.utf8Len name⟩ 0 =
            ⟨String.utf8Len before + String.utf8Len name⟩ := rfl
      have hrest := ih before (name ++ [c]) found
      have htext : before ++ (name ++ [c]) ++ rest = before ++ name ++ c :: rest := by simp
      have hplace : String.utf8Len before + String.utf8Len (name ++ [c]) =
          String.utf8Len before + String.utf8Len name + c.utf8Size := by simp [Nat.add_assoc]
      rw [htext, hplace, List.reverse_concat] at hrest
      rw [if_neg hc, if_neg hc, hstay, hnext', hrest]

theorem splitOn_slash (s : String) :
    s.splitOn "/" = (s.toList.splitOn '/').map String.ofList := by
  have haux := splitOnAux_slash [] [] s.toList []
  rw [List.nil_append, List.nil_append, String.ofList_toList] at haux
  exact haux

theorem ofText_eq (s : String) :
    ofText s = ((s.toList.splitOn '/').map String.ofList).filter (· ≠ "") := by
  rw [ofText, splitOn_slash]

section Names

variable {name : String} (hname : '/' ∉ name.toList) (hne : name ≠ "")

include hname in
theorem splitOn_name : (name.toList.splitOn '/').map String.ofList = [name] := by
  rw [List.splitOn_eq_singleton hname, List.map_singleton, String.ofList_toList]

include hname hne in
theorem ofText_name : ofText name = [name] := by
  rw [ofText_eq, splitOn_name hname]
  simp [hne]

include hname hne in
theorem ofText_append_name (s : String) : ofText (s ++ "/" ++ name) = ofText s ++ [name] := by
  have hlist : (s ++ "/" ++ name).toList = s.toList ++ '/' :: name.toList := by simp
  rw [ofText_eq, hlist, List.splitOn_append_cons_self, List.map_append, List.filter_append,
    splitOn_name hname, ← ofText_eq]
  simp [hne]

theorem ofText_append_slash (s : String) : ofText (s ++ "/") = ofText s := by
  have hlist : (s ++ "/").toList = s.toList ++ '/' :: [] := by simp
  rw [ofText_eq, hlist, List.splitOn_append_cons_self, List.map_append, List.filter_append,
    ← ofText_eq]
  simp

include hname hne in
/-- A name without a slash leads one step further, however the text of the directory ends. -/
theorem ofText_joinText (dir : String) :
    ofText (Package.joinText dir name) = ofText dir ++ [name] := by
  have hstart : name.startsWith "/" = false := by
    rw [← Bool.not_eq_true, String.startsWith_string_iff]
    intro hfront
    exact hname (hfront.subset List.mem_cons_self)
  rw [Package.joinText, hstart, Bool.false_or]
  cases hempty : dir.isEmpty with
  | true =>
    obtain rfl := String.isEmpty_iff.1 hempty
    have hroot : ofText "" = [] := by simp [ofText_eq]
    rw [if_pos rfl, ofText_name hname hne, hroot, List.nil_append]
  | false =>
    rw [if_neg Bool.false_ne_true]
    split
    · next hend =>
      rw [← String.endsWith_toSlice, String.Slice.endsWith_string_iff, String.copy_toSlice] at hend
      obtain ⟨parent, hparent⟩ := hend
      obtain rfl : dir = String.ofList parent ++ "/" := by
        rw [← String.toList_inj, ← hparent, String.toList_append, String.toList_ofList]
        simp
      rw [ofText_append_name hname hne, ofText_append_slash]
    · exact ofText_append_name hname hne dir

end Names

end Path

namespace Package

theorem isUsableName_iff {name : String} : isUsableName name = true ↔
    name ≠ "" ∧ name ≠ "." ∧ name ≠ ".." ∧ '/' ∉ name.toList ∧ '\\' ∉ name.toList := by
  have hall : (∀ c ∈ name.toList, c ≠ '/' ∧ c ≠ '\\') ↔
      '/' ∉ name.toList ∧ '\\' ∉ name.toList := by
    rw [← List.forall_mem_ne', ← List.forall_mem_ne', ← forall₂_and]
  simp only [isUsableName, Bool.and_eq_true, decide_eq_true_eq, List.all_eq_true, and_assoc, hall]

/-- The file of a class lies in the directory that a text names, if the class name is usable. -/
theorem ofText_joinText_file {name : String} (h : isUsableName name = true) {extension : String}
    (he : '/' ∉ extension.toList) (dir : String) :
    Path.ofText (joinText dir (name ++ "." ++ extension)) =
      Path.ofText dir ++ [name ++ "." ++ extension] := by
  obtain ⟨-, -, -, hslash, -⟩ := isUsableName_iff.1 h
  apply Path.ofText_joinText
  · simp [hslash, he]
  · intro hempty
    have hlength := congrArg String.length hempty
    simp at hlength

end Package

end TreeBytecode
