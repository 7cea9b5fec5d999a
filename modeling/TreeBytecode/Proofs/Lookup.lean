import Mathlib.Data.List.Induction
import TreeBytecode.Tree.Declaration

namespace TreeBytecode

variable {members : List ClassMember} {name : String} {i : Nat}

theorem memberIndex_concat (members : List ClassMember) (m : ClassMember) :
    memberIndex (members ++ [m]) = (m.name, members.length) :: memberIndex members := by
  simp [memberIndex, List.mapIdx_append]

/-- Positions in an index are positions of members. -/
theorem lt_length_of_lookup (h : (memberIndex members).lookup name = some i) :
    i < members.length := by
  induction members using List.reverseRecOn with
  | nil => cases h
  | append_singleton members m ih =>
    rw [memberIndex_concat, List.lookup_cons] at h
    rw [List.length_append, List.length_singleton]
    split at h
    · obtain rfl := Option.some.inj h
      exact Nat.lt_succ_self _
    · exact Nat.lt_succ_of_lt (ih h)

theorem lookup_memberIndex (members : List ClassMember) (name : String) :
    ((memberIndex members).lookup name).bind (fun i ↦ members[i]?) =
      members.reverse.find? fun m ↦ m.name == name := by
  induction members using List.reverseRecOn with
  | nil => rfl
  | append_singleton members m ih =>
    rw [memberIndex_concat, List.lookup_cons, List.reverse_concat, List.find?_cons, BEq.comm]
    cases hm : m.name == name with
    | true => exact List.getElem?_concat_length
    | false =>
      rw [← ih]
      apply Option.bind_congr
      intro i hi
      exact List.getElem?_append_left (lt_length_of_lookup hi)

namespace Class

theorem member?_of_index {c : Class} (h : c.index = some (memberIndex c.members)) (name : String) :
    c.member? name = c.members.reverse.find? fun m ↦ m.name == name := by
  rw [member?, h]
  exact lookup_memberIndex c.members name

end Class

end TreeBytecode
