import TreeBytecode.Proofs.Lookup

namespace TreeBytecode

variable {members indexed : List ClassMember} {m : ClassMember} {name : String} {i : Nat}

/-- The last member with a name stands at a position. -/
def IsLast (members : List ClassMember) (name : String) (i : Nat) : Prop :=
  (∃ m, members[i]? = some m ∧ m.name = name) ∧
    ∀ j m, i < j → members[j]? = some m → m.name ≠ name

theorem getElem?_concat_eq_some_iff {n : ClassMember} :
    (members ++ [m])[i]? = some n ↔ members[i]? = some n ∨ i = members.length ∧ m = n := by
  rcases Nat.lt_trichotomy i members.length with hlt | rfl | hgt
  · rw [List.getElem?_append_left hlt]
    exact (or_iff_left fun h ↦ Nat.ne_of_lt hlt h.1).symm
  · simp
  · have hout : (members ++ [m]).length ≤ i := by
      rw [List.length_append, List.length_singleton]
      exact hgt
    rw [List.getElem?_eq_none hout, List.getElem?_eq_none (Nat.le_of_lt hgt)]
    simp [Nat.ne_of_gt hgt]

theorem isLast_concat_self : IsLast (members ++ [m]) m.name i ↔ i = members.length := by
  simp only [IsLast, getElem?_concat_eq_some_iff]
  constructor
  · rintro ⟨⟨n, hn, -⟩, hlast⟩
    by_contra hne
    have hlt : i < members.length := by
      obtain hn | ⟨hi, -⟩ := hn
      · exact (List.getElem?_eq_some_iff.1 hn).1
      · exact absurd hi hne
    exact hlast members.length m hlt (.inr ⟨rfl, rfl⟩) rfl
  · rintro rfl
    refine ⟨⟨m, .inr ⟨rfl, rfl⟩, rfl⟩, fun j n hj hn ↦ ?_⟩
    obtain hn | ⟨hj', -⟩ := hn
    · exact absurd (List.getElem?_eq_some_iff.1 hn).1 (Nat.not_lt_of_gt hj)
    · exact absurd hj' (Nat.ne_of_gt hj)

theorem isLast_concat_of_ne (h : m.name ≠ name) :
    IsLast (members ++ [m]) name i ↔ IsLast members name i := by
  simp only [IsLast, getElem?_concat_eq_some_iff]
  constructor
  · rintro ⟨⟨n, hn | ⟨-, rfl⟩, hname⟩, hlast⟩
    · exact ⟨⟨n, hn, hname⟩, fun j k hj hk ↦ hlast j k hj (.inl hk)⟩
    · exact absurd hname h
  · rintro ⟨⟨n, hn, hname⟩, hlast⟩
    refine ⟨⟨n, .inl hn, hname⟩, fun j k hj hk ↦ ?_⟩
    obtain hk | ⟨-, rfl⟩ := hk
    · exact hlast j k hj hk
    · exact h

theorem lookup_memberIndex_eq_some_iff :
    (memberIndex members).lookup name = some i ↔ IsLast members name i := by
  induction members using List.reverseRecOn with
  | nil => simp [memberIndex, IsLast]
  | append_singleton members m ih =>
    rw [memberIndex_concat, List.lookup_cons]
    by_cases hm : m.name = name
    · subst hm
      rw [beq_self_eq_true, isLast_concat_self, Option.some.injEq, eq_comm]
    · rw [beq_false_of_ne (Ne.symm hm), isLast_concat_of_ne hm]
      exact ih

theorem lookup_memberIndex_eq_none_iff :
    (memberIndex members).lookup name = none ↔ ∀ m ∈ members, m.name ≠ name := by
  have hlookup := lookup_memberIndex members name
  constructor
  · intro h m hm
    rw [h, Option.bind_none, eq_comm, List.find?_eq_none] at hlookup
    simpa using hlookup m (List.mem_reverse.2 hm)
  · intro h
    rw [Option.eq_none_iff_forall_ne_some]
    intro i hi
    obtain ⟨⟨m, hm, hname⟩, -⟩ := lookup_memberIndex_eq_some_iff.1 hi
    exact h m (List.mem_of_getElem? hm) hname

/-- What a lookup finds is the member that stands now where the last one with the name stood among
those that were indexed, a position that is still in range, and nothing if none of them had it. -/
structure FindsLast (indexed now : List ClassMember) (name : String)
    (found : Option ClassMember) : Prop where
  absent : (∀ m ∈ indexed, m.name ≠ name) → found = none
  present : ∀ i, IsLast indexed name i → ∃ h : i < now.length, found = some now[i]

namespace Class

variable {c : Class}

theorem findsLast_of_index (h : c.index = some (memberIndex indexed))
    (hlength : indexed.length ≤ c.members.length) (name : String) :
    FindsLast indexed c.members name (c.member? name) := by
  rw [member?, h]
  constructor
  case absent =>
    intro habsent
    simp only [lookup_memberIndex_eq_none_iff.2 habsent, Option.bind_none]
  case present =>
    intro i hi
    have hlookup := lookup_memberIndex_eq_some_iff.2 hi
    have hlt := Nat.lt_of_lt_of_le (lt_length_of_lookup hlookup) hlength
    refine ⟨hlt, ?_⟩
    simp only [hlookup, Option.bind_some, List.getElem?_eq_getElem hlt]

/-- Before a class is frozen its members are found as if it had just been. -/
theorem findsLast_of_unfrozen (h : c.index = none) (name : String) :
    FindsLast c.members c.members name (c.member? name) := by
  let frozen : Class := { c with index := some (memberIndex c.members) }
  have hfrozen : frozen.member? name = c.member? name := by
    rw [member?_of_index (c := frozen) rfl, member?, h]
  rw [← hfrozen]
  exact findsLast_of_index (c := frozen) rfl (Nat.le_refl _) name

/-- What is done to a class, or asked of it. -/
inductive Action
  | push (m : ClassMember)
  | replace (i : Nat) (m : ClassMember)
  | swap (i j : Nat)
  | freeze
  | find (name : String)

def Action.edits : Action → Bool
  | .push _ | .replace .. | .swap .. => true
  | .freeze | .find _ => false

def act (c : Class) : Action → Class
  | .push m => c.push m
  | .replace i m => c.replace i m
  | .swap i j => c.swap i j
  | .freeze => c.freeze.2
  | .find _ => c

def run (c : Class) (actions : List Action) : Class := actions.foldl act c

variable {action : Action} {actions : List Action} {index : List (String × Nat)}

theorem swap_eq (c : Class) (i j : Nat) :
    ∃ members, c.swap i j = { c with members } ∧ members.length = c.members.length := by
  rw [swap]
  split
  · exact ⟨_, rfl, by rw [List.length_set, List.length_set]⟩
  · refine ⟨c.members, ?_, rfl⟩
    cases c
    rfl

theorem freeze_of_some (h : c.index = some index) : c.freeze = (false, c) := by
  rw [freeze, h]

theorem freeze_of_none (h : c.index = none) :
    c.freeze = (true, { c with index := some (memberIndex c.members) }) := by
  rw [freeze, h]

theorem index_act_of_ne (h : action ≠ .freeze) : (c.act action).index = c.index := by
  cases action with
  | push | replace | find => rfl
  | swap i j =>
    obtain ⟨members, hswap, -⟩ := c.swap_eq i j
    rw [act, hswap]
  | freeze => exact absurd rfl h

theorem index_act_of_some (h : c.index = some index) : (c.act action).index = some index := by
  by_cases hfreeze : action = .freeze
  · rw [hfreeze, act, freeze_of_some h, h]
  · rw [index_act_of_ne hfreeze, h]

theorem members_freeze (c : Class) : c.freeze.2.members = c.members := by
  rw [freeze]
  split <;> rfl

theorem length_act (c : Class) (action : Action) :
    c.members.length ≤ (c.act action).members.length := by
  cases action with
  | push m =>
    rw [act, push, List.length_append]
    exact Nat.le_add_right _ _
  | replace i m => exact Nat.le_of_eq List.length_set.symm
  | swap i j =>
    obtain ⟨members, hswap, hlength⟩ := c.swap_eq i j
    rw [act, hswap]
    exact Nat.le_of_eq hlength.symm
  | freeze => exact Nat.le_of_eq (congrArg List.length (members_freeze c)).symm
  | find => exact Nat.le_refl _

theorem members_act (h : action.edits = false) : (c.act action).members = c.members := by
  cases action with
  | push | replace | swap => cases h
  | freeze => exact members_freeze c
  | find => rfl

theorem index_run_of_not_mem (c : Class) (h : .freeze ∉ actions) :
    (c.run actions).index = c.index := by
  induction actions generalizing c with
  | nil => rfl
  | cons action actions ih =>
    have haction : action ≠ .freeze := (List.ne_of_not_mem_cons h).symm
    exact (ih (c.act action) (List.not_mem_of_not_mem_cons h)).trans (index_act_of_ne haction)

theorem index_run_of_some (h : c.index = some index) : (c.run actions).index = some index := by
  induction actions generalizing c with
  | nil => exact h
  | cons action actions ih => exact ih (index_act_of_some h)

theorem length_run (c : Class) (actions : List Action) :
    c.members.length ≤ (c.run actions).members.length := by
  induction actions generalizing c with
  | nil => exact Nat.le_refl _
  | cons action actions ih => exact Nat.le_trans (length_act c action) (ih (c.act action))

theorem members_run (h : ∀ action ∈ actions, action.edits = false) :
    (c.run actions).members = c.members := by
  induction actions generalizing c with
  | nil => rfl
  | cons action actions ih =>
    obtain ⟨haction, hactions⟩ := List.forall_mem_cons.1 h
    exact (ih hactions).trans (members_act haction)

/-- What is fixed when a class is frozen for the first time: the index of the members that it has
then. -/
theorem run_of_first_freeze {before : List Action} (h : c.index = none)
    (hfirst : .freeze ∉ before) (later : List Action) :
    let indexed := (c.run before).members
    let now := c.run (before ++ .freeze :: later)
    now.index = some (memberIndex indexed) ∧ indexed.length ≤ now.members.length ∧
      ((∀ action ∈ later, action.edits = false) → now.members = indexed) := by
  intro indexed now
  have hopen : (c.run before).index = none := (index_run_of_not_mem c hfirst).trans h
  have hnow : now = ((c.run before).freeze.2).run later := by
    simp only [now, run, List.foldl_append, List.foldl_cons, act]
  have hfrozen : (c.run before).freeze.2.index = some (memberIndex indexed) := by
    rw [freeze_of_none hopen]
  have hmembers := members_freeze (c.run before)
  refine ⟨?_, ?_, fun hedits ↦ ?_⟩
  · rw [hnow]
    exact index_run_of_some hfrozen
  · have hlength := length_run (c.run before).freeze.2 later
    rwa [hmembers, ← hnow] at hlength
  · rw [hnow, members_run hedits, hmembers]

theorem isSome_index_run (h : c.index = none) :
    (c.run actions).index.isSome ↔ .freeze ∈ actions := by
  constructor
  · intro hsome
    by_contra hnever
    rw [index_run_of_not_mem c hnever, h] at hsome
    cases hsome
  · intro hmem
    obtain ⟨before, later, rfl, hfirst⟩ := List.eq_append_cons_of_mem hmem
    rw [(run_of_first_freeze h hfirst later).1]
    rfl

/-- In the life of any class: freezing it succeeds the first time and does nothing from then on.
Before it is frozen the last member with a name is found; from then on, whatever is done to the
members, the one at the position that the last member with the name had at that time. So as long as
they are left alone, the same members are found as without an index. -/
theorem member?_of_run (kind : ClassKind) (modifiers : Modifiers) (name : String)
    (actions : List Action) :
    let shell := Class.shell kind modifiers name
    let c := shell.run actions
    (c.freeze.1 = true ↔ .freeze ∉ actions) ∧ (.freeze ∈ actions → c.freeze.2 = c) ∧
    (.freeze ∉ actions → ∀ name, FindsLast c.members c.members name (c.member? name)) ∧
    ∀ before later, actions = before ++ .freeze :: later → .freeze ∉ before →
      (∀ name, FindsLast (shell.run before).members c.members name (c.member? name)) ∧
      ((∀ action ∈ later, action.edits = false) →
        ∀ name, c.member? name = { c with index := none }.member? name) := by
  intro shell c
  have hshell : shell.index = none := rfl
  refine ⟨?_, fun hfrozen ↦ ?_, fun hopen name ↦ ?_, ?_⟩
  · rw [← isSome_index_run hshell, Option.not_isSome_iff_eq_none]
    cases hc : c.index with
    | none => simp only [freeze_of_none hc]
    | some index => simp [freeze_of_some hc]
  · obtain ⟨index, hindex⟩ := Option.isSome_iff_exists.1 ((isSome_index_run hshell).2 hfrozen)
    rw [freeze_of_some hindex]
  · exact findsLast_of_unfrozen ((index_run_of_not_mem shell hopen).trans hshell) name
  · rintro before later hactions hfirst
    obtain ⟨hindex, hlength, hmembers⟩ := run_of_first_freeze hshell hfirst later
    rw [← hactions] at hindex hlength hmembers
    refine ⟨findsLast_of_index hindex hlength, fun hedits name ↦ ?_⟩
    rw [← hmembers hedits] at hindex
    exact member?_of_index hindex name

end Class

end TreeBytecode
