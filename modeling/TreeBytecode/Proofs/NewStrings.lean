import TreeBytecode.Proofs.Outputs
import TreeBytecode.Proofs.RoundTrip
import TreeBytecode.Proofs.Strings

namespace TreeBytecode

open Wire

namespace StringTable

variable {l : StringTable} {w : String} {ws xs : List String}

/-- The words that are not in the lexicon yet, each where it occurs first. -/
def missing (l : StringTable) (ws : List String) : List String := (ws.filter (· ∉ l)).eraseDups

theorem missing_cons_of_mem (h : w ∈ l) : l.missing (w :: ws) = l.missing ws := by
  have hfilter : (w :: ws).filter (· ∉ l) = ws.filter (· ∉ l) :=
    List.filter_cons_of_neg (by simpa using h)
  rw [missing, hfilter, missing]

theorem missing_cons_of_not_mem (h : w ∉ l) :
    l.missing (w :: ws) = w :: (l.insert w).missing ws := by
  have hfilter : (w :: ws).filter (· ∉ l) = w :: ws.filter (· ∉ l) :=
    List.filter_cons_of_pos (by simpa using h)
  have hinsert (x : String) : (!x == w && decide (x ∉ l)) = decide (x ∉ l.insert w) := by
    rw [Bool.eq_iff_iff]
    simp only [mem_insert, Bool.and_eq_true, Bool.not_eq_true', beq_eq_false_iff_ne,
      decide_eq_true_eq, not_or]
    exact And.comm
  rw [missing, hfilter, List.eraseDups_cons, List.filter_filter, missing]
  simp only [hinsert]

theorem mem_of_mem_missing (h : w ∈ l.missing ws) : w ∈ ws := by
  rw [missing, List.mem_eraseDups] at h
  exact (List.mem_filter.1 h).1

/-- Inserting words one after another adds those that are missing. -/
theorem words_foldl_insert (l : StringTable) (ws : List String) :
    (ws.foldl insert l).words = l.words ++ l.missing ws := by
  induction ws generalizing l with
  | nil => exact (List.append_nil l.words).symm
  | cons w ws ih =>
    rw [List.foldl_cons, ih]
    by_cases h : w ∈ l
    · rw [insert_of_mem h, missing_cons_of_mem h]
    · rw [words_insert_of_not_mem h, missing_cons_of_not_mem h, List.append_assoc]
      rfl

theorem missing_prefix (h : ws <+: xs) : l.missing ws <+: l.missing xs := by
  obtain ⟨ys, rfl⟩ := h
  rw [missing, missing, List.filter_append, List.eraseDups_append]
  exact List.prefix_append _ _

theorem foldl_insert_of_mem (h : ∀ w ∈ ws, w ∈ l) : ws.foldl insert l = l := by
  induction ws with
  | nil => rfl
  | cons w ws ih =>
    obtain ⟨hw, hws⟩ := List.forall_mem_cons.1 h
    rw [List.foldl_cons, insert_of_mem hw]
    exact ih hws

end StringTable

theorem StringTable.id?_mono {t t' : StringTable} (h : t.words <+: t'.words) {s : String}
    {id : UInt32} (hs : t.id? s = some id) : t'.id? s = some id := by
  rw [id?_eq, Option.map_eq_some_iff] at hs
  obtain ⟨n, hn, rfl⟩ := hs
  rw [id?_eq, find?_mono h hn, Option.map_some]

namespace Node

theorem ownStrings_persisted (n : Node) : n.persisted.ownStrings = n.ownStrings := by
  cases n with
  | classDef c => cases c; rfl
  | _ => rfl

/-- What storage leaves out has no strings. -/
theorem strings_persisted (n : Node) : n.persisted.strings = n.strings := by
  rw [strings, frames_persisted, List.flatMap_map, strings]
  simp only [ownStrings_persisted]

end Node

namespace Adapter

variable {a : Adapter} {n : Node} {sink : Sink} {table : StringTable} {e : Encoder}

/-- Whoever knows all strings of a node learns none from writing it, on whatever output. -/
theorem table_write_of_mem (h : ∀ s ∈ n.strings, s ∈ table) (sink : Sink) :
    (a.write n (.start sink table)).2.table = table := by
  obtain ⟨seen, htable, hseen, -⟩ := a.write_interns n (.start sink table)
  rw [htable]
  exact StringTable.foldl_insert_of_mem fun s hs ↦ h s (hseen.subset hs)

theorem write_of_accepted {bs : Bytes} {sink' : Sink}
    (h : (n.frame a.layout).bytes? table = some bs) (hsink : sink.accept bs = (true, sink')) :
    a.write n (.start sink table) =
      (.ok bs.length, { Encoder.start sink' table with offset := bs.length }) := by
  have hobeys := a.write_steady n (.start sink table)
  have hfull := a.write_of_bytes? h #[]
  have hbytes : Sink.bytes ⟨none, #[] ++ bs⟩ = bs := Array.toList_appendList ..
  rw [show (Encoder.start sink table).unlimited = .start ⟨none, #[]⟩ table from rfl, hfull]
    at hobeys
  apply hobeys.done
  rw [show (Encoder.start ⟨none, #[] ++ bs⟩ table).sink.bytes = bs from hbytes]
  exact hsink

/-- What a writer adds to its table, told by the node and by the fields that are written. -/
theorem exists_added {r : Except Failure Nat} (h : a.write n (.start sink table) = (r, e)) :
    ∃ added, e.table.words = table.words ++ added ∧ added <+: table.missing n.strings ∧
      added <+: table.missing (n.frame a.layout).texts ∧
      ((∃ count, r = .ok count) → added = table.missing n.strings ∧
        added = table.missing (n.frame a.layout).texts) := by
  obtain ⟨seen, htable, hseen, hall⟩ := a.write_interns n (.start sink table)
  obtain ⟨inOrder, htable', hinOrder, hall'⟩ :=
    a.write_interns_of_spells (Field.spells_texts (n.frame a.layout)) (.start sink table)
  rw [h] at htable hall htable' hall'
  have hadded : table.missing seen = table.missing inOrder := by
    apply List.append_cancel_left
    rw [← StringTable.words_foldl_insert, ← StringTable.words_foldl_insert]
    exact congrArg StringTable.words (htable.symm.trans htable')
  refine ⟨table.missing seen, ?_, StringTable.missing_prefix hseen, ?_, ?_⟩
  · rw [show e.table = seen.foldl StringTable.insert table from htable,
      StringTable.words_foldl_insert]
  · rw [hadded]
    exact StringTable.missing_prefix hinOrder
  · intro hok
    obtain ⟨count, hr⟩ := hok
    rw [hall count hr] at hadded ⊢
    rw [hall' count hr] at hadded
    exact ⟨rfl, hadded⟩

/-- After a success, all strings of the node are known, and it is written in the same bytes
again. -/
theorem write_again {count : Nat} (h : a.write n (.start sink table) = (.ok count, e)) :
    (∀ sink', (a.write n (.start sink' e.table)).2.table = e.table) ∧
    (e.table.size ≤ UInt32.size → ∃ bs, e.sink.bytes = sink.bytes ++ bs ∧
      ∀ sink' sink'', sink'.accept bs = (true, sink'') → a.write n (.start sink' e.table) =
        (.ok count, { Encoder.start sink'' e.table with offset := count })) := by
  constructor
  · apply table_write_of_mem
    intro s hs
    obtain ⟨seen, htable, -, hall⟩ := a.write_interns n (.start sink table)
    rw [h] at htable hall
    obtain rfl : seen = n.strings := hall count rfl
    rw [show e.table = n.strings.foldl StringTable.insert table from htable]
    exact StringTable.mem_foldl_insert.2 (.inr hs)
  · intro hsize
    obtain ⟨bs, hbytes, hcount, -, hframe⟩ := write_ok h
    refine ⟨bs, hbytes, fun sink' sink'' haccept ↦ ?_⟩
    rw [hcount]
    exact write_of_accepted (hframe e.table List.prefix_rfl hsize) haccept

/-- A writer adds to its table what it lacks of the strings of the node, in the order in which they
stand in the fields that are written: all of them if it succeeds, and the first of them if not.
Placeholders have none, and ids stay what they are. Whoever writes the same node again adds nothing,
and writes the same bytes. -/
theorem write_adds_missing {r : Except Failure Nat}
    (h : a.write n (.start sink table) = (r, e)) :
    (∃ added, e.table.words = table.words ++ added ∧ added <+: table.missing n.strings ∧
      added <+: table.missing (n.frame a.layout).texts ∧
      ((∃ count, r = .ok count) → added = table.missing n.strings ∧
        added = table.missing (n.frame a.layout).texts)) ∧
    (∀ s id, table.id? s = some id → e.table.id? s = some id) ∧
    (∀ id s, table.string? id = some s → e.table.string? id = some s) ∧
    (∀ s ∈ e.table, s ∈ table ∨ s ∈ n.persisted.strings) ∧
    ∀ count, r = .ok count →
      (∀ sink', (a.write n (.start sink' e.table)).2.table = e.table) ∧
      (e.table.size ≤ UInt32.size → ∃ bs, e.sink.bytes = sink.bytes ++ bs ∧
        ∀ sink' sink'', sink'.accept bs = (true, sink'') → a.write n (.start sink' e.table) =
          (.ok count, { Encoder.start sink'' e.table with offset := count })) := by
  obtain ⟨added, hwords, hadded, hrest⟩ := exists_added h
  have hgrows : table.words <+: e.table.words := ⟨added, hwords.symm⟩
  refine ⟨⟨added, hwords, hadded, hrest⟩, ?_, ?_, ?_, ?_⟩
  · intro s id hs
    exact StringTable.id?_mono hgrows hs
  · intro id s hs
    exact StringTable.get?_mono hgrows hs
  · intro s hs
    rw [StringTable.mem_def, hwords, List.mem_append] at hs
    rw [n.strings_persisted]
    exact hs.imp_right fun hs' ↦ StringTable.mem_of_mem_missing (hadded.subset hs')
  · intro count hr
    rw [hr] at h
    exact write_again h

theorem write_adds_missing_class :
    let n : Node := .classDef { (default : Class) with
      name := "a", imports := ["b", "a", "b"], typeParameters := ["c"]
      members := [.method { (default : Method) with name := "d", synthetic := true }] }
    ∃ count e, v0_11.write n (.start (.empty none) (.ofList ["a"])) = (.ok count, e) ∧
      e.table.words = ["a", "b", "c"] ∧
      ∀ sink, (v0_11.write n (.start sink e.table)).2.table.words = ["a", "b", "c"] := by
  intro n
  have hok : (v0_11.write n (.start (.empty none) (.ofList ["a"]))).1.isOk = true := by
    decide +kernel
  have hstrings : n.strings = ["a", "b", "a", "b", "c"] := by
    rw [Node.strings_eq]
    simp only [n, Node.embedded, Class.declaredMembers, List.flatMap_append, List.flatMap_map,
      Node.strings_string, List.flatMap_singleton']
    rfl
  rcases hwrite : v0_11.write n (.start (.empty none) (.ofList ["a"])) with ⟨r, e⟩
  rw [hwrite] at hok
  cases r with
  | error => cases hok
  | ok count =>
    obtain ⟨⟨added, hwords, -, -, hall⟩, -, -, -, hagain⟩ := write_adds_missing hwrite
    have htable : e.table.words = ["a", "b", "c"] := by
      rw [hwords, (hall ⟨count, rfl⟩).1, hstrings]
      decide
    refine ⟨count, e, rfl, htable, fun sink ↦ ?_⟩
    rw [(hagain count rfl).1 sink, htable]

end Adapter

end TreeBytecode
