import TreeBytecode.Proofs.Canonical

namespace TreeBytecode

open Wire

theorem Node.isPlaceholder_of_bytes? {layout : Layout} {t : StringTable} {n : Node} {bs : Bytes}
    (h : (n.frame layout).bytes? t = some bs) : n.isPlaceholder = false := by
  cases n with
  | method m =>
    obtain ⟨payload, hb, -⟩ := Field.bytes?_frame.1 h
    rw [Node.fields, Method.fields] at hb
    cases hs : m.synthetic with
    | false => exact hs
    | true =>
      rw [hs, if_pos rfl, Field.allBytes?_singleton, Field.bytes?] at hb
      cases hb
  | _ => rfl

/-- What is persisted of a node is accepted for the bytes of its frame. -/
theorem Decoder.accepts_of_bytes? (d : Decoder) {levels : Nat} {e : Expectation} {n : Node}
    {v : e.Content} {bs : Bytes} (hb : (n.frame d.layout).bytes? d.scope.table = some bs)
    (ht : ∀ r ∈ n.typeRefs, d.scope.types r.name = some r.handle) (hd : n.depth ≤ levels)
    (hv : e.ofNode? n.persisted = some v) : d.Accepts levels e bs v := by
  rw [accepts_iff, ← Expectation.ofNode?_eq_some_iff.1 hv, Node.frame_persisted]
  exact ⟨hb, Node.readable_persisted (Node.isPlaceholder_of_bytes? hb) ht hd⟩

theorem Wire.Expectation.exists_content {x : Expectation} {n : Node}
    (h : x.accepts n.tag = true) : ∃ v, x.ofNode? n.persisted = some v := by
  rw [← Option.isSome_iff_exists, isSome_ofNode?, Node.tag_persisted, h]

namespace Adapter

/-- What a successful writer did is to append the frame as it is written. -/
theorem written_of_write {a : Adapter} {n : Node} {sink : Sink} {table : StringTable} {count : Nat}
    {e : Encoder} (h : a.write n (.start sink table) = (.ok count, e)) :
    ∃ bs, e.sink.bytes = sink.bytes ++ bs ∧ count = bs.length ∧
      Written table [n.frame a.layout] bs e.table := by
  simp only [write] at h
  split at h
  · next u e' hput =>
    obtain ⟨hc, rfl⟩ := Prod.mk.inj h
    obtain ⟨bs, hwrote, hw⟩ := Encoder.put_ok _ hput
    obtain rfl := Except.ok.inj hc
    exact ⟨bs, hwrote.bytes, hwrote.offset.trans (Nat.zero_add _), hw⟩
  · cases h

/-- What was written are the bytes of the frame under the table of the writer, as it is in the end
or later. -/
theorem write_ok {a : Adapter} {n : Node} {sink : Sink} {table : StringTable} {count : Nat}
    {e : Encoder} (h : a.write n (.start sink table) = (.ok count, e)) :
    ∃ bs, e.sink.bytes = sink.bytes ++ bs ∧ count = bs.length ∧
      table.words <+: e.table.words ∧ ∀ t : StringTable, e.table.words <+: t.words →
        t.size ≤ UInt32.size → (n.frame a.layout).bytes? t = some bs := by
  obtain ⟨bs, hbytes, hcount, hw⟩ := written_of_write h
  refine ⟨bs, hbytes, hcount, hw.grows, fun t hp hs ↦ ?_⟩
  rw [← Field.allBytes?_singleton]
  exact hw.allBytes? hp hs

theorem write_of_written (a : Adapter) {n : Node} {t t' : StringTable} {bs : Bytes}
    (h : Written t [n.frame a.layout] bs t') (out : Array UInt8) :
    a.write n (.start ⟨none, out⟩ t) =
      (.ok bs.length, { Encoder.start ⟨none, out ++ bs⟩ t' with offset := bs.length }) := by
  have hput := Encoder.putAll_of_written h (e := .start ⟨none, out⟩ t) rfl rfl
  rw [Encoder.putAll_singleton] at hput
  simp only [write, hput]
  simp only [Encoder.advance, Encoder.append, Encoder.start, Nat.zero_add]

theorem write_of_bytes? (a : Adapter) {n : Node} {table : StringTable} {bs : Bytes}
    (h : (n.frame a.layout).bytes? table = some bs) (out : Array UInt8) :
    a.write n (.start ⟨none, out⟩ table) =
      (.ok bs.length, { Encoder.start ⟨none, out ++ bs⟩ table with offset := bs.length }) :=
  a.write_of_written (written_of_bytes? _ h) out

/-- The bytes of a frame are read as what is persisted of the node. -/
theorem load_of_bytes? (a : Adapter) {scope : Scope} {maxDepth : Nat} {e : Expectation} {n : Node}
    {v : e.Content} {bs : Bytes} (hb : (n.frame a.layout).bytes? scope.table = some bs)
    (ht : ∀ r ∈ n.typeRefs, scope.types r.name = some r.handle) (hd : n.depth ≤ maxDepth)
    (hv : e.ofNode? n.persisted = some v) (further : Bytes) (ending : Ending) :
    a.load scope maxDepth e (.start (bs ++ further) ending) =
      (.ok v, ⟨further, ending, bs.length, []⟩) := by
  have hG := Decoder.accepts_of_bytes? ⟨scope, a.layout, maxDepth⟩ hb ht hd hv
  have hframe := (Decoder.frame_parses ⟨scope, a.layout, maxDepth⟩ maxDepth .top e).complete hG
    further ending 0 []
  rwa [Nat.zero_add] at hframe

/-- What was written is read by whoever expects such a node, whatever comes after it. -/
theorem load_of_write {a : Adapter} {n : Node} {sink : Sink} {table : StringTable} {count : Nat}
    {e : Encoder} {types : TypeResolver} {maxDepth : Nat} {x : Expectation}
    (hw : a.write n (.start sink table) = (.ok count, e)) (hs : e.table.size ≤ UInt32.size)
    (ht : ∀ r ∈ n.typeRefs, types r.name = some r.handle) (hd : n.depth ≤ maxDepth)
    (hx : x.accepts n.tag = true) :
    ∃ bs v, e.sink.bytes = sink.bytes ++ bs ∧ (x.toNode v == n) = true ∧ ∀ further ending,
      a.load ⟨e.table, types⟩ maxDepth x (.start (bs ++ further) ending) =
        (.ok v, ⟨further, ending, bs.length, []⟩) := by
  obtain ⟨bs, hbytes, -, -, hb⟩ := write_ok hw
  obtain ⟨v, hv⟩ := Expectation.exists_content hx
  refine ⟨bs, v, hbytes, ?_, a.load_of_bytes? (hb e.table List.prefix_rfl hs) ht hd hv⟩
  rw [← Expectation.ofNode?_eq_some_iff.1 hv]
  exact n.persisted_beq

def writeNext (a : Adapter) (n : Node) : Step (Sink × StringTable) Nat := fun s ↦
  let (r, e) := a.write n (.start s.1 s.2)
  (r, e.sink, e.table)

def writeAll (a : Adapter) : List Node → Step (Sink × StringTable) Unit
  | [] => pure ()
  | n :: ns => do
    let _ ← writeNext a n
    writeAll a ns

def loadNext (a : Adapter) (scope : Scope) (maxDepth : Nat) : Step (Bytes × Ending) Node := fun s ↦
  let (r, c) := a.load scope maxDepth .any (.start s.1 s.2)
  (r, c.rest, c.ending)

def loadAll (a : Adapter) (scope : Scope) (maxDepth : Nat) :
    Nat → Step (Bytes × Ending) (List Node)
  | 0 => pure []
  | count + 1 => do
    let n ← loadNext a scope maxDepth
    let ns ← loadAll a scope maxDepth count
    return n :: ns

theorem writeNext_ok {a : Adapter} {n : Node} {s s' : Sink × StringTable} {count : Nat}
    (h : a.writeNext n s = (.ok count, s')) : ∃ bs, s'.1.bytes = s.1.bytes ++ bs ∧
      s.2.words <+: s'.2.words ∧ ∀ t : StringTable, s'.2.words <+: t.words →
        t.size ≤ UInt32.size → (n.frame a.layout).bytes? t = some bs := by
  obtain ⟨hr, hs⟩ := Prod.mk.inj h
  obtain rfl := hs
  obtain ⟨bs, hbytes, -, htable, hb⟩ := write_ok (Prod.ext hr rfl)
  exact ⟨bs, hbytes, htable, hb⟩

theorem writeAll_ok {a : Adapter} {ns : List Node} {s s' : Sink × StringTable}
    (h : a.writeAll ns s = (.ok (), s')) (hsize : s'.2.size ≤ UInt32.size) :
    s.2.words <+: s'.2.words ∧ ∃ out, s'.1.bytes = s.1.bytes ++ out ∧
      Field.allBytes? s'.2 (ns.map (Node.frame a.layout)) = some out := by
  induction ns generalizing s with
  | nil =>
    obtain rfl : s = s' := congrArg Prod.snd h
    exact ⟨List.prefix_rfl, [], (List.append_nil _).symm, rfl⟩
  | cons n ns ih =>
    obtain ⟨count, s₁, h₁, h₂⟩ := Step.bind_eq_ok.1 h
    obtain ⟨bs, hbytes, htable, hb⟩ := writeNext_ok h₁
    obtain ⟨htables, out, hbytes', hout⟩ := ih h₂
    refine ⟨htable.trans htables, bs ++ out, ?_, ?_⟩
    · rw [hbytes', hbytes, List.append_assoc]
    · exact Field.allBytes?_cons.2 ⟨bs, out, hb _ htables hsize, hout, rfl⟩

theorem loadAll_of_bytes? (a : Adapter) {scope : Scope} {maxDepth : Nat} {ns : List Node}
    {out : Bytes} (hout : Field.allBytes? scope.table (ns.map (Node.frame a.layout)) = some out)
    (ht : ∀ n ∈ ns, ∀ r ∈ n.typeRefs, scope.types r.name = some r.handle)
    (hd : ∀ n ∈ ns, n.depth ≤ maxDepth) (further : Bytes) (ending : Ending) :
    a.loadAll scope maxDepth ns.length (out ++ further, ending) =
      (.ok (ns.map Node.persisted), (further, ending)) := by
  induction ns generalizing out with
  | nil =>
    obtain rfl := Option.some.inj hout
    rfl
  | cons n ns ih =>
    obtain ⟨bs, out, hb, hrest, rfl⟩ := Field.allBytes?_cons.1 hout
    obtain ⟨htn, htns⟩ := List.forall_mem_cons.1 ht
    obtain ⟨hdn, hdns⟩ := List.forall_mem_cons.1 hd
    have hload := a.load_of_bytes? (e := .any) hb htn hdn rfl (out ++ further) ending
    have hnext : a.loadNext scope maxDepth (bs ++ (out ++ further), ending) =
        (.ok n.persisted, (out ++ further, ending)) := by
      simp only [loadNext, hload]
    rw [List.length_cons, List.append_assoc, loadAll, Step.bind_of_ok hnext,
      Step.bind_of_ok (ih hrest htns hdns)]
    rfl

/-- Nodes written one after another are read one after another, whatever comes after them: each
as what is persisted of it, which is the same node but for its placeholders and its indexes. -/
theorem loadAll_of_writeAll (a : Adapter) {ns : List Node} {sink sink' : Sink}
    {table table' : StringTable} (types : TypeResolver) (maxDepth : Nat)
    (hw : a.writeAll ns (sink, table) = (.ok (), (sink', table')))
    (hs : table'.size ≤ UInt32.size)
    (ht : ∀ n ∈ ns, ∀ r ∈ n.typeRefs, types r.name = some r.handle)
    (hd : ∀ n ∈ ns, n.depth ≤ maxDepth) :
    ∃ out, sink'.bytes = sink.bytes ++ out ∧
      (∀ further ending, a.loadAll ⟨table', types⟩ maxDepth ns.length (out ++ further, ending) =
        (.ok (ns.map Node.persisted), (further, ending))) ∧
      ∀ n ∈ ns, (n.persisted == n) = true := by
  obtain ⟨-, out, hbytes, hout⟩ := writeAll_ok hw hs
  exact ⟨out, hbytes, a.loadAll_of_bytes? hout ht hd, fun n _ ↦ n.persisted_beq⟩

theorem loadAll_of_writeAll_classes : ∃ out : Bytes, ∀ further ending,
    v0_11.loadAll ⟨.ofList [""], TypeUniverse.empty.resolve?⟩ 1 2 (out ++ further, ending) =
      (.ok [.classDef { (default : Class) with index := some [] },
        .classDef { (default : Class) with index := some [] }], (further, ending)) := by
  let ns : List Node := [.classDef { (default : Class) with
    members := [.method { (default : Method) with synthetic := true }] }, .classDef default]
  have hok : (v0_11.writeAll ns (.empty none, .empty)).1.isOk = true := by decide +kernel
  have htable : (v0_11.writeAll ns (.empty none, .empty)).2.2.words = [""] := by decide +kernel
  rcases hw : v0_11.writeAll ns (.empty none, .empty) with ⟨r, sink, table⟩
  rw [hw] at hok htable
  obtain rfl : table = .ofList [""] := StringTable.ext htable
  cases r with
  | error => cases hok
  | ok =>
    have hn : ∀ n ∈ ns, n.typeRefs = [] ∧ n.depth ≤ 1 := by
      have leaf (n : Node) (he : n.embedded = []) (ho : n.ownTypes = []) :
          n.typeRefs = [] ∧ n.depth ≤ 1 := by
        simp [Node.typeRefs, Node.frames_eq n, Node.depth_eq n, he, ho]
      exact List.forall_mem_cons.2 ⟨leaf _ rfl rfl, List.forall_mem_singleton.2 (leaf _ rfl rfl)⟩
    obtain ⟨out, -, hload, -⟩ :=
      v0_11.loadAll_of_writeAll TypeUniverse.empty.resolve? 1 hw (by decide)
        (fun n hn' r hr ↦ absurd hr (by simp [(hn n hn').1])) fun n hn' ↦ (hn n hn').2
    exact ⟨out, hload⟩

end Adapter

end TreeBytecode
