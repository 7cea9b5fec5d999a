import TreeBytecode.Artifact
import TreeBytecode.Proofs.RoundTrip
import TreeBytecode.Proofs.Streaming

namespace TreeBytecode

open Wire

namespace Header

theorem length_bytes {h : Header} (hm : h.magic.length = 4) : h.bytes.length = size := by
  simp only [bytes, List.length_append, length_word, hm, size]

theorem ofNat_word (n : UInt16) : UInt16.ofNat (ofBytes (word 2 n.toNat)) = n := by
  rw [ofBytes_word n.toNat_lt, UInt16.ofNat_toNat]

theorem parse_bytes {h : Header} (hm : h.magic.length = 4) : parse h.bytes = h := by
  have hmagic : h.bytes.take 4 = h.magic := by
    rw [bytes, List.append_assoc, List.take_left' hm]
  have hmajor : (h.bytes.drop 4).take 2 = word 2 h.version.major.toNat := by
    rw [bytes, List.append_assoc, List.drop_left' hm, List.take_left' (length_word ..)]
  have hminor : (h.bytes.drop 6).take 2 = word 2 h.version.minor.toNat := by
    rw [bytes, List.drop_left' (by rw [List.length_append, hm, length_word])]
    exact List.take_of_length_le (Nat.le_of_eq (length_word ..))
  rw [parse, hmagic, hmajor, hminor, ofNat_word, ofNat_word]

theorem read_append {head : Bytes} (h : head.length = size) (rest : Bytes) (ending : Ending) :
    read (.start (head ++ rest) ending) =
      (if (parse head).isValid then .ok (parse head) else .error .invalidMagic,
        ⟨rest, ending, size, []⟩) := by
  have hbytes := (Cursor.readBytes_parses size).complete ⟨h, rfl⟩ rest ending 0 []
  simp only [Cursor.start, read, hbytes, h, Nat.zero_add]
  split <;> rfl

/-- A header that was written is read, whatever follows. -/
theorem read_ofVersion (v : FormatVersion) (rest : Bytes) (ending : Ending) :
    read (.start ((ofVersion v).bytes ++ rest) ending) =
      (.ok (ofVersion v), ⟨rest, ending, size, []⟩) := by
  have hm : (ofVersion v).magic.length = 4 := rfl
  rw [read_append (length_bytes hm), parse_bytes hm]
  rfl

/-- A header that is cut short is missed as a whole. -/
theorem read_short {bytes : Bytes} (h : bytes.length < size) :
    ∃ c, read (.start bytes .clean) = (.error (.truncated size .outside), c) := by
  obtain ⟨c, hc⟩ := Cursor.readBytes_short bytes 0 [] h
  refine ⟨c, ?_⟩
  simp only [read, Cursor.start, hc]
  rfl

end Header

theorem Artifact.write_ok {a : Adapter} {n : Node} {table : StringTable} {sink : Sink} {count : Nat}
    {e : Encoder} (h : Artifact.write a n table sink = (.ok count, e)) :
    ∃ sink' body, a.write n (.start sink' table) = (.ok body, e) ∧ count = Header.size + body ∧
      sink'.bytes = sink.bytes ++ (Header.ofVersion a.version).bytes := by
  simp only [write] at h
  split at h
  · next sink' hs =>
    split at h
    · next body e' hw =>
      obtain ⟨hc, rfl⟩ := Prod.mk.inj h
      exact ⟨sink', body, hw, (Except.ok.inj hc).symm, Sink.bytes_of_accept hs⟩
    · cases h
  · cases h

namespace Adapter

theorem load_take (a : Adapter) (scope : Scope) {maxDepth : Nat} {x : Expectation} {n : Node}
    {bs : Bytes} (hb : (n.frame a.layout).bytes? scope.table = some bs)
    (ht : ∀ r ∈ n.typeRefs, scope.types r.name = some r.handle) (hd : n.depth ≤ maxDepth)
    (hx : x.accepts n.tag = true) {k : Nat} (hk : k < bs.length) : ∃ wanted place c,
      a.load scope maxDepth x (.start (bs.take k) .clean) = (.error (.truncated wanted place), c) ∧
        place.offset ≤ k ∧ k < place.offset + wanted ∧ place.offset + wanted ≤ bs.length := by
  obtain ⟨v, hv⟩ := Expectation.exists_content hx
  have hG := Decoder.accepts_of_bytes? ⟨scope, a.layout, maxDepth⟩ hb ht hd hv
  have hcut := (Decoder.frame_streams ⟨scope, a.layout, maxDepth⟩ maxDepth .top x).of_take
    (Decoder.frame_parses _ _ _ _) hG hk 0 []
  simp only [Nat.zero_add] at hcut
  exact hcut

/-- Neither a frame nor an artifact is read from a strict part of the beginning of what was
written: bytes are missing, of which the first is behind the end of the part and the last is one of
those written. -/
theorem load_take_of_write (a : Adapter) (n : Node) (table : StringTable) (types : TypeResolver)
    (maxDepth : Nat) (x : Expectation) (hx : x.accepts n.tag = true)
    (ht : ∀ r ∈ n.typeRefs, types r.name = some r.handle) (hd : n.depth ≤ maxDepth) :
    (∀ room count e, a.write n (.start (.empty room) table) = (.ok count, e) →
      e.table.size ≤ UInt32.size → ∀ k < e.sink.bytes.length, ∃ wanted place c,
        a.load ⟨e.table, types⟩ maxDepth x (.start (e.sink.bytes.take k) .clean) =
            (.error (.truncated wanted place), c) ∧
          place.offset ≤ k ∧ k < place.offset + wanted ∧
          place.offset + wanted ≤ e.sink.bytes.length) ∧
    ∀ room count e, Artifact.write a n table (.empty room) = (.ok count, e) →
      e.table.size ≤ UInt32.size → ∀ r : Registry, r.get a.version = .ok a →
        ∀ k < e.sink.bytes.length, ∃ wanted place c,
          Artifact.read r ⟨e.table, types⟩ maxDepth x (.start (e.sink.bytes.take k) .clean) =
              (.error (.truncated wanted place), c) ∧
            if k < Header.size then wanted = Header.size ∧ place = .outside
            else Header.size + place.offset ≤ k ∧ k < Header.size + place.offset + wanted ∧
              Header.size + place.offset + wanted ≤ e.sink.bytes.length := by
  constructor
  · intro room count e hw hsize k hk
    obtain ⟨bs, hbytes, -, -, hb⟩ := write_ok hw
    obtain rfl : e.sink.bytes = bs := hbytes
    exact a.load_take ⟨e.table, types⟩ (hb _ List.prefix_rfl hsize) ht hd hx hk
  · intro room count e hw hsize r hr k hk
    obtain ⟨sink, body, hw, -, hheader⟩ := Artifact.write_ok hw
    obtain ⟨bs, hbytes, -, -, hb⟩ := write_ok hw
    have hlen : (Header.ofVersion a.version).bytes.length = Header.size := Header.length_bytes rfl
    have hall : e.sink.bytes = (Header.ofVersion a.version).bytes ++ bs := by
      rw [hbytes, hheader]
      rfl
    rw [hall, List.length_append, hlen] at hk ⊢
    by_cases hshort : k < Header.size
    · obtain ⟨c, hc⟩ := Header.read_short (Nat.lt_of_le_of_lt
        (List.length_take_le k ((Header.ofVersion a.version).bytes ++ bs)) hshort)
      refine ⟨Header.size, .outside, c, ?_, ?_⟩
      · simp only [Artifact.read, hc]
      · rw [if_pos hshort]
        exact ⟨rfl, rfl⟩
    · have hcut : k - Header.size < bs.length := by omega
      obtain ⟨wanted, place, c, hload, hplace, hlt, hle⟩ := a.load_take ⟨e.table, types⟩
        (hb _ List.prefix_rfl hsize) ht hd hx hcut
      refine ⟨wanted, place, c, ?_, ?_⟩
      · have htake : ((Header.ofVersion a.version).bytes ++ bs).take k =
            (Header.ofVersion a.version).bytes ++ bs.take (k - Header.size) := by
          rw [List.take_append, hlen, List.take_of_length_le (by omega)]
        rw [htake]
        simp only [Artifact.read, Header.read_ofVersion]
        rw [show (Header.ofVersion a.version).version = a.version from rfl, hr]
        exact hload
      · rw [if_neg hshort]
        omega

theorem load_take_of_write_parameter : ∃ wanted place c,
    v0_10.load ⟨.ofList [""], TypeUniverse.resolve? ⟨[("", 0)]⟩⟩ 1 (.only .parameter)
        (.start ((Tag.parameter.code :: List.replicate 8 0).take 6) .clean) =
          (.error (.truncated wanted place), c) ∧
      place.offset ≤ 6 ∧ 6 < place.offset + wanted ∧ place.offset + wanted ≤ 9 := by
  let n : Node := .parameter default
  let e : Encoder := .start (.empty none) (.ofList [""])
  have hput : Encoder.put (n.frame .reservedName) e =
      (.ok (), Encoder.append (Tag.parameter.code :: List.replicate 8 0) e) :=
    Encoder.put_of_bytes? _ rfl rfl
  have hw : v0_10.write n e =
      (.ok 9, Encoder.append (Tag.parameter.code :: List.replicate 8 0) e) := by
    rw [write, show v0_10.layout = .reservedName from rfl, hput]
    rfl
  have htypes : n.typeRefs = [default] := by
    rw [Node.typeRefs, Node.frames_eq]
    rfl
  have hd : n.depth ≤ 1 := by
    rw [Node.depth_eq]
    decide
  exact (v0_10.load_take_of_write n (.ofList [""]) (TypeUniverse.resolve? ⟨[("", 0)]⟩) 1
    (.only .parameter) rfl (by rw [htypes]; decide) hd).1 none 9 _ hw (by decide) 6 (by decide)

end Adapter

end TreeBytecode
