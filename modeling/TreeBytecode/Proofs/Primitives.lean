import TreeBytecode.Proofs.Mirror
import TreeBytecode.Proofs.Outputs
import TreeBytecode.Proofs.Strings
import TreeBytecode.Proofs.Tracking

namespace TreeBytecode.Wire

open TreeBytecode.Wire.Field (allBytes? allBytes?_cons allBytes?_append)

inductive Primitive
  | u8 (v : UInt8)
  | u16 (v : UInt16)
  | i32 (v : Int32)
  | u32 (v : UInt32)
  | u64 (v : UInt64)
  | length (n : Nat)
  | tag (t : Tag)
  | bytes (bs : Bytes)
deriving DecidableEq, Inhabited

namespace Primitive

inductive Kind
  | u8 | u16 | i32 | u32 | u64 | length | tag
  | bytes (count : Nat)
deriving DecidableEq, Inhabited

def kind : Primitive → Kind
  | .u8 _ => .u8
  | .u16 _ => .u16
  | .i32 _ => .i32
  | .u32 _ => .u32
  | .u64 _ => .u64
  | .length _ => .length
  | .tag _ => .tag
  | .bytes bs => .bytes bs.length

def field : Primitive → Field
  | .u8 v => .u8 v
  | .u16 v => .u16 v
  | .i32 v => .i32 v
  | .u32 v => .u32 v
  | .u64 v => .u64 v
  | .length n => .count n
  | .tag t => .tag t
  | .bytes bs => .raw bs

def Kind.plan : Kind → Plan Primitive
  | .u8 => Primitive.u8 <$> Plan.u8
  | .u16 => Primitive.u16 <$> Plan.u16
  | .i32 => Primitive.i32 <$> Plan.i32
  | .u32 => Primitive.u32 <$> Plan.u32
  | .u64 => Primitive.u64 <$> Plan.u64
  | .length => Primitive.length <$> Plan.length
  | .tag => Primitive.tag <$> Plan.tag
  | .bytes count => Primitive.bytes <$> Plan.bytes count

def writeAll (vs : List Primitive) : Step Encoder Unit := Encoder.putAll (vs.map field)

def readAll : List Kind → Step Cursor (List Primitive)
  | [] => return []
  | k :: ks => return (← k.plan.runPlain) :: (← readAll ks)

def sequence : List Kind → Plan (List Primitive)
  | [] => return []
  | k :: ks => return (← k.plan) :: (← sequence ks)

theorem readAll_eq (ks : List Kind) : readAll ks = (sequence ks).runPlain := by
  induction ks with
  | nil => rfl
  | cons k ks ih =>
    rw [readAll, ih]
    symm
    exact (Plan.run_bind _ _).trans (congrArg _ (funext fun v ↦ Plan.run_bind _ _))

section Plans

variable {scope : Scope} {G : (e : Expectation) → Grammar e.Content} {α : Type}

theorem map_mirrors {p : Plan α} {make : α → Primitive} {f : α → Field} {known : α → Prop}
    {k : Kind} (hp : p.Mirrors scope G (fun a ↦ [f a]) known fun _ ↦ True)
    (hfield : ∀ a, (make a).field = f a) (hkind : ∀ v, v.kind = k ↔ ∃ a, known a ∧ v = make a) :
    (make <$> p).Mirrors scope G (fun v ↦ [v.field]) (fun v ↦ v.kind = k) fun _ ↦ True := by
  intro bs v
  simp only [Plan.map_yields, hkind v]
  constructor
  · rintro ⟨a, ha, rfl⟩
    obtain ⟨hknown, hbytes, -⟩ := (hp bs a).1 ha
    rw [hfield a]
    exact ⟨⟨a, hknown, rfl⟩, hbytes, trivial⟩
  · rintro ⟨⟨a, hknown, rfl⟩, hbytes, -⟩
    rw [hfield a] at hbytes
    exact ⟨a, (hp bs a).2 ⟨hknown, hbytes, trivial⟩, rfl⟩

theorem Kind.plan_mirrors (k : Kind) : k.plan.Mirrors scope G (fun v ↦ [v.field])
    (fun v ↦ v.kind = k) fun _ ↦ True := by
  cases k with
  | u8 => exact map_mirrors Plan.u8_mirrors (fun _ ↦ rfl) fun v ↦ by cases v <;> simp [kind]
  | u16 => exact map_mirrors Plan.u16_mirrors (fun _ ↦ rfl) fun v ↦ by cases v <;> simp [kind]
  | i32 => exact map_mirrors Plan.i32_mirrors (fun _ ↦ rfl) fun v ↦ by cases v <;> simp [kind]
  | u32 => exact map_mirrors Plan.u32_mirrors (fun _ ↦ rfl) fun v ↦ by cases v <;> simp [kind]
  | u64 => exact map_mirrors Plan.u64_mirrors (fun _ ↦ rfl) fun v ↦ by cases v <;> simp [kind]
  | length =>
    exact map_mirrors Plan.length_mirrors (fun _ ↦ rfl) fun v ↦ by cases v <;> simp [kind]
  | tag => exact map_mirrors Plan.tag_mirrors (fun _ ↦ rfl) fun v ↦ by cases v <;> simp [kind]
  | bytes count =>
    exact map_mirrors (Plan.bytes_mirrors count) (fun _ ↦ rfl) fun v ↦ by cases v <;> simp [kind]

/-- The kinds are all that is known beforehand; the bytes tell the rest. -/
theorem sequence_mirrors (ks : List Kind) : (sequence ks).Mirrors scope G (fun vs ↦ vs.map field)
    (fun vs ↦ vs.map kind = ks) fun _ ↦ True := by
  induction ks with
  | nil =>
    refine (Plan.Mirrors.pure (b := []) fun vs ↦ List.map_eq_nil_iff).congr_fields fun vs hvs _ ↦ ?_
    obtain rfl := List.map_eq_nil_iff.1 hvs
    rfl
  | cons k ks ih =>
    intro bs vs
    constructor
    · rintro ⟨v, bs₁, _, hv, ⟨ws, bs₂, _, hws, ⟨rfl, rfl⟩, rfl⟩, rfl⟩
      obtain ⟨rfl, hbytes, -⟩ := (k.plan_mirrors bs₁ v).1 hv
      obtain ⟨rfl, hrest, -⟩ := (ih bs₂ ws).1 hws
      refine ⟨rfl, ?_, trivial⟩
      rw [List.append_nil]
      exact allBytes?_append.2 ⟨bs₁, bs₂, hbytes, hrest, rfl⟩
    · rintro ⟨hkinds, hbytes, -⟩
      obtain ⟨v, ws, rfl, rfl, rfl⟩ := List.map_eq_cons_iff.1 hkinds
      have hsplit : allBytes? scope.table ([v.field] ++ ws.map field) = some bs := hbytes
      obtain ⟨bs₁, bs₂, hv, hws, rfl⟩ := allBytes?_append.1 hsplit
      refine ⟨v, bs₁, bs₂, (v.kind.plan_mirrors bs₁ v).2 ⟨rfl, hv, trivial⟩, ⟨ws, bs₂, [], ?_⟩, rfl⟩
      exact ⟨(ih bs₂ ws).2 ⟨rfl, hws, trivial⟩, ⟨rfl, rfl⟩, (List.append_nil _).symm⟩

end Plans

theorem readAll_parses (ks : List Kind) : (readAll ks).Parses fun bs vs ↦
    vs.map kind = ks ∧ allBytes? .empty (vs.map field) = some bs := by
  rw [readAll_eq]
  refine (Plan.runPlain_parses (sequence ks)).congr fun bs vs ↦ ?_
  exact (sequence_mirrors ks bs vs).trans (and_congr_right fun _ ↦ and_iff_left trivial)

theorem readAll_tracks (ks : List Kind) : (readAll ks).Tracks (fun bs vs ↦
    vs.map kind = ks ∧ allBytes? .empty (vs.map field) = some bs) 0 := by
  rw [readAll_eq]
  refine (Plan.runPlain_tracks (sequence ks)).mono (fun bs vs h ↦ ?_) (Nat.le_refl 0)
  obtain ⟨hkinds, hbytes, -⟩ := (sequence_mirrors ks bs vs).1 h
  exact ⟨hkinds, hbytes⟩

variable {v : Primitive} {vs : List Primitive} {bs : Bytes} {t t' : StringTable} {e e' : Encoder}

theorem field_cases (v : Primitive) : (∃ bs, v.field = .raw bs) ∨ ∃ n, v.field = .count n := by
  cases v with
  | length n => exact .inr ⟨n, rfl⟩
  | _ => exact .inl ⟨_, rfl⟩

/-- There are no names in primitives. -/
theorem allBytes?_fields (t t' : StringTable) (vs : List Primitive) :
    allBytes? t (vs.map field) = allBytes? t' (vs.map field) := by
  induction vs with
  | nil => rfl
  | cons v vs ih =>
    have hv : v.field.bytes? t = v.field.bytes? t' := by cases v <;> rfl
    rw [List.map_cons, allBytes?, allBytes?, hv, ih]

theorem allBytes?_of_written (h : Written t (vs.map field) bs t') :
    allBytes? .empty (vs.map field) = some bs := by
  induction vs generalizing t bs with
  | nil =>
    cases h
    rfl
  | cons v vs ih =>
    rw [List.map_cons] at h ⊢
    obtain ⟨cs, hv⟩ | ⟨n, hv⟩ := field_cases v
    · rw [hv] at h ⊢
      cases h with
      | raw _ rest => exact allBytes?_cons.2 ⟨cs, _, rfl, ih rest, rfl⟩
    · rw [hv] at h ⊢
      cases h with
      | count hn rest =>
        refine allBytes?_cons.2 ⟨word 4 n, _, ?_, ih rest, rfl⟩
        rw [Field.bytes?, if_pos hn]

theorem wrote_of_writeAll (h : writeAll vs e = (.ok (), e')) :
    ∃ bs, allBytes? .empty (vs.map field) = some bs ∧ e.Wrote e' bs := by
  obtain ⟨bs, hwrote, hwritten⟩ := Encoder.putAll_ok _ h
  exact ⟨bs, allBytes?_of_written hwritten, hwrote⟩

theorem writeAll_of_accept (h : allBytes? .empty (vs.map field) = some bs) {s : Sink}
    (hs : e.sink.accept bs = (true, s)) :
    writeAll vs e = (.ok (), { e with sink := s, offset := e.offset + bs.length }) := by
  have hbytes : allBytes? e.unlimited.table (vs.map field) = some bs := by
    rw [allBytes?_fields _ .empty, h]
  have hput := Encoder.putAll_of_bytes? (vs.map field) (e := e.unlimited) rfl hbytes
  have hsink : (Encoder.append bs e.unlimited).sink.bytes = bs := Array.toList_appendList ..
  have hdone := (Encoder.putAll_steady (vs.map field) e).done (s := s)
  rw [hput, hsink] at hdone
  exact hdone hs

theorem writeAll_append (vs ws : List Primitive) :
    writeAll (vs ++ ws) = writeAll vs >>= fun _ ↦ writeAll ws := by
  rw [writeAll, List.map_append]
  exact Encoder.putAll_append _ _

/-- A reader that is where the writer was comes to where the writer came. -/
theorem readAll_of_writeAll (h : writeAll vs e = (.ok (), e')) : ∃ bs, e.Wrote e' bs ∧
    ∀ (behind : Bytes) (ending : Ending) (frames : List Tag),
      readAll (vs.map kind) ⟨bs ++ behind, ending, e.offset, frames⟩ =
        (.ok vs, ⟨behind, ending, e'.offset, frames⟩) := by
  obtain ⟨bs, hbs, hwrote⟩ := wrote_of_writeAll h
  refine ⟨bs, hwrote, fun behind ending frames ↦ ?_⟩
  rw [hwrote.offset]
  exact (readAll_parses _).complete ⟨rfl, hbs⟩ behind ending e.offset frames

/-- Primitives that could be written are read back in their order from what was written, whatever
follows it, and nothing of that is touched; reader and writer are at the same offset after each of
them. Primitives that could be read, from whatever input, are of the kinds that were asked for, and
where there is room for as many bytes as were read for them, they are written as just these. -/
theorem sequences_and_bytes :
    (∀ (room : Option Nat) (t : StringTable) (vs : List Primitive) (e : Encoder),
      writeAll vs (.start (.empty room) t) = (.ok (), e) →
      ∀ (suffix : Bytes) (ending : Ending),
        let input := Cursor.start (e.sink.bytes ++ suffix) ending
        readAll (vs.map kind) input = (.ok vs, ⟨suffix, ending, e.offset, []⟩) ∧
        ∀ before after, vs = before ++ after → ∃ (e' : Encoder) (left : Bytes),
          writeAll before (.start (.empty room) t) = (.ok (), e') ∧
          writeAll after e' = (.ok (), e) ∧
          readAll (before.map kind) input = (.ok before, ⟨left ++ suffix, ending, e'.offset, []⟩)) ∧
    ∀ (ks : List Kind) (c c' : Cursor) (vs : List Primitive), readAll ks c = (.ok vs, c') →
      vs.map kind = ks ∧ ∃ used, c.Consumes used c' ∧ c'.offset = c.offset + used.length ∧
        ∀ e : Encoder, (∀ room, e.sink.room = some room → used.length ≤ room) →
          ∃ s : Sink, s.bytes = e.sink.bytes ++ used ∧
            writeAll vs e = (.ok (), { e with sink := s, offset := e.offset + used.length }) := by
  constructor
  · intro room t vs e hwrite suffix ending input
    obtain ⟨bs, hwrote, hread⟩ := readAll_of_writeAll hwrite
    obtain rfl : e.sink.bytes = bs := hwrote.bytes
    refine ⟨hread suffix ending [], ?_⟩
    rintro before after rfl
    rw [writeAll_append] at hwrite
    obtain ⟨⟨⟩, e', hbefore, hafter⟩ := Step.bind_eq_ok.1 hwrite
    -- What the first part is written in stands in front of what the rest is written in.
    obtain ⟨front, hfront, hread'⟩ := readAll_of_writeAll hbefore
    obtain ⟨left, hleft, -⟩ := readAll_of_writeAll hafter
    obtain rfl : e'.sink.bytes = front := hfront.bytes
    refine ⟨e', left, hbefore, hafter, ?_⟩
    have hinput := hread' (left ++ suffix) ending []
    rwa [← List.append_assoc, ← hleft.bytes] at hinput
  · intro ks c c' vs hread
    obtain ⟨used, ⟨hkinds, hbytes⟩, hpasses⟩ := (readAll_tracks ks).ok hread
    refine ⟨hkinds, used, hpasses.consumes, hpasses.offset, fun e hroom ↦ ?_⟩
    obtain ⟨s, hs⟩ := Sink.exists_accept hroom
    exact ⟨s, Sink.bytes_of_accept hs, writeAll_of_accept hbytes hs⟩

/-- Numbers are written least byte first, and negative ones as if they were above all others. -/
theorem sequences_and_bytes_mixed :
    let vs : List Primitive := [.u16 0x1234, .i32 (-2), .length 3, .tag .method, .bytes [7, 7]]
    let written : Bytes := [0x34, 0x12, 0xfe, 0xff, 0xff, 0xff, 3, 0, 0, 0, 6, 7, 7]
    let input := Cursor.start (written ++ [9]) .clean
    readAll (vs.map kind) input = (.ok vs, ⟨[9], .clean, 13, []⟩) ∧
    (∃ e' left, writeAll [.u16 0x1234] (.start (.empty (some 13)) .empty) = (.ok (), e') ∧
      readAll [.u16] input = (.ok [.u16 0x1234], ⟨left ++ [9], .clean, e'.offset, []⟩)) ∧
    ∃ s : Sink, s.bytes = written ∧ writeAll vs (.start (.empty none) .empty) =
      (.ok (), { Encoder.start s .empty with offset := 13 }) := by
  intro vs written input
  have hok : (writeAll vs (.start (.empty (some 13)) .empty)).1.isOk = true := by decide +kernel
  have hbytes : (writeAll vs (.start (.empty (some 13)) .empty)).2.sink.bytes = written := by
    decide +kernel
  have hoffset : (writeAll vs (.start (.empty (some 13)) .empty)).2.offset = 13 := by
    decide +kernel
  rcases hw : writeAll vs (.start (.empty (some 13)) .empty) with ⟨f | ⟨⟩, e⟩
  · rw [hw] at hok
    cases hok
  rw [hw] at hbytes hoffset
  obtain ⟨hread, hparts⟩ := sequences_and_bytes.1 (some 13) .empty vs e hw [9] .clean
  rw [hbytes, hoffset] at hread
  rw [hbytes] at hparts
  refine ⟨hread, ?_, ?_⟩
  · obtain ⟨e', left, hfront, -, hread'⟩ := hparts [.u16 0x1234] _ rfl
    exact ⟨e', left, hfront, hread'⟩
  · obtain ⟨-, used, hconsumes, hcount, hwrite⟩ := sequences_and_bytes.2 _ _ _ _ hread
    have hclean : Ending.clean = .ofFault? none := rfl
    have hused : written ++ [9] = used ++ [9] := ((Cursor.consumes_iff hclean).1 hconsumes).2
    obtain rfl : written = used := List.append_cancel_right hused
    obtain ⟨s, hs, hout⟩ := hwrite (.start (.empty none) .empty) fun _ h ↦ nomatch h
    exact ⟨s, hs, hout⟩

end Primitive

end TreeBytecode.Wire
