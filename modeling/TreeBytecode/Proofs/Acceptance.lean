import TreeBytecode.Proofs.Nesting
import TreeBytecode.Proofs.Spelling
import TreeBytecode.Registry

namespace TreeBytecode

namespace Wire

namespace Field

mutual

def Writable : Field → Prop
  | .raw _ | .text _ => True
  | .count n => n ≤ Encoder.maxCount
  | .frame _ payload => AllWritable payload
  | .refusal _ => False

def AllWritable : List Field → Prop
  | [] => True
  | f :: fs => f.Writable ∧ AllWritable fs

end

theorem allWritable_iff {fs : List Field} : AllWritable fs ↔ ∀ f ∈ fs, f.Writable := by
  induction fs with
  | nil => exact iff_of_true trivial (List.forall_mem_nil _)
  | cons f fs ih => rw [AllWritable, ih, List.forall_mem_cons]

@[simp] theorem writable_u8 (v : UInt8) : (u8 v).Writable := trivial

@[simp] theorem writable_u32 (v : UInt32) : (u32 v).Writable := trivial

@[simp] theorem writable_u64 (v : UInt64) : (u64 v).Writable := trivial

@[simp] theorem writable_text (s : String) : (text s).Writable := trivial

@[simp] theorem not_writable_refusal (r : Refusal) : ¬ (refusal r).Writable := id

theorem writable_frame {t : Tag} {payload : List Field} :
    (frame t payload).Writable ↔ ∀ f ∈ payload, f.Writable := allWritable_iff

theorem forall_array {fs : List Field} : (∀ f ∈ array fs, f.Writable) ↔
    fs.length ≤ Encoder.maxCount ∧ ∀ f ∈ fs, f.Writable := List.forall_mem_cons

theorem forall_names {ss : List String} :
    (∀ f ∈ names ss, f.Writable) ↔ ss.length ≤ Encoder.maxCount := by
  rw [names, List.forall_mem_cons]
  refine and_iff_left fun f hf ↦ ?_
  obtain ⟨s, -, hf⟩ := List.mem_flatMap.1 hf
  obtain rfl | hf := List.mem_cons.1 hf
  · exact trivial
  · obtain rfl := List.mem_singleton.1 hf
    exact trivial

end Field

namespace Encoder

/-- From one state of an encoder on an output without limit to another, these bytes were written,
maybe in frames that are still open. -/
structure Emitted (e e' : Encoder) (bs : Bytes) : Prop where
  sink : e'.sink = ⟨none, e.sink.written ++ bs⟩
  offset : e'.offset = e.offset + bs.length

theorem Emitted.room {e e' : Encoder} {bs : Bytes} (h : e.Emitted e' bs) :
    e'.sink.room = none := congrArg Sink.room h.sink

theorem Emitted.trans {e₁ e₂ e₃ : Encoder} {bs cs : Bytes} (h : e₁.Emitted e₂ bs)
    (h' : e₂.Emitted e₃ cs) : e₁.Emitted e₃ (bs ++ cs) where
  sink := by
    rw [h'.sink, h.sink, Sink.append_append]
  offset := by rw [h'.offset, h.offset, List.length_append, Nat.add_assoc]

theorem Emitted.refl {e : Encoder} (h : e.sink.room = none) : e.Emitted e [] := by
  obtain ⟨⟨room, written⟩, offset, frames, table⟩ := e
  obtain rfl : room = none := h
  exact ⟨by simp, rfl⟩

/-- What a writer comes to if it writes everything except where something is refused: the place of
the refusal is behind the last byte. -/
inductive Writes (x : Step Encoder Unit) (e : Encoder) (writable : Prop) : Prop
  | done (bs : Bytes) (e' : Encoder) (emitted : e.Emitted e' bs) (h : x e = (.ok (), e'))
      (accepted : writable)
  | stopped (bs : Bytes) (e' : Encoder) (emitted : e.Emitted e' bs) (r : Refusal) (place : Location)
      (h : x e = (.error (.unsupported r place), e')) (last : place.offset = e'.offset)
      (refused : ¬ writable)

theorem emit_writes {e : Encoder} (h : e.sink.room = none) (bs : Bytes) :
    Writes (emit bs) e True :=
  .done bs (append bs e) ⟨rfl, rfl⟩ (emit_of_room h bs) trivial

theorem refuse_writes {e : Encoder} (h : e.sink.room = none) (r : Refusal) :
    Writes (refuse r) e False :=
  .stopped [] e (.refl h) r e.location rfl rfl id

theorem Writes.congr {x : Step Encoder Unit} {e : Encoder} {p q : Prop} (h : Writes x e p)
    (hpq : p ↔ q) : Writes x e q := by
  rwa [← propext hpq]

theorem Writes.bind {x y : Step Encoder Unit} {e : Encoder} {p q : Prop} (hx : Writes x e p)
    (hy : ∀ e', e'.sink.room = none → Writes y e' q) :
    Writes (x >>= fun _ ↦ y) e (p ∧ q) := by
  cases hx with
  | done bs e₁ h₁ hx hp =>
    cases hy e₁ h₁.room with
    | done cs e₂ h₂ hy hq =>
      exact .done (bs ++ cs) e₂ (h₁.trans h₂) (by rw [Step.bind_of_ok hx, hy]) ⟨hp, hq⟩
    | stopped cs e₂ h₂ r place hy hplace hq =>
      exact .stopped (bs ++ cs) e₂ (h₁.trans h₂) r place (by rw [Step.bind_of_ok hx, hy]) hplace
        fun h ↦ hq h.2
  | stopped bs e₁ h₁ r place hx hplace hp =>
    exact .stopped bs e₁ h₁ r place (Step.bind_of_error hx) hplace fun h ↦ hp h.1

theorem Writes.within {x : Step Encoder Unit} {e : Encoder} {p : Prop} (t : Tag)
    (h : Writes x (enter t e) p) :
    Writes (do Step.modify (enter t); x; Step.modify leave) e p := by
  cases h with
  | done bs e' h' hx hp =>
    refine .done bs (leave e') ⟨h'.sink, h'.offset⟩ ?_ hp
    rw [Step.bind_of_ok (Step.modify_apply _ _), Step.bind_of_ok hx, Step.modify_apply]
  | stopped bs e' h' r place hx hplace hp =>
    refine .stopped bs e' ⟨h'.sink, h'.offset⟩ r place ?_ hplace hp
    rw [Step.bind_of_ok (Step.modify_apply _ _), Step.bind_of_error hx]

mutual

theorem put_writes : ∀ (f : Field) {e : Encoder}, e.sink.room = none → Writes (put f) e f.Writable
  | .raw bs, e, h => by
    rw [put, Field.Writable]
    exact emit_writes h bs
  | .count n, e, h => by
    rw [put, Field.Writable, emitCount]
    by_cases hn : n ≤ maxCount
    · rw [if_pos hn]
      exact (emit_writes h _).congr (iff_of_true trivial hn)
    · rw [if_neg hn]
      exact (refuse_writes h _).congr (iff_of_false id hn)
  | .text s, e, h => by
    rw [put, Field.Writable]
    -- The table grows before the number is written, which `Emitted` does not look at.
    obtain ⟨bs, e', h', hx, -⟩ | ⟨bs, e', -, r, place, -, -, hf⟩ :=
      emit_writes (e := { e with table := (e.table.intern s).2 }) h
        (word 4 (e.table.intern s).1.toNat)
    · exact .done bs e' ⟨h'.sink, h'.offset⟩ hx trivial
    · exact absurd trivial hf
  | .refusal r, e, h => by
    rw [put, Field.Writable]
    exact refuse_writes h r
  | .frame t payload, e, h => by
    rw [put, Field.Writable]
    exact ((emit_writes h [t.code]).bind fun _ h' ↦
      (putAll_writes payload (e := enter t _) h').within t).congr (and_iff_right trivial)

theorem putAll_writes : ∀ (fs : List Field) {e : Encoder}, e.sink.room = none →
    Writes (putAll fs) e (Field.AllWritable fs)
  | [], e, h => by
    rw [putAll, Field.AllWritable]
    exact .done [] e (.refl h) rfl trivial
  | f :: fs, e, h => by
    rw [putAll, Field.AllWritable]
    exact (put_writes f h).bind fun _ h' ↦ putAll_writes fs h'

end

end Encoder

theorem Field.writable_of_bytes? {f : Field} {t : StringTable} {bs : Bytes}
    (h : f.bytes? t = some bs) : f.Writable := by
  have hput := Encoder.put_of_bytes? f (e := .start (.empty none) t) rfl h
  cases Encoder.put_writes f (e := .start (.empty none) t) rfl with
  | done _ _ _ _ hwritable => exact hwritable
  | stopped _ _ _ _ _ hstopped =>
    rw [hput] at hstopped
    cases congrArg Prod.fst hstopped

end Wire

open Wire

theorem forall_componentFrames (layout : Layout) (cs : List Component) :
    (∀ f ∈ Field.array (componentFrames cs), f.Writable) ↔ cs.length ≤ Encoder.maxCount ∧
      ∀ c ∈ cs, ((Node.component c).frame layout).Writable := by
  rw [Field.forall_array, componentFrames_eq, List.length_map, List.forall_mem_map]
  rfl

theorem Method.forall_ending (layout : Layout) (m : Method) :
    (∀ f ∈ m.ending layout, f.Writable) ↔
      (layout = .reservedName → m.isConstructor = decide (m.name = constructorName)) ∧
      m.superCalls.length ≤ Encoder.maxCount ∧
      ∀ c ∈ m.superCalls, ((Node.component c).frame layout).Writable := by
  cases layout with
  | kindMarker =>
    cases hk : m.kind with
    | plain => simp [ending, superCalls, hk]
    | constructor calls =>
      rw [ending, superCalls, hk, List.forall_mem_cons, forall_componentFrames .kindMarker]
      simp only [Field.writable_u8, true_and, reduceCtorEq, false_imp_iff]
  | reservedName =>
    cases hk : m.kind with
    | plain =>
      by_cases hn : m.name = constructorName <;>
        simp [ending, superCalls, isConstructor, hk, hn]
    | constructor calls =>
      rw [ending, superCalls, isConstructor, hk]
      by_cases hn : m.name = constructorName
      · simp only [hn, if_true, forall_componentFrames .reservedName, decide_true, true_imp_iff,
          true_and]
      · simp [hn]

namespace Node

def Storable (layout : Layout) (n : Node) : Prop :=
  n.isPlaceholder = false ∧ (∀ k ∈ n.ownCounts, k ≤ Encoder.maxCount) ∧
    (layout = .reservedName → ∀ m, n.method? = some m →
      m.isConstructor = decide (m.name = constructorName))

theorem storable_iff {layout : Layout} {n : Node} (hp : n.isPlaceholder = false)
    (hm : n.method? = none) : n.Storable layout ↔ ∀ k ∈ n.ownCounts, k ≤ Encoder.maxCount := by
  rw [Storable, hp, hm, and_iff_right rfl]
  refine and_iff_left fun _ _ h ↦ ?_
  cases h

theorem writable_frame_method (layout : Layout) (m : Method) :
    ((method m).frame layout).Writable ↔
      (method m).Storable layout ∧ ∀ k ∈ (method m).embedded, (k.frame layout).Writable := by
  rw [frame, Field.writable_frame]
  cases hs : m.synthetic with
  | true =>
    rw [fields, Method.fields, if_pos hs, List.forall_mem_singleton]
    exact iff_of_false id fun h ↦ Bool.false_ne_true (h.1.1.symm.trans hs)
  | false =>
    rw [fields, Method.fields, hs, if_neg Bool.false_ne_true]
    simp only [List.forall_mem_append, List.forall_mem_cons, List.forall_mem_map,
      Field.forall_array, List.length_map, Method.forall_ending layout, Storable, ownCounts,
      method?, embedded, Field.writable_u8, Field.writable_u32, Field.writable_text,
      List.not_mem_nil, false_imp_iff, implies_true, true_and, and_true, and_assoc,
      Option.some.injEq, forall_eq']
    constructor
    · rintro ⟨hplace, hlength, hparameters, hbody, hending, hcount, hcalls⟩
      exact ⟨hs, hlength, hcount, hending, hplace, hparameters, hbody, hcalls⟩
    · rintro ⟨-, hlength, hcount, hending, hplace, hparameters, hbody, hcalls⟩
      exact ⟨hplace, hlength, hparameters, hbody, hending, hcount, hcalls⟩

theorem writable_frame_classDef (layout : Layout) (c : Class) :
    ((classDef c).frame layout).Writable ↔
      (classDef c).Storable layout ∧ ∀ k ∈ (classDef c).embedded, (k.frame layout).Writable := by
  have hstring (s : String) : ((string s).frame layout).Writable := ⟨trivial, trivial⟩
  have hframe (s : String) : (Field.frame .string [.text s]).Writable := ⟨trivial, trivial⟩
  obtain ⟨kind, modifiers, name, imports, supers, interfaces, members, parameters, index⟩ := c
  rw [frame, Field.writable_frame, storable_iff rfl rfl, ownCounts, fields, Class.fields, embedded,
    Class.declaredMembers]
  simp only [List.forall_mem_append, List.forall_mem_cons, List.forall_mem_map, Field.strings,
    Field.forall_names, Field.forall_array, memberFrames_eq, ClassMember.frame_eq,
    List.length_map, Field.writable_u8, Field.writable_u32, Field.writable_text, hstring, hframe,
    List.not_mem_nil, false_imp_iff, implies_true, true_and, and_true, and_assoc]
  constructor
  · rintro ⟨hi, hs, hn, hd, hm, hp⟩
    exact ⟨hi, hs, hn, hd, hp, hm⟩
  · rintro ⟨hi, hs, hn, hd, hp, hm⟩
    exact ⟨hi, hs, hn, hd, hm, hp⟩

theorem writable_frame_iff (layout : Layout) (n : Node) : (n.frame layout).Writable ↔
    n.Storable layout ∧ ∀ m ∈ n.embedded, (m.frame layout).Writable := by
  cases n with
  | byte | int32 | uint32 | uint64 | string | parameter | position =>
    rw [frame, Field.writable_frame, storable_iff rfl rfl]
    simp [fields, Parameter.fields, Position.fields, Field.i32, ownCounts, embedded]
  | codeBlock b =>
    rw [frame, Field.writable_frame, storable_iff rfl rfl, ownCounts, List.forall_mem_singleton,
      fields, CodeBlock.fields, Field.forall_array, statementFrames_eq, List.length_map,
      List.forall_mem_map, embedded, List.forall_mem_map]
    rfl
  | statement s =>
    rw [frame, Field.writable_frame, storable_iff rfl rfl, ownCounts, List.forall_mem_singleton,
      fields, Statement.fields_eq layout, embedded]
    simp only [List.forall_mem_append, List.forall_mem_cons, List.forall_mem_map,
      forall_componentFrames layout, Field.writable_u8, Field.writable_u32, Field.writable_text,
      List.not_mem_nil, false_imp_iff, implies_true, true_and, and_assoc]
  | component c =>
    rw [frame, Field.writable_frame, storable_iff rfl rfl, ownCounts, List.forall_mem_singleton,
      fields, Component.fields_eq layout, embedded]
    simp only [List.forall_mem_append, List.forall_mem_cons, List.forall_mem_map, Field.strings,
      Field.forall_array, List.length_map, Field.writable_u8, Field.writable_u32,
      Field.writable_u64, Field.writable_text, List.not_mem_nil, false_imp_iff, implies_true,
      true_and, and_assoc]
    rfl
  | property p =>
    rw [frame, Field.writable_frame, storable_iff rfl rfl, ownCounts, fields,
      Property.fields_eq layout, embedded]
    simp only [List.forall_mem_append, List.forall_mem_cons, List.forall_mem_map,
      Field.writable_u8, Field.writable_u32, Field.writable_text, List.not_mem_nil, false_imp_iff,
      implies_true, true_and, and_true]
    rfl
  | method m => exact writable_frame_method layout m
  | classDef c => exact writable_frame_classDef layout c

theorem writable_iff (layout : Layout) (n : Node) :
    (n.frame layout).Writable ↔ ∀ m ∈ n.frames, m.Storable layout := by
  induction n using induction with
  | step n ih =>
    rw [writable_frame_iff, forall_frames]
    exact and_congr_right fun _ ↦ forall_congr' fun m ↦ forall_congr' fun hm ↦ ih m hm

/-- Why a node cannot be written: it is a placeholder itself, some list at some level is too long,
or the layout tells constructors by a name that some method does not go by. -/
def Refused (layout : Layout) (n : Node) : Prop :=
  n.isPlaceholder = true ∨ (∃ k ∈ n.counts, Encoder.maxCount < k) ∨
    layout = .reservedName ∧ ∃ m ∈ n.methods, m.isConstructor ≠ decide (m.name = constructorName)

theorem not_refused_iff (layout : Layout) (n : Node) :
    ¬ n.Refused layout ↔ ∀ m ∈ n.frames, m.Storable layout := by
  simp only [Refused, not_or, not_and, not_exists, Nat.not_lt, ne_eq, Classical.not_not,
    Bool.not_eq_true, counts, methods, List.mem_flatMap, List.mem_filterMap]
  constructor
  · rintro ⟨hp, hc, hm⟩ k hk
    exact ⟨isPlaceholder_of_mem_frames hk hp, fun j hj ↦ hc j ⟨k, hk, hj⟩,
      fun hl m hkm ↦ hm hl m ⟨k, hk, hkm⟩⟩
  · intro h
    refine ⟨(h n ?_).1, ?_, ?_⟩
    · rw [frames_eq]
      exact List.mem_cons_self
    · rintro j ⟨k, hk, hj⟩
      exact (h k hk).2.1 j hj
    · rintro hl m ⟨k, hk, hkm⟩
      exact (h k hk).2.2 hl m hkm

end Node

/-- On an output without limit a node is written or refused, and never in any other way. A refusal
is at the end of what was written until then, and a node that is written counts its bytes. -/
theorem Adapter.write_error_iff (a : Adapter) (n : Node) (table : StringTable)
    (out : Array UInt8) : ∃ (emitted : Bytes) (r : Except Failure Nat) (e : Encoder),
      a.write n (.start ⟨none, out⟩ table) = (r, e) ∧ e.sink = ⟨none, out ++ emitted⟩ ∧
      ((∃ f, r = .error f) ↔ n.Refused a.layout) ∧
      (∀ f, r = .error f → ∃ refusal place, f = .unsupported refusal place ∧
        place.offset = emitted.length) ∧
      ∀ count, r = .ok count → count = emitted.length := by
  have hacc : (n.frame a.layout).Writable ↔ ¬ n.Refused a.layout := by
    rw [Node.writable_iff, Node.not_refused_iff]
  obtain ⟨bs, e, he, hput, hw⟩ | ⟨bs, e, he, refusal, place, hput, hplace, hw⟩ :=
    Encoder.put_writes (n.frame a.layout) (e := .start ⟨none, out⟩ table) rfl
  · have ho : e.offset = bs.length := he.offset.trans (Nat.zero_add _)
    have hwrite : a.write n (.start ⟨none, out⟩ table) = (.ok e.offset, e) := by
      rw [write, hput]
    refine ⟨bs, .ok e.offset, e, hwrite, he.sink, ?_, fun f hf ↦ ?_, ?_⟩
    · exact iff_of_false (by simp) (hacc.1 hw)
    · cases hf
    · rintro _ ⟨⟩
      exact ho
  · have ho : e.offset = bs.length := he.offset.trans (Nat.zero_add _)
    have hwrite : a.write n (.start ⟨none, out⟩ table) =
        (.error (.unsupported refusal place), e) := by
      rw [write, hput]
    refine ⟨bs, _, e, hwrite, he.sink, ?_, ?_, fun _ h ↦ ?_⟩
    · exact iff_of_true ⟨_, rfl⟩ (Classical.not_not.1 fun h ↦ hw (hacc.2 h))
    · rintro _ ⟨⟩
      exact ⟨refusal, place, rfl, hplace.trans ho⟩
    · cases h

end TreeBytecode
