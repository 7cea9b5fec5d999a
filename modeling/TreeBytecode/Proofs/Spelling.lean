import TreeBytecode.Proofs.Growth
import TreeBytecode.Wire.Encoder

namespace TreeBytecode.Wire

namespace Field

mutual

/-- The bytes of a field, if it can be written without a new string. -/
def bytes? (t : StringTable) : Field → Option Bytes
  | .raw bs => some bs
  | .count n => if n ≤ Encoder.maxCount then some (word 4 n) else none
  | .text s => (t.find? s).bind fun i ↦ if i < UInt32.size then some (word 4 i) else none
  | .frame tag payload => (allBytes? t payload).map (tag.code :: ·)
  | .refusal _ => none

def allBytes? (t : StringTable) : List Field → Option Bytes
  | [] => some []
  | f :: fs => (bytes? t f).bind fun bs ↦ (allBytes? t fs).map (bs ++ ·)

end

variable {t : StringTable} {f : Field} {fs gs : List Field} {bs : Bytes}

theorem bytes?_text {s : String} :
    (text s).bytes? t = some bs ↔ ∃ i, t.find? s = some i ∧ i < UInt32.size ∧ bs = word 4 i := by
  simp only [bytes?, Option.bind_eq_some_iff, Option.ite_none_right_eq_some, Option.some.injEq,
    @eq_comm _ bs]

theorem bytes?_frame {tag : Tag} :
    (frame tag fs).bytes? t = some bs ↔ ∃ cs, allBytes? t fs = some cs ∧ bs = tag.code :: cs := by
  simp only [bytes?, Option.map_eq_some_iff, @eq_comm _ bs]

theorem allBytes?_cons : allBytes? t (f :: fs) = some bs ↔
    ∃ b₁ b₂, f.bytes? t = some b₁ ∧ allBytes? t fs = some b₂ ∧ bs = b₁ ++ b₂ := by
  simp only [allBytes?, Option.bind_eq_some_iff, Option.map_eq_some_iff]
  constructor
  · rintro ⟨b₁, h₁, b₂, h₂, rfl⟩
    exact ⟨b₁, b₂, h₁, h₂, rfl⟩
  · rintro ⟨b₁, b₂, h₁, h₂, rfl⟩
    exact ⟨b₁, h₁, b₂, h₂, rfl⟩

theorem allBytes?_append : allBytes? t (fs ++ gs) = some bs ↔
    ∃ b₁ b₂, allBytes? t fs = some b₁ ∧ allBytes? t gs = some b₂ ∧ bs = b₁ ++ b₂ := by
  induction fs generalizing bs with
  | nil =>
    constructor
    · intro h
      exact ⟨[], bs, rfl, h, rfl⟩
    · rintro ⟨_, b₂, ⟨⟩, h, rfl⟩
      exact h
  | cons f fs ih =>
    simp only [List.cons_append, allBytes?_cons, ih]
    constructor
    · rintro ⟨b₁, _, h₁, ⟨b₂, b₃, h₂, h₃, rfl⟩, rfl⟩
      exact ⟨b₁ ++ b₂, b₃, ⟨b₁, b₂, h₁, h₂, rfl⟩, h₃, (List.append_assoc ..).symm⟩
    · rintro ⟨_, b₃, ⟨b₁, b₂, h₁, h₂, rfl⟩, h₃, rfl⟩
      exact ⟨b₁, b₂ ++ b₃, h₁, ⟨b₂, b₃, h₂, h₃, rfl⟩, List.append_assoc ..⟩

theorem allBytes?_singleton : allBytes? t [f] = f.bytes? t := by
  rw [allBytes?]
  cases f.bytes? t <;> simp [allBytes?]

end Field

theorem Sink.append_append (written : Array UInt8) (bs cs : Bytes) :
    written ++ (bs ++ cs) = written ++ bs ++ cs := by
  apply Array.ext'
  simp only [Array.toList_appendList, List.append_assoc]

theorem Sink.bytes_of_accept {s s' : Sink} {bs : Bytes} (h : s.accept bs = (true, s')) :
    s'.bytes = s.bytes ++ bs := by
  obtain ⟨_ | room, written⟩ := s
  · obtain rfl := congrArg Prod.snd h
    exact Array.toList_appendList ..
  · obtain ⟨hn, rfl⟩ := Prod.mk.inj h
    rw [bytes, List.take_of_length_le (of_decide_eq_true hn)]
    exact Array.toList_appendList ..

/-- The fields are written in these bytes, and they turn the one table into the other. -/
inductive Written : StringTable → List Field → Bytes → StringTable → Prop
  | nil (t : StringTable) : Written t [] [] t
  | raw (bs : Bytes) {t t' : StringTable} {fs : List Field} {cs : Bytes}
      (rest : Written t fs cs t') : Written t (.raw bs :: fs) (bs ++ cs) t'
  | count {n : Nat} {t t' : StringTable} {fs : List Field} {cs : Bytes}
      (h : n ≤ Encoder.maxCount) (rest : Written t fs cs t') :
      Written t (.count n :: fs) (word 4 n ++ cs) t'
  | text (s : String) {t t' : StringTable} {fs : List Field} {cs : Bytes}
      (rest : Written (t.intern s).2 fs cs t') :
      Written t (.text s :: fs) (word 4 (t.intern s).1.toNat ++ cs) t'
  | frame (tag : Tag) {t t' t'' : StringTable} {payload fs : List Field} {bs cs : Bytes}
      (inside : Written t payload bs t') (rest : Written t' fs cs t'') :
      Written t (.frame tag payload :: fs) (tag.code :: bs ++ cs) t''

namespace Written

variable {t t' t'' : StringTable} {fs gs : List Field} {bs cs : Bytes}

theorem append (h : Written t fs bs t') (h' : Written t' gs cs t'') :
    Written t (fs ++ gs) (bs ++ cs) t'' := by
  induction h with
  | nil => exact h'
  | raw bs _ ih =>
    rw [List.append_assoc]
    exact .raw bs (ih h')
  | count hn _ ih =>
    rw [List.append_assoc]
    exact .count hn (ih h')
  | text s _ ih =>
    rw [List.append_assoc]
    exact .text s (ih h')
  | frame tag hin _ _ ih =>
    rw [List.append_assoc]
    exact .frame tag hin (ih h')

theorem split (h : Written t (fs ++ gs) bs t'') :
    ∃ b₁ b₂ t', Written t fs b₁ t' ∧ Written t' gs b₂ t'' ∧ bs = b₁ ++ b₂ := by
  induction fs generalizing t bs with
  | nil => exact ⟨[], bs, t, .nil t, h, rfl⟩
  | cons f fs ih =>
    cases h with
    | raw bs rest =>
      obtain ⟨b₁, b₂, t', h₁, h₂, rfl⟩ := ih rest
      exact ⟨_, b₂, t', .raw bs h₁, h₂, (List.append_assoc ..).symm⟩
    | count hn rest =>
      obtain ⟨b₁, b₂, t', h₁, h₂, rfl⟩ := ih rest
      exact ⟨_, b₂, t', .count hn h₁, h₂, (List.append_assoc ..).symm⟩
    | text s rest =>
      obtain ⟨b₁, b₂, t', h₁, h₂, rfl⟩ := ih rest
      exact ⟨_, b₂, t', .text s h₁, h₂, (List.append_assoc ..).symm⟩
    | frame tag hin rest =>
      obtain ⟨b₁, b₂, t', h₁, h₂, rfl⟩ := ih rest
      exact ⟨_, b₂, t', .frame tag hin h₁, h₂, (List.append_assoc ..).symm⟩

theorem singleton_frame {tag : Tag} (h : Written t fs bs t') :
    Written t [.frame tag fs] (tag.code :: bs) t' := by
  have hframe := Written.frame tag h (.nil t')
  rwa [List.append_nil] at hframe

theorem of_singleton_frame {tag : Tag} (h : Written t [.frame tag fs] bs t') :
    ∃ cs, Written t fs cs t' ∧ bs = tag.code :: cs := by
  cases h with
  | frame tag hin rest =>
    cases rest
    exact ⟨_, hin, List.append_nil _⟩

theorem not_refusal {r : Refusal} : ¬ Written t (.refusal r :: fs) bs t' := nofun

theorem grows (h : Written t fs bs t') : t.words <+: t'.words := by
  induction h with
  | nil => exact List.prefix_rfl
  | raw _ _ ih => exact ih
  | count _ _ ih => exact ih
  | text s _ ih => exact (StringTable.prefix_insert _ s).trans ih
  | frame _ _ _ ih₁ ih₂ => exact ih₁.trans ih₂

/-- What was written are the bytes under any table that the one of the end grows into. -/
theorem allBytes? (h : Written t fs bs t') {grown : StringTable}
    (hp : t'.words <+: grown.words) (hs : grown.size ≤ UInt32.size) :
    Field.allBytes? grown fs = some bs := by
  induction h with
  | nil => rfl
  | raw bs _ ih => exact Field.allBytes?_cons.2 ⟨bs, _, rfl, ih hp, rfl⟩
  | @count n _ _ _ _ hn _ ih =>
    have hcount : (Field.count n).bytes? grown = some (word 4 n) := by
      rw [Field.bytes?, if_pos hn]
    exact Field.allBytes?_cons.2 ⟨_, _, hcount, ih hp, rfl⟩
  | @text s t _ _ _ rest ih =>
    have hfind : grown.find? s = some (t.number s) :=
      StringTable.find?_mono (rest.grows.trans hp) (StringTable.find?_insert_self t s)
    have hlt := Nat.lt_of_lt_of_le (StringTable.lt_size_of_find? hfind) hs
    have htext : (Field.text s).bytes? grown = some (word 4 (t.intern s).1.toNat) := by
      refine Field.bytes?_text.2 ⟨_, hfind, hlt, ?_⟩
      rw [StringTable.intern_eq, UInt32.toNat_ofNat_of_lt' hlt]
    exact Field.allBytes?_cons.2 ⟨_, _, htext, ih hp, rfl⟩
  | @frame tag _ _ _ payload _ bs _ _ rest ih₁ ih₂ =>
    have hframe : (Field.frame tag payload).bytes? grown = some (tag.code :: bs) :=
      Field.bytes?_frame.2 ⟨bs, ih₁ (rest.grows.trans hp), rfl⟩
    exact Field.allBytes?_cons.2 ⟨_, _, hframe, ih₂ hp, rfl⟩

end Written

mutual

theorem written_of_bytes? {t : StringTable} : ∀ (f : Field) {bs : Bytes},
    f.bytes? t = some bs → Written t [f] bs t
  | .raw cs, bs, h => by
    rw [Field.bytes?] at h
    obtain rfl := Option.some.inj h
    have hraw := Written.raw cs (.nil t)
    rwa [List.append_nil] at hraw
  | .count n, bs, h => by
    rw [Field.bytes?, Option.ite_none_right_eq_some] at h
    obtain ⟨hn, h⟩ := h
    obtain rfl := Option.some.inj h
    have hcount := Written.count hn (.nil t)
    rwa [List.append_nil] at hcount
  | .text s, bs, h => by
    obtain ⟨i, hi, hlt, rfl⟩ := Field.bytes?_text.1 h
    have hstay : t.insert s = t := StringTable.insert_of_mem (StringTable.mem_of_find? hi)
    have htext := Written.text s (.nil (t.intern s).2)
    rwa [List.append_nil, StringTable.intern_eq, hstay, StringTable.number_of_find? hi,
      UInt32.toNat_ofNat_of_lt' hlt] at htext
  | .refusal r, bs, h => by
    rw [Field.bytes?] at h
    cases h
  | .frame tag payload, bs, h => by
    obtain ⟨cs, hc, rfl⟩ := Field.bytes?_frame.1 h
    exact (written_of_allBytes? payload hc).singleton_frame

theorem written_of_allBytes? {t : StringTable} : ∀ (fs : List Field) {bs : Bytes},
    Field.allBytes? t fs = some bs → Written t fs bs t
  | [], bs, h => by
    rw [Field.allBytes?] at h
    obtain rfl := Option.some.inj h
    exact .nil t
  | f :: fs, bs, h => by
    obtain ⟨b₁, b₂, h₁, h₂, rfl⟩ := Field.allBytes?_cons.1 h
    exact (written_of_bytes? f h₁).append (written_of_allBytes? fs h₂)

end

namespace Encoder

/-- From one state of an encoder to another, these bytes were written. -/
structure Wrote (e e' : Encoder) (bs : Bytes) : Prop where
  bytes : e'.sink.bytes = e.sink.bytes ++ bs
  offset : e'.offset = e.offset + bs.length
  frames : e'.frames = e.frames

theorem Wrote.refl (e : Encoder) : e.Wrote e [] := ⟨(List.append_nil _).symm, rfl, rfl⟩

theorem Wrote.trans {e₁ e₂ e₃ : Encoder} {bs cs : Bytes} (h : e₁.Wrote e₂ bs)
    (h' : e₂.Wrote e₃ cs) : e₁.Wrote e₃ (bs ++ cs) where
  bytes := by rw [h'.bytes, h.bytes, List.append_assoc]
  offset := by rw [h'.offset, h.offset, List.length_append, Nat.add_assoc]
  frames := h'.frames.trans h.frames

theorem Wrote.leave {e e' : Encoder} {bs : Bytes} {tag : Tag} (h : (enter tag e).Wrote e' bs) :
    e.Wrote (leave e') bs where
  bytes := h.bytes
  offset := h.offset
  frames := by rw [Encoder.leave, h.frames, enter, List.tail_cons]

theorem emit_ok {bs : Bytes} {e e' : Encoder} (h : emit bs e = (.ok (), e')) :
    e.Wrote e' bs ∧ e'.table = e.table := by
  simp only [emit] at h
  split at h
  · next sink hs =>
    obtain ⟨-, rfl⟩ := Prod.mk.inj h
    exact ⟨⟨Sink.bytes_of_accept hs, rfl, rfl⟩, rfl⟩
  · cases h

theorem emitCount_ok {n : Nat} {e e' : Encoder} (h : emitCount n e = (.ok (), e')) :
    n ≤ maxCount ∧ emit (word 4 n) e = (.ok (), e') := by
  by_cases hn : n ≤ maxCount
  · rw [emitCount, if_pos hn] at h
    exact ⟨hn, h⟩
  · rw [emitCount, if_neg hn] at h
    cases congrArg Prod.fst h

mutual

theorem put_ok : ∀ (f : Field) {e e' : Encoder}, put f e = (.ok (), e') →
    ∃ bs, e.Wrote e' bs ∧ Written e.table [f] bs e'.table
  | .raw bs, e, e', h => by
    rw [put] at h
    obtain ⟨hw, htable⟩ := emit_ok h
    have hraw := Written.raw bs (.nil e.table)
    rw [List.append_nil] at hraw
    exact ⟨bs, hw, htable ▸ hraw⟩
  | .count n, e, e', h => by
    rw [put] at h
    obtain ⟨hn, h⟩ := emitCount_ok h
    obtain ⟨hw, htable⟩ := emit_ok h
    have hcount := Written.count hn (.nil e.table)
    rw [List.append_nil] at hcount
    exact ⟨_, hw, htable ▸ hcount⟩
  | .text s, e, e', h => by
    rw [put] at h
    obtain ⟨hw, htable⟩ := emit_ok h
    have htext := Written.text s (.nil (e.table.intern s).2)
    rw [List.append_nil] at htext
    exact ⟨_, ⟨hw.bytes, hw.offset, hw.frames⟩, htable ▸ htext⟩
  | .refusal r, e, e', h => by
    rw [put] at h
    cases congrArg Prod.fst h
  | .frame tag payload, e, e', h => by
    rw [put] at h
    obtain ⟨⟨⟩, e₁, h₁, h⟩ := Step.bind_eq_ok.1 h
    obtain ⟨⟨⟩, e₂, h₂, h⟩ := Step.bind_eq_ok.1 h
    obtain ⟨⟨⟩, e₃, h₃, h₄⟩ := Step.bind_eq_ok.1 h
    obtain rfl : enter tag e₁ = e₂ := congrArg Prod.snd h₂
    obtain rfl : leave e₃ = e' := congrArg Prod.snd h₄
    obtain ⟨bs, hw, hin⟩ := putAll_ok payload h₃
    obtain ⟨htag, htable⟩ := emit_ok h₁
    have hin' : Written e.table payload bs e₃.table := htable ▸ hin
    exact ⟨tag.code :: bs, htag.trans hw.leave, hin'.singleton_frame⟩

/-- Whatever the output, fields that are put are written. -/
theorem putAll_ok : ∀ (fs : List Field) {e e' : Encoder}, putAll fs e = (.ok (), e') →
    ∃ bs, e.Wrote e' bs ∧ Written e.table fs bs e'.table
  | [], e, e', h => by
    rw [putAll] at h
    obtain rfl : e = e' := congrArg Prod.snd h
    exact ⟨[], .refl e, .nil e.table⟩
  | f :: fs, e, e', h => by
    rw [putAll] at h
    obtain ⟨⟨⟩, e₁, h₁, h₂⟩ := Step.bind_eq_ok.1 h
    obtain ⟨bs, hw, hb⟩ := put_ok f h₁
    obtain ⟨cs, hw', hc⟩ := putAll_ok fs h₂
    exact ⟨bs ++ cs, hw.trans hw', hb.append hc⟩

end

def append (bs : Bytes) (e : Encoder) : Encoder :=
  { e with sink := ⟨none, e.sink.written ++ bs⟩, offset := e.offset + bs.length }

theorem append_append (bs cs : Bytes) (e : Encoder) :
    append cs (append bs e) = append (bs ++ cs) e := by
  simp only [append, Sink.append_append, List.length_append, Nat.add_assoc]

theorem emit_of_room {e : Encoder} (h : e.sink.room = none) (bs : Bytes) :
    emit bs e = (.ok (), append bs e) := by
  simp only [emit, Sink.accept, h, append]

def advance (bs : Bytes) (t : StringTable) (e : Encoder) : Encoder :=
  { append bs e with table := t }

theorem put_cons {f : Field} {fs : List Field} {t t' : StringTable} {bs cs : Bytes} {e : Encoder}
    (h : put f e = (.ok (), advance bs t e))
    (h' : putAll fs (advance bs t e) = (.ok (), advance cs t' (advance bs t e))) :
    putAll (f :: fs) e = (.ok (), advance (bs ++ cs) t' e) := by
  rw [putAll, Step.bind_of_ok h, h']
  simp only [advance, append, Sink.append_append, List.length_append, Nat.add_assoc]

theorem putAll_of_written {t t' : StringTable} {fs : List Field} {bs : Bytes}
    (h : Written t fs bs t') {e : Encoder} (hr : e.sink.room = none) (ht : e.table = t) :
    putAll fs e = (.ok (), advance bs t' e) := by
  induction h generalizing e with
  | nil t =>
    obtain ⟨⟨room, written⟩, offset, frames, table⟩ := e
    obtain rfl : room = none := hr
    obtain rfl : table = t := ht
    simp [putAll, advance, append, Step.pure_apply]
  | @raw bs t _ _ _ _ ih =>
    have hput : put (.raw bs) e = (.ok (), advance bs t e) := by
      rw [put, emit_of_room hr, advance, ← ht]
      rfl
    exact put_cons hput (ih rfl rfl)
  | @count n t _ _ _ hn _ ih =>
    have hput : put (.count n) e = (.ok (), advance (word 4 n) t e) := by
      rw [put, emitCount, if_pos hn, emit_of_room hr, advance, ← ht]
      rfl
    exact put_cons hput (ih rfl rfl)
  | @text s t _ _ _ _ ih =>
    have hput : put (.text s) e =
        (.ok (), advance (word 4 (t.intern s).1.toNat) (t.intern s).2 e) := by
      rw [put, emitText, ht]
      exact emit_of_room (e := { e with table := (t.intern s).2 }) hr _
    exact put_cons hput (ih rfl rfl)
  | @frame tag _ t' _ payload _ bs _ _ _ ih₁ ih₂ =>
    have hin := ih₁ (e := enter tag (append [tag.code] e)) rfl ht
    have hput : put (.frame tag payload) e = (.ok (), advance (tag.code :: bs) t' e) := by
      rw [put, Step.bind_of_ok (emit_of_room hr _), Step.bind_of_ok (Step.modify_apply _ _),
        Step.bind_of_ok hin, Step.modify_apply]
      exact congrArg (fun e : Encoder ↦ (Except.ok (), { e with table := t' }))
        (append_append [tag.code] bs e)
    exact put_cons hput (ih₂ rfl rfl)

theorem putAll_singleton (f : Field) : putAll [f] = put f := by
  rw [putAll, putAll]
  exact bind_pure _

theorem putAll_of_bytes? (fs : List Field) {e : Encoder} {bs : Bytes} (hr : e.sink.room = none)
    (h : Field.allBytes? e.table fs = some bs) : putAll fs e = (.ok (), append bs e) :=
  putAll_of_written (written_of_allBytes? fs h) hr rfl

theorem put_of_bytes? (f : Field) {e : Encoder} {bs : Bytes} (hr : e.sink.room = none)
    (h : f.bytes? e.table = some bs) : put f e = (.ok (), append bs e) := by
  rw [← putAll_singleton]
  exact putAll_of_bytes? [f] hr (Field.allBytes?_singleton.trans h)

end Encoder

end TreeBytecode.Wire
