import TreeBytecode.Proofs.Spelling
import TreeBytecode.Registry

namespace TreeBytecode

namespace Wire

namespace Sink

variable {s s' : Sink} {bs : Bytes}

theorem accept_of_unlimited (h : s.room = none) (bs : Bytes) :
    s.accept bs = (true, ⟨none, s.written ++ bs⟩) := by
  rw [accept, h]

theorem exists_accept (h : ∀ room, s.room = some room → bs.length ≤ room) :
    ∃ s', s.accept bs = (true, s') := by
  obtain ⟨_ | room, written⟩ := s
  · exact ⟨_, accept_of_unlimited rfl bs⟩
  · exact ⟨_, Prod.ext (decide_eq_true (h room rfl)) rfl⟩

theorem accept_nil (s : Sink) : s.accept [] = (true, s) := by
  obtain ⟨_ | n, written⟩ := s <;> simp [accept]

/-- What comes behind bytes that were accepted is accepted as if it came alone. -/
theorem accept_append_of_accepted (h : s.accept bs = (true, s')) (cs : Bytes) :
    s.accept (bs ++ cs) = s'.accept cs := by
  obtain ⟨_ | n, written⟩ := s
  · obtain rfl := (Prod.mk.inj h).2
    rw [accept_of_unlimited rfl, accept_of_unlimited rfl, append_append]
  · obtain ⟨hn, rfl⟩ := Prod.mk.inj h
    have hle : bs.length ≤ n := of_decide_eq_true hn
    have hroom : (bs ++ cs).length ≤ n ↔ cs.length ≤ n - bs.length := by
      rw [List.length_append]
      omega
    have hrest : n - (bs ++ cs).length = n - bs.length - cs.length := by
      rw [List.length_append]
      omega
    have htaken : (bs ++ cs).take n = bs.take n ++ cs.take (n - bs.length) := List.take_append
    simp only [accept, hroom, hrest, htaken, append_append]

/-- Nothing is accepted behind bytes for which there was no room. -/
theorem accept_append_of_full (h : s.accept bs = (false, s')) (cs : Bytes) :
    s.accept (bs ++ cs) = (false, s') := by
  obtain ⟨_ | n, written⟩ := s
  · cases congrArg Prod.fst h
  · obtain ⟨hn, rfl⟩ := Prod.mk.inj h
    have hlt : n < bs.length := Nat.lt_of_not_le (of_decide_eq_false hn)
    have hroom : ¬ (bs ++ cs).length ≤ n := by
      rw [List.length_append]
      omega
    have hrest : n - (bs ++ cs).length = n - bs.length := by
      rw [List.length_append]
      omega
    have htaken : (bs ++ cs).take n = bs.take n := List.take_append_of_le_length (Nat.le_of_lt hlt)
    simp only [accept, hroom, hrest, htaken, decide_false]

end Sink

namespace Encoder

def unlimited (e : Encoder) : Encoder := { e with sink := .empty none }

/-- From one writer, a step does what it does without limit, as far as there is room. The table
grows in any case; if there is no room for all bytes, it may stop growing early. -/
structure Obeys {α : Type} (x : Step Encoder α) (e : Encoder) (r : Except Failure α)
    (e' : Encoder) : Prop where
  grows : e.table.words <+: e'.table.words
  done {s : Sink} (h : e.sink.accept e'.sink.bytes = (true, s)) : x e = (r, { e' with sink := s })
  full {s : Sink} (h : e.sink.accept e'.sink.bytes = (false, s)) :
    ∃ f, x e = (.error (.device .full), f) ∧ f.sink = s ∧ e.table.words <+: f.table.words ∧
      f.table.words <+: e'.table.words

variable {α β : Type} {x : Step Encoder α} {k : α → Step Encoder β}

namespace Obeys

variable {e e₁ e₂ : Encoder} {r : Except Failure β} {f : Failure} {a : α}

theorem bind_of_error (h : Obeys x e (.error f) e₁) : Obeys (x >>= k) e (.error f) e₁ := by
  constructor
  case grows => exact h.grows
  case done =>
    intro s hs
    exact Step.bind_of_error (h.done hs)
  case full =>
    intro s hs
    obtain ⟨e', he', hrest⟩ := h.full hs
    exact ⟨e', Step.bind_of_error he', hrest⟩

/-- The second step goes on where the first one ended, on whatever output that was. -/
theorem bind_of_ok (h : Obeys x e (.ok a) e₁) (hk : ∀ s, Obeys (k a) { e₁ with sink := s } r e₂) :
    Obeys (x >>= k) e r { e₂ with sink := ⟨none, e₁.sink.written ++ e₂.sink.bytes⟩ } := by
  have hbytes : Sink.bytes ⟨none, e₁.sink.written ++ e₂.sink.bytes⟩ =
      e₁.sink.bytes ++ e₂.sink.bytes := Array.toList_appendList ..
  have hgrows : e₁.table.words <+: e₂.table.words := (hk e₁.sink).grows
  constructor
  case grows => exact h.grows.trans hgrows
  case done =>
    intro s hs
    rw [hbytes] at hs
    rcases haccept : e.sink.accept e₁.sink.bytes with ⟨_ | _, s₁⟩
    · rw [Sink.accept_append_of_full haccept] at hs
      cases congrArg Prod.fst hs
    · rw [Sink.accept_append_of_accepted haccept] at hs
      rw [Step.bind_of_ok (h.done haccept)]
      exact (hk s₁).done hs
  case full =>
    intro s hs
    rw [hbytes] at hs
    rcases haccept : e.sink.accept e₁.sink.bytes with ⟨_ | _, s₁⟩
    · rw [Sink.accept_append_of_full haccept] at hs
      obtain rfl := (Prod.mk.inj hs).2
      obtain ⟨e', he', hsink, hbefore, hafter⟩ := h.full haccept
      exact ⟨e', Step.bind_of_error he', hsink, hbefore, hafter.trans hgrows⟩
    · rw [Sink.accept_append_of_accepted haccept] at hs
      obtain ⟨e', he', hsink, hbefore, hafter⟩ := (hk s₁).full hs
      refine ⟨e', ?_, hsink, h.grows.trans hbefore, hafter⟩
      rw [Step.bind_of_ok (h.done haccept)]
      exact he'

end Obeys

/-- What the step does without limit settles what it does on any output. -/
def Steady (x : Step Encoder α) : Prop := ∀ e, Obeys x e (x e.unlimited).1 (x e.unlimited).2

namespace Steady

/-- Without limit, the bytes come behind those that are there. -/
theorem apply_of_unlimited (h : Steady x) {e : Encoder} (he : e.sink.room = none) :
    x e = ((x e.unlimited).1, { (x e.unlimited).2 with
      sink := ⟨none, e.sink.written ++ (x e.unlimited).2.sink.bytes⟩ }) :=
  (h e).done (Sink.accept_of_unlimited he _)

theorem room_unlimited (h : Steady x) (e : Encoder) : (x e.unlimited).2.sink.room = none := by
  have happly := h.apply_of_unlimited (e := e.unlimited) rfl
  rw [happly]

theorem bind (hx : Steady x) (hk : ∀ a, Steady (k a)) : Steady (x >>= k) := by
  intro e
  have hxe := hx e
  rcases hrun : x e.unlimited with ⟨f | a, e₁⟩
  · rw [hrun] at hxe
    rw [Step.bind_of_error hrun]
    exact hxe.bind_of_error
  · rw [hrun] at hxe
    have hroom : e₁.sink.room = none := by
      rw [← hx.room_unlimited e, hrun]
    rw [Step.bind_of_ok hrun, (hk a).apply_of_unlimited hroom]
    apply hxe.bind_of_ok
    intro s
    exact hk a { e₁ with sink := s }

theorem unlimited_of_ok (h : Steady x) {e e' : Encoder} {a : α} (hrun : x e = (.ok a, e')) :
    ∃ full, x e.unlimited = (.ok a, full) ∧ full.table = e'.table ∧
      e'.sink.bytes = e.sink.bytes ++ full.sink.bytes := by
  rcases haccept : e.sink.accept (x e.unlimited).2.sink.bytes with ⟨_ | _, s⟩
  · obtain ⟨f, hfull, -⟩ := (h e).full haccept
    cases congrArg Prod.fst (hrun.symm.trans hfull)
  · obtain ⟨hok, rfl⟩ := Prod.mk.inj (hrun.symm.trans ((h e).done haccept))
    exact ⟨_, Prod.ext hok.symm rfl, rfl, Sink.bytes_of_accept haccept⟩

theorem of_silent (h : ∀ e s, x { e with sink := s } = ((x e).1, { (x e).2 with sink := s }))
    (htable : ∀ e, (x e).2.table = e.table) : Steady x := by
  intro e
  have hbytes : (x e.unlimited).2.sink.bytes = [] := by
    rw [unlimited, h]
    rfl
  have haccept : e.sink.accept (x e.unlimited).2.sink.bytes = (true, e.sink) := by
    rw [hbytes, Sink.accept_nil]
  constructor
  case grows =>
    rw [htable]
    exact List.prefix_rfl
  case done =>
    intro s hs
    obtain rfl := (Prod.mk.inj (haccept.symm.trans hs)).2
    exact h e.unlimited e.sink
  case full =>
    intro s hs
    cases congrArg Prod.fst (haccept.symm.trans hs)

end Steady

theorem emit_steady (bs : Bytes) : Steady (emit bs) := by
  intro e
  let written : Encoder :=
    { e with sink := ⟨none, (#[] : Array UInt8) ++ bs⟩, offset := e.offset + bs.length }
  have hrun : emit bs e.unlimited = (.ok (), written) := rfl
  have hbytes : written.sink.bytes = bs := Array.toList_appendList ..
  rw [hrun]
  constructor
  case grows => exact List.prefix_rfl
  case done =>
    intro s hs
    rw [hbytes] at hs
    rw [emit, hs]
  case full =>
    intro s hs
    rw [hbytes] at hs
    refine ⟨{ e with sink := s }, ?_, rfl, List.prefix_rfl, List.prefix_rfl⟩
    rw [emit, hs]

theorem refuse_steady (r : Refusal) : Steady (refuse r) := .of_silent (fun _ _ ↦ rfl) fun _ ↦ rfl

/-- The string is interned first, wherever the id goes. -/
theorem emitText_steady (s : String) : Steady (emitText s) := by
  intro e
  have hemit := emit_steady (word 4 (e.table.intern s).1.toNat)
    { e with table := (e.table.intern s).2 }
  have hinsert : e.table.words <+: (e.table.intern s).2.words := StringTable.prefix_insert e.table s
  constructor
  case grows => exact hinsert.trans hemit.grows
  case done => exact hemit.done
  case full =>
    intro s' hs
    obtain ⟨f, hf, hsink, hbefore, hafter⟩ := hemit.full hs
    exact ⟨f, hf, hsink, hinsert.trans hbefore, hafter⟩

theorem emitCount_steady (n : Nat) : Steady (emitCount n) := by
  rw [emitCount]
  split
  · exact emit_steady _
  · exact refuse_steady _

theorem enter_steady (t : Tag) : Steady (Step.modify (enter t)) :=
  .of_silent (fun _ _ ↦ rfl) fun _ ↦ rfl

theorem leave_steady : Steady (Step.modify leave) := .of_silent (fun _ _ ↦ rfl) fun _ ↦ rfl

def count : Step Encoder Nat := fun e ↦ (.ok e.offset, e)

theorem count_steady : Steady count := .of_silent (fun _ _ ↦ rfl) fun _ ↦ rfl

mutual

theorem put_steady : ∀ f : Field, Steady (put f)
  | .raw bs => by
    rw [put]
    exact emit_steady bs
  | .count n => by
    rw [put]
    exact emitCount_steady n
  | .text s => by
    rw [put]
    exact emitText_steady s
  | .refusal r => by
    rw [put]
    exact refuse_steady r
  | .frame t payload => by
    rw [put]
    exact (emit_steady [t.code]).bind fun _ ↦ (enter_steady t).bind fun _ ↦
      (putAll_steady payload).bind fun _ ↦ leave_steady

theorem putAll_steady : ∀ fs : List Field, Steady (putAll fs)
  | [] => by
    rw [putAll]
    exact .of_silent (fun _ _ ↦ rfl) fun _ ↦ rfl
  | f :: fs => by
    rw [putAll]
    exact (put_steady f).bind fun _ ↦ putAll_steady fs

end

end Encoder

end Wire

open Wire

theorem Adapter.write_eq_bind (a : Adapter) (n : Node) :
    a.write n = Encoder.put (n.frame a.layout) >>= fun _ ↦ Encoder.count := by
  funext e
  rw [Step.bind_apply, write]
  rcases Encoder.put (n.frame a.layout) e with ⟨_ | _, _⟩ <;> rfl

/-- How a node is written does not depend on the output either. -/
theorem Adapter.write_steady (a : Adapter) (n : Node) : Encoder.Steady (a.write n) := by
  rw [write_eq_bind]
  exact (Encoder.put_steady _).bind fun _ ↦ Encoder.count_steady

end TreeBytecode
