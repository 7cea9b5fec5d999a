import Mathlib.Algebra.Group.Nat.Defs
import TreeBytecode.Proofs.FirstTag
import TreeBytecode.Proofs.Loops
import TreeBytecode.Proofs.Markers

namespace TreeBytecode

open Wire

namespace Wire

theorem word_succ (width n : Nat) :
    word (width + 1) n = word width n ++ [UInt8.ofNat (n / capacity width)] := by
  induction width generalizing n with
  | zero =>
    rw [capacity, Nat.div_one]
    rfl
  | succ width ih =>
    rw [word, ih, word, capacity, Nat.div_div_eq_div_mul, List.cons_append]

/-- Behind one more byte a word is shifted by a place, and its highest byte falls out. -/
theorem cons_word (b : UInt8) (width n : Nat) : b :: word (width + 1) n =
    word (width + 1) (b.toNat + 256 * n) ++ [UInt8.ofNat (n / capacity width)] := by
  have hb := b.toNat_lt
  have hlow : UInt8.ofNat (b.toNat + 256 * n) = b := by
    apply UInt8.toNat_inj.1
    rw [UInt8.toNat_ofNat']
    omega
  have hhigh : (b.toNat + 256 * n) / 256 = n := by omega
  rw [word_succ width n, word, hlow, hhigh, List.cons_append]

theorem ofBytes_word_mod (width n : Nat) : ofBytes (word width n) = n % capacity width := by
  induction width generalizing n with
  | zero => rw [capacity, Nat.mod_one, word, ofBytes]
  | succ width ih =>
    rw [word, ofBytes, ih, UInt8.toNat_ofNat', capacity, Nat.mod_mul]

theorem signed_ofBytes_word (n : Nat) : signed (ofBytes (word 4 n)) = signed n := by
  rw [ofBytes_word_mod, signed, signed, show capacity 4 = 2 ^ 32 from rfl, UInt32.ofNat_mod_size]

theorem toInt_signed_ne_zero {n : Nat} (h : n % 256 = 1) : (signed n).toInt ≠ 0 := by
  have hn : (signed n).toInt = (n : Int).bmod (2 ^ 32) := Int32.toInt_ofNat'
  rw [hn, Int.bmod_def]
  split <;> omega

theorem Tag.exists_code_of_lt {n : Nat} (h : n < 12) :
    ∃ t : Tag, t.code = UInt8.ofNat n ∧ t ≠ .component := by
  have hlt : n < all.length := Nat.lt_trans h (by decide)
  have hcode : all[n].code.toNat = n := code_of_ofCode? (List.getElem?_eq_getElem hlt)
  refine ⟨all[n], ?_, fun hcomponent ↦ ?_⟩
  · rw [← UInt8.ofNat_toNat (x := all[n].code), hcode]
  · rw [hcomponent] at hcode
    exact absurd (hcode : 12 = n) (Nat.ne_of_gt h)

namespace Plan

variable {scope : Scope} {frame : (e : Expectation) → Step Cursor e.Content}

theorem i32_run_word (n : Nat) (rest : Bytes) (ending : Ending) (offset : Nat)
    (frames : List Tag) : i32.run scope frame ⟨Wire.word 4 n ++ rest, ending, offset, frames⟩ =
      (.ok (signed n), ⟨rest, ending, offset + 4, frames⟩) := by
  have hread := (Cursor.readWord_parses 4).complete ⟨length_word 4 n, rfl⟩ rest ending offset frames
  have hrun : i32.run scope frame =
      Cursor.readWord 4 >>= fun k ↦ (Plan.pure (signed k)).run scope frame :=
    run_bind (word 4) fun k ↦ Plan.pure (signed k)
  rw [hrun, Step.bind_of_ok hread, signed_ofBytes_word, length_word]
  rfl

theorem length_run_of_negative {n : Nat} (hn : (signed n).toInt < 0) (rest : Bytes)
    (ending : Ending) (offset : Nat) (frames : List Tag) :
    length.run scope frame ⟨Wire.word 4 n ++ rest, ending, offset, frames⟩ =
      (.error (.malformed (.negativeLength (signed n).toInt) ⟨frames.head?, offset⟩),
        ⟨rest, ending, offset + 4, frames⟩) := by
  simp only [length, run_checked, Step.judged, i32_run_word, if_pos hn]
  rfl

theorem length_run_of_nonneg {n : Nat} (hn : ¬ (signed n).toInt < 0) (rest : Bytes)
    (ending : Ending) (offset : Nat) (frames : List Tag) :
    length.run scope frame ⟨Wire.word 4 n ++ rest, ending, offset, frames⟩ =
      (.ok (signed n).toInt.toNat, ⟨rest, ending, offset + 4, frames⟩) := by
  simp only [length, run_checked, Step.judged, i32_run_word, if_neg hn]

end Plan

end Wire

/-- An array of components that begins with the marker of a constructor instead of its count, and
has the count behind that, fails: the count is negative, or what comes next is no component. -/
theorem Decoder.array_of_shifted (d : Decoder) (levels : Nat) {n : Nat} (hn : n < 12 * 2 ^ 24)
    (rest : Bytes) (ending : Ending) (offset : Nat) (frames : List Tag) :
    let read := (signed (1 + 256 * n)).toInt
    ∃ defect behind c, (Plan.array (.only .component)).run d.scope (d.frame levels .embedded)
        ⟨Method.constructorMarker :: word 4 n ++ rest, ending, offset, frames⟩ =
          (.error (.malformed defect ⟨frames.head?, offset + behind⟩), c) ∧
      (read < 0 ∧ defect = .negativeLength read ∧ behind = 0 ∨
        0 < read ∧ ∃ t : Tag, t.code = UInt8.ofNat (n / 2 ^ 24) ∧ t ≠ .component ∧
          defect = .unexpectedFrame (.only .component) t ∧ behind = 4) := by
  intro read
  have hword : Method.constructorMarker :: word 4 n ++ rest =
      word 4 (1 + 256 * n) ++ (UInt8.ofNat (n / 2 ^ 24) :: rest) := by
    have hcons := cons_word Method.constructorMarker 3 n
    rw [hcons, List.append_assoc]
    rfl
  have hrun : (Plan.array (.only .component)).run d.scope (d.frame levels .embedded) =
      Plan.length.run d.scope (d.frame levels .embedded) >>= fun count ↦
        ((Plan.child (.only .component)).times count).run d.scope (d.frame levels .embedded) :=
    Plan.run_bind Plan.length _
  rw [hword, hrun]
  by_cases hneg : (signed (1 + 256 * n)).toInt < 0
  · rw [Step.bind_of_error (Plan.length_run_of_negative hneg ..)]
    exact ⟨_, 0, _, rfl, .inl ⟨hneg, rfl, rfl⟩⟩
  · -- the count is not zero, so the next byte is taken for the tag of a component
    rw [Step.bind_of_ok (Plan.length_run_of_nonneg hneg ..)]
    have hne := toInt_signed_ne_zero (n := 1 + 256 * n) (by omega)
    have hpos : 0 < (signed (1 + 256 * n)).toInt := by omega
    obtain ⟨count, hcount⟩ : ∃ count, (signed (1 + 256 * n)).toInt.toNat = count + 1 :=
      Nat.exists_eq_add_one.2 (Int.lt_toNat.2 hpos)
    obtain ⟨t, hcode, ht⟩ := Tag.exists_code_of_lt (n := n / 2 ^ 24) (by omega)
    let c : Cursor := ⟨t.code :: rest, ending, offset + 4, frames⟩
    have hnext : c.next? = some t.code := by
      have hfill : c.fill 1 = c :=
        Cursor.fill_append (show [t.code].length = 1 from rfl) rest ending (offset + 4) frames
      rw [Cursor.next?, hfill]
      rfl
    have hrefused : Expectation.accepts (.only .component) t = false :=
      beq_false_of_ne (Ne.symm ht)
    have hframe : (d.frame levels .embedded (.only .component) c).1 =
        .error (.malformed (.unexpectedFrame (.only .component) t) c.location) :=
      d.frame_of_refused hnext hrefused
    rw [hcount, Plan.run_times_succ, ← hcode]
    rcases hchild : d.frame levels .embedded (.only .component) c with ⟨r, c'⟩
    rw [hchild] at hframe
    obtain rfl : r = _ := hframe
    rw [Step.bind_of_error (p := (Plan.child (.only .component)).run d.scope _) hchild]
    exact ⟨_, 4, c', rfl, .inr ⟨hpos, t, rfl, ht, rfl, rfl⟩⟩

namespace Decoder

variable {d : Decoder} {levels : Nat} {α β γ : Type}

/-- Behind the bytes of these fields, a reader that runs a plan comes to run another one, in the
same frame. -/
def Reaches (d : Decoder) (levels : Nat) (p : Plan α) (fs : List Field) (q : Plan β) : Prop :=
  ∀ bs, Field.allBytes? d.scope.table fs = some bs → ∀ rest ending offset frames,
    d.Visits q levels ⟨rest, ending, offset + bs.length, frames⟩ levels p
      ⟨bs ++ rest, ending, offset, frames⟩

namespace Reaches

theorem here (q : Plan β) : d.Reaches levels q [] q := by
  intro bs hb rest ending offset frames
  obtain rfl := Option.some.inj hb
  exact .here

theorem first {p : Plan γ} {k : γ → Plan α} {q : Plan β} {fs : List Field}
    (h : d.Reaches levels p fs q) : d.Reaches levels (p >>= k) fs q :=
  fun bs hb rest ending offset frames ↦ .first (h bs hb rest ending offset frames)

theorem next {p : Plan γ} {k : γ → Plan α} {q : Plan β} {f : γ → List Field} {gs : List Field}
    {P : γ → Prop} {a : γ} (hp : p.Mirrors d.scope (d.Accepts levels) f (fun _ ↦ True) P)
    (ha : P a) (h : d.Reaches levels (k a) gs q) :
    d.Reaches levels (p >>= k) (f a ++ gs) q := by
  intro bs hb rest ending offset frames
  obtain ⟨bs₁, bs₂, hb₁, hb₂, rfl⟩ := Field.allBytes?_append.1 hb
  have hyields := (hp bs₁ a).2 ⟨trivial, hb₁, ha⟩
  have hrun := (Plan.parses (d.frame_parses levels .embedded) p).complete hyields (bs₂ ++ rest)
    ending offset frames
  have hvisits := h bs₂ hb₂ rest ending (offset + bs₁.length) frames
  rw [Nat.add_assoc, ← List.length_append] at hvisits
  rw [List.append_assoc]
  exact .next hrun hvisits

end Reaches

end Decoder

/-- Behind its body, a method is read on by what its name tells of its kind. -/
theorem Method.reaches_kindPlan (d : Decoder) {levels : Nat} {m : Method}
    (hm : (Node.method m).Readable d.scope.types (levels + 1)) :
    d.Reaches levels (Method.plan d.layout) m.front (kindPlan d.layout m.name) := by
  have hG := d.accepts_iff levels
  obtain ⟨⟨htypes, -⟩, hinside⟩ := hm
  have htype : d.scope.types m.returnType.name = some m.returnType.handle :=
    htypes m.returnType (List.mem_singleton_self _)
  have hplace : (Node.position m.position).Readable d.scope.types levels := by
    apply hinside
    simp [Node.embedded]
  have hparameters : ∀ p ∈ m.parameters, (Node.parameter p).Readable d.scope.types levels := by
    intro p hp
    apply hinside
    simp [Node.embedded, hp]
  have hbody : (Node.codeBlock m.body).Readable d.scope.types levels := by
    apply hinside
    simp [Node.embedded]
  change d.Reaches levels _ ([.u8 MemberKind.method.code] ++ ([.u32 m.modifiers.bits] ++
    ([.text m.name] ++ ([.text m.returnType.name] ++ ([m.position.frame] ++
    (Field.array (m.parameters.map fun p ↦ .frame .parameter p.fields) ++
    ([CodeBlock.frame m.body] ++ []))))))) _
  apply Decoder.Reaches.next (MemberKind.plan_mirrors .method) (a := ()) trivial
  apply Decoder.Reaches.next Plan.u32_mirrors (a := m.modifiers.bits) trivial
  apply Decoder.Reaches.next Plan.text_mirrors (a := m.name) trivial
  apply Decoder.Reaches.next Plan.typeName_mirrors (a := m.returnType) htype
  apply Decoder.Reaches.next (Plan.child_mirrors hG (.only .position)) (a := m.position) hplace
  apply Decoder.Reaches.next (Plan.array_mirrors hG (.only .parameter)) (a := m.parameters)
    hparameters
  apply Decoder.Reaches.next (Plan.child_mirrors hG (.only .codeBlock)) (a := m.body) hbody
  exact (Decoder.Reaches.here _).first

/-- A reader that is asked for a method comes to what tells its kind behind the tag and the body. -/
theorem Decoder.loadVisits_kindPlan (d : Decoder) {levels : Nat} (hd : d.maxDepth = levels + 1)
    {m : Method} (hm : (Node.method m).Readable d.scope.types (levels + 1)) {front : Bytes}
    (hfront : Field.allBytes? d.scope.table m.front = some front) {x : Expectation}
    (hx : x.accepts .method = true) (rest : Bytes) (ending : Ending) :
    d.LoadVisits x (.start (Tag.method.code :: (front ++ rest)) ending)
      (Method.kindPlan d.layout m.name) levels ⟨rest, ending, 1 + front.length, [.method]⟩ := by
  have hvisits := Method.reaches_kindPlan d hm front hfront rest ending 1 [.method]
  have hopen := (opening_parses .top x).complete ⟨rfl, hx⟩ (front ++ rest) ending 0 []
  exact ⟨levels, .method, _, hd, hopen, .first hvisits⟩

theorem Method.bytes?_constructor {t : StringTable} {m : Method} {calls : List Component}
    (hkind : m.kind = .constructor calls) {bs : Bytes}
    (hb : ((Node.method m).frame .kindMarker).bytes? t = some bs) :
    ∃ front rest,
      bs = Tag.method.code :: (front ++ (constructorMarker :: word 4 calls.length ++ rest)) ∧
      Field.allBytes? t m.front = some front ∧ front.length = Field.widths m.front := by
  have hsynthetic : m.synthetic = false := Node.isPlaceholder_of_bytes? hb
  have hending : m.ending .kindMarker = [.u8 constructorMarker] ++
      ([.count (componentFrames calls).length] ++ componentFrames calls) := by
    rw [ending, hkind]
    rfl
  obtain ⟨payload, hpayload, rfl⟩ := Field.bytes?_frame.1 hb
  rw [Node.fields, fields_eq _ hsynthetic, hending] at hpayload
  obtain ⟨front, _, hfront, htail, rfl⟩ := Field.allBytes?_append.1 hpayload
  obtain ⟨marker, _, hmarker, hcalls, rfl⟩ := Field.allBytes?_append.1 htail
  obtain ⟨count, rest, hcount, -, rfl⟩ := Field.allBytes?_append.1 hcalls
  rw [Field.allBytes?_singleton, Field.u8, Field.bytes?] at hmarker
  rw [Field.allBytes?_singleton, Field.bytes?, Option.ite_none_right_eq_some,
    componentFrames_eq, List.length_map] at hcount
  obtain rfl := Option.some.inj hmarker
  obtain rfl := Option.some.inj hcount.2
  exact ⟨front, rest, rfl, hfront, (written_of_allBytes? _ hfront).length_eq⟩

namespace Adapter

/-- A constructor with its marker is never taken for anything by a reader that goes by names. It
fails in the frame of the method, at the marker or four bytes behind it. -/
theorem load_of_marked_constructor (v w : FormatVersion) {m : Method} {calls : List Component}
    (hname : m.name = constructorName) (hkind : m.kind = .constructor calls)
    (hcalls : calls.length < 12 * 2 ^ 24) {room : Option Nat} {t : StringTable} {count : Nat}
    {e : Encoder}
    (hw : (⟨w, .kindMarker⟩ : Adapter).write (.method m) (.start (.empty room) t) = (.ok count, e))
    {scope : Scope} (htable : e.table.words <+: scope.table.words)
    (hsize : scope.table.size ≤ UInt32.size)
    (htypes : ∀ r ∈ (Node.method m).typeRefs, scope.types r.name = some r.handle)
    {maxDepth : Nat} (hdepth : (Node.method m).depth ≤ maxDepth) {x : Expectation}
    (hx : x.accepts .method = true) (further : Bytes) (ending : Ending) :
    let read := (signed (1 + 256 * calls.length)).toInt
    ∃ defect behind c, (⟨v, .reservedName⟩ : Adapter).load scope maxDepth x
        (.start (e.sink.bytes ++ further) ending) =
          (.error (.malformed defect ⟨some .method, m.bodyEnd 0 + behind⟩), c) ∧
      (read < 0 ∧ defect = .negativeLength read ∧ behind = 0 ∨
        0 < read ∧ ∃ t : Tag, t.code = UInt8.ofNat (calls.length / 2 ^ 24) ∧ t ≠ .component ∧
          defect = .unexpectedFrame (.only .component) t ∧ behind = 4) := by
  intro read
  obtain ⟨bs, hbytes, -, -, hb⟩ := write_ok hw
  obtain rfl : e.sink.bytes = bs := hbytes
  have hframe := hb scope.table htable hsize
  obtain ⟨front, rest, hsplit, hfront, hlength⟩ := Method.bytes?_constructor hkind hframe
  obtain ⟨levels, rfl⟩ := Nat.exists_eq_add_one.2 (Nat.lt_of_lt_of_le (Node.depth_pos _) hdepth)
  let d : Decoder := ⟨scope, .reservedName, levels + 1⟩
  have hreadable : (Node.method m).Readable d.scope.types (levels + 1) :=
    Node.readable_persisted (Node.isPlaceholder_of_bytes? hframe) htypes hdepth
  have hvisits := d.loadVisits_kindPlan rfl hreadable hfront hx
    (Method.constructorMarker :: word 4 calls.length ++ (rest ++ further)) ending
  obtain ⟨defect, behind, c, harray, hdefect⟩ := d.array_of_shifted levels hcalls
    (rest ++ further) ending (1 + front.length) [.method]
  have hkindPlan : (Method.kindPlan .reservedName m.name).run d.scope (d.frame levels .embedded) =
      (Plan.array (.only .component)).run d.scope (d.frame levels .embedded) >>= fun calls ↦
        (Plan.pure (MethodKind.constructor calls)).run d.scope (d.frame levels .embedded) := by
    rw [Method.kindPlan, if_pos hname, Method.constructorPlan]
    exact Plan.run_bind _ _
  have hload := hvisits.error ((congrFun hkindPlan _).trans (Step.bind_of_error harray))
  refine ⟨defect, behind, c, ?_, hdefect⟩
  rw [hsplit, Method.bodyEnd, ← hlength, Nat.zero_add, List.cons_append, List.append_assoc,
    List.append_assoc]
  exact hload

theorem load_of_marked_constructor_one_call :
    let call : Component := .bare ⟨0⟩ ⟨0⟩
    let m : Method := ⟨⟨0⟩, "ctor", default, ⟨0, 0⟩, [], [], .constructor [call], false⟩
    ∃ e c, v0_11.write (.method m) (.start (.empty none) .empty) = (.ok 73, e) ∧
      v0_10.load ⟨e.table, TypeUniverse.resolve? ⟨[("", 0)]⟩⟩ 3 (.only .method)
          (.start (e.sink.bytes ++ [7]) .clean) =
        (.error (.malformed (.unexpectedFrame (.only .component) .byte)
          ⟨some .method, 36⟩), c) := by
  intro call m
  obtain ⟨e, h⟩ : ∃ e, v0_11.write (.method m) (.start (.empty none) .empty) = (.ok 73, e) :=
    Step.exists_of_toOption (by decide +kernel)
  let scope : Scope := ⟨e.table, TypeUniverse.resolve? ⟨[("", 0)]⟩⟩
  have hgrown : e.table.words <+: scope.table.words := List.prefix_rfl
  have hsize : e.table.size ≤ UInt32.size := by
    have htable : (v0_11.write (.method m) (.start (.empty none) .empty)).2.table.size ≤
        UInt32.size := by decide +kernel
    rwa [h] at htable
  have htypes : ∀ r ∈ (Node.method m).typeRefs,
      TypeUniverse.resolve? ⟨[("", 0)]⟩ r.name = some r.handle := by
    simp [m, call, Node.typeRefs, Node.frames_eq, Node.embedded, Node.ownTypes,
      Method.superCalls, Slot.children, Component.slots, Component.bare, default]
    decide
  have hdepth : (Node.method m).depth ≤ 3 := by
    simp [m, call, Node.depth_eq, Node.embedded, Method.superCalls, Slot.children,
      Component.slots, Component.bare]
  obtain ⟨defect, behind, c, hload, ⟨hneg, -⟩ | ⟨-, t, ht, -, rfl, rfl⟩⟩ :=
    load_of_marked_constructor .v0_10 .v0_11 rfl rfl (by decide) h hgrown hsize htypes hdepth
      (x := .only .method) rfl [7] .clean
  · exact absurd hneg (by decide)
  · have hzero : t.code = 0 := ht.trans (by decide)
    obtain rfl : t = .byte := by
      cases t with
      | byte => rfl
      | _ => cases hzero
    have hend : m.bodyEnd 0 = 32 := by decide
    rw [hend] at hload
    exact ⟨e, c, h, hload⟩

end Adapter

end TreeBytecode
