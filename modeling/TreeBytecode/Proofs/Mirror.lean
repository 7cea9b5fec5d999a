import TreeBytecode.Proofs.Grammar
import TreeBytecode.Proofs.Spelling

namespace TreeBytecode.Wire

open TreeBytecode.Wire.Field (allBytes? allBytes?_cons allBytes?_append allBytes?_singleton)

namespace Plan

variable {scope : Scope} {G : (e : Expectation) → Grammar e.Content} {α β : Type}

/-- What is `known` of a value comes from what was read before, what `fits` is checked in reading;
no other values are returned. -/
def Mirrors (scope : Scope) (G : (e : Expectation) → Grammar e.Content) (p : Plan α)
    (fields : α → List Field) (known fits : α → Prop) : Prop :=
  ∀ bs a, p.Yields scope G bs a ↔ known a ∧ allBytes? scope.table (fields a) = some bs ∧ fits a

theorem map_yields {f : β → α} {p : Plan β} {bs : Bytes} {a : α} :
    (f <$> p).Yields scope G bs a ↔ ∃ b, p.Yields scope G bs b ∧ a = f b := by
  constructor
  · rintro ⟨b, bs₁, _, h, ⟨rfl, rfl⟩, rfl⟩
    exact ⟨b, by rwa [List.append_nil], rfl⟩
  · rintro ⟨b, h, rfl⟩
    exact ⟨b, bs, [], h, ⟨rfl, rfl⟩, (List.append_nil _).symm⟩

namespace Mirrors

variable {p : Plan α} {f g : α → List Field} {E E' P P' : α → Prop}

theorem congr_fields (h : p.Mirrors scope G f E P) (hf : ∀ a, E a → P a → f a = g a) :
    p.Mirrors scope G g E P := by
  intro bs a
  rw [h bs a]
  constructor
  · rintro ⟨hE, hb, hP⟩
    exact ⟨hE, hf a hE hP ▸ hb, hP⟩
  · rintro ⟨hE, hb, hP⟩
    exact ⟨hE, (hf a hE hP).symm ▸ hb, hP⟩

theorem congr_known (h : p.Mirrors scope G f E P) (hE : ∀ a, E a ↔ E' a) :
    p.Mirrors scope G f E' P := by
  intro bs a
  rw [h bs a, hE a]

theorem congr_fits (h : p.Mirrors scope G f E P) (hP : ∀ a, P a ↔ P' a) :
    p.Mirrors scope G f E P' := by
  intro bs a
  rw [h bs a, hP a]

/-- What is known can as well be counted among what is checked. -/
theorem known_fits (h : p.Mirrors scope G f E P) :
    p.Mirrors scope G f (fun _ ↦ True) fun a ↦ E a ∧ P a := by
  intro bs a
  rw [h bs a]
  constructor
  · rintro ⟨hE, hb, hP⟩
    exact ⟨trivial, hb, hE, hP⟩
  · rintro ⟨-, hb, hE, hP⟩
    exact ⟨hE, hb, hP⟩

theorem pure {b : α} (hE : ∀ a, E a ↔ a = b) :
    (Pure.pure b : Plan α).Mirrors scope G (fun _ ↦ []) E fun _ ↦ True := by
  intro bs a
  rw [hE a]
  constructor
  · rintro ⟨rfl, rfl⟩
    exact ⟨rfl, rfl, trivial⟩
  · rintro ⟨rfl, h, -⟩
    exact ⟨(Option.some.inj h).symm, rfl⟩

/-- What the first plan reads is a part of the value that the next one returns. -/
theorem bind {p : Plan β} {k : β → Plan α} {f : β → List Field} {g : α → List Field}
    {P : β → Prop} {Q : α → Prop} (part : α → β) (hp : p.Mirrors scope G f (fun _ ↦ True) P)
    (hk : ∀ b, P b → (k b).Mirrors scope G g (fun a ↦ E a ∧ part a = b) Q) :
    (p >>= k).Mirrors scope G (fun a ↦ f (part a) ++ g a) E fun a ↦ P (part a) ∧ Q a := by
  intro bs a
  simp only [allBytes?_append]
  constructor
  · rintro ⟨b, bs₁, bs₂, h₁, h₂, rfl⟩
    obtain ⟨-, hb, hP⟩ := (hp bs₁ b).1 h₁
    obtain ⟨⟨hE, rfl⟩, ha, hQ⟩ := (hk b hP bs₂ a).1 h₂
    exact ⟨hE, ⟨bs₁, bs₂, hb, ha, rfl⟩, hP, hQ⟩
  · rintro ⟨hE, ⟨bs₁, bs₂, hb, ha, rfl⟩, hP, hQ⟩
    exact ⟨part a, bs₁, bs₂, (hp bs₁ _).2 ⟨trivial, hb, hP⟩,
      (hk _ hP bs₂ a).2 ⟨⟨hE, rfl⟩, ha, hQ⟩, rfl⟩

theorem checked {p : Plan β} {f : β → List Field} {P : β → Prop} {Q : α → Prop}
    {check : β → Except Defect α} (back : α → β) (hp : p.Mirrors scope G f (fun _ ↦ True) P)
    (hc : ∀ b a, check b = .ok a ↔ b = back a ∧ Q a) :
    (Plan.checked p check).Mirrors scope G (fun a ↦ f (back a)) (fun _ ↦ True)
      fun a ↦ P (back a) ∧ Q a := by
  intro bs a
  constructor
  · rintro ⟨b, hb, hba⟩
    obtain ⟨rfl, hQ⟩ := (hc b a).1 hba
    obtain ⟨-, hbytes, hP⟩ := (hp bs _).1 hb
    exact ⟨trivial, hbytes, hP, hQ⟩
  · rintro ⟨-, hbytes, hP, hQ⟩
    exact ⟨back a, (hp bs _).2 ⟨trivial, hbytes, hP⟩, (hc _ a).2 ⟨rfl, hQ⟩⟩

theorem typed {p : Plan String} {f : String → List Field} {P : String → Prop}
    (hp : p.Mirrors scope G f (fun _ ↦ True) P) :
    (Plan.typed p).Mirrors scope G (fun r ↦ f r.name) (fun _ ↦ True)
      fun r ↦ P r.name ∧ scope.types r.name = some r.handle := by
  intro bs r
  constructor
  · rintro ⟨s, hs, hr⟩
    obtain ⟨handle, hh, rfl⟩ := Option.map_eq_some_iff.1 hr
    obtain ⟨-, hbytes, hP⟩ := (hp bs s).1 hs
    exact ⟨trivial, hbytes, hP, hh⟩
  · rintro ⟨-, hbytes, hP, hh⟩
    refine ⟨r.name, (hp bs _).2 ⟨trivial, hbytes, hP⟩, ?_⟩
    rw [TypeResolver.typeRef?, hh, Option.map_some]

end Mirrors

theorem word_mirrors (width : Nat) (ofNat : Nat → α) (toNat : α → Nat)
    (hof : ∀ n < capacity width, toNat (ofNat n) = n) (hto : ∀ a, ofNat (toNat a) = a)
    (hlt : ∀ a, toNat a < capacity width) :
    (ofNat <$> word width).Mirrors scope G (fun a ↦ [.raw (Wire.word width (toNat a))])
      (fun _ ↦ True) fun _ ↦ True := by
  intro bs a
  rw [map_yields, allBytes?_singleton]
  constructor
  · rintro ⟨_, ⟨rfl, rfl⟩, rfl⟩
    refine ⟨trivial, ?_, trivial⟩
    rw [hof _ (ofBytes_lt bs), word_ofBytes, Field.bytes?]
  · rintro ⟨-, h, -⟩
    rw [Field.bytes?] at h
    obtain rfl := Option.some.inj h
    exact ⟨toNat a, ⟨length_word .., (ofBytes_word (hlt a)).symm⟩, (hto a).symm⟩

theorem u8_mirrors :
    u8.Mirrors scope G (fun v ↦ [.u8 v]) (fun _ ↦ True) fun _ ↦ True := by
  refine (word_mirrors 1 UInt8.ofNat UInt8.toNat (fun _ hn ↦ UInt8.toNat_ofNat_of_lt' hn)
    (fun _ ↦ UInt8.ofNat_toNat) UInt8.toNat_lt).congr_fields fun v _ _ ↦ ?_
  rw [Wire.word, Wire.word, UInt8.ofNat_toNat, Field.u8]

theorem u16_mirrors :
    u16.Mirrors scope G (fun v ↦ [.u16 v]) (fun _ ↦ True) fun _ ↦ True :=
  word_mirrors 2 UInt16.ofNat UInt16.toNat (fun _ hn ↦ UInt16.toNat_ofNat_of_lt' hn)
    (fun _ ↦ UInt16.ofNat_toNat) UInt16.toNat_lt

theorem u32_mirrors :
    u32.Mirrors scope G (fun v ↦ [.u32 v]) (fun _ ↦ True) fun _ ↦ True :=
  word_mirrors 4 UInt32.ofNat UInt32.toNat (fun _ hn ↦ UInt32.toNat_ofNat_of_lt' hn)
    (fun _ ↦ UInt32.ofNat_toNat) UInt32.toNat_lt

theorem u64_mirrors :
    u64.Mirrors scope G (fun v ↦ [.u64 v]) (fun _ ↦ True) fun _ ↦ True :=
  word_mirrors 8 UInt64.ofNat UInt64.toNat (fun _ hn ↦ UInt64.toNat_ofNat_of_lt' hn)
    (fun _ ↦ UInt64.ofNat_toNat) UInt64.toNat_lt

theorem signed_toNat (v : Int32) : signed v.toUInt32.toNat = v :=
  congrArg Int32.ofUInt32 UInt32.ofNat_toNat

theorem i32_mirrors :
    i32.Mirrors scope G (fun v ↦ [.i32 v]) (fun _ ↦ True) fun _ ↦ True :=
  word_mirrors 4 signed (fun v : Int32 ↦ v.toUInt32.toNat)
    (fun _ hn ↦ UInt32.toNat_ofNat_of_lt' hn) signed_toNat fun v ↦ v.toUInt32.toNat_lt

theorem toInt_signed {n : Nat} (h : n ≤ Encoder.maxCount) : (signed n).toInt = n :=
  Int32.toInt_ofNat_of_lt (Nat.lt_of_le_of_lt h (by decide))

theorem length_mirrors :
    length.Mirrors scope G (fun n ↦ [.count n]) (fun _ ↦ True) fun _ ↦ True := by
  intro bs n
  rw [allBytes?_singleton, Field.bytes?, Option.ite_none_right_eq_some]
  constructor
  · rintro ⟨v, hv, hn⟩
    dsimp only at hn
    split at hn
    · cases hn
    · next hpos =>
      obtain rfl := Except.ok.inj hn
      have hlt := v.toInt_lt
      have hle : v.toInt.toNat ≤ Encoder.maxCount := by
        rw [Encoder.maxCount]
        omega
      have hs : v = signed v.toInt.toNat := by
        apply Int32.toInt_inj.1
        rw [toInt_signed hle]
        omega
      have hw : v.toUInt32.toNat = v.toInt.toNat := by
        rw [hs, toInt_signed hle]
        exact UInt32.toNat_ofNat_of_lt' (Nat.lt_of_le_of_lt hle (by decide))
      obtain ⟨-, hb, -⟩ := (i32_mirrors bs v).1 hv
      rw [allBytes?_singleton, Field.i32, Field.u32, Field.bytes?, hw] at hb
      exact ⟨trivial, ⟨hle, hb⟩, trivial⟩
  · rintro ⟨-, ⟨hle, hb⟩, -⟩
    have hw : (signed n).toUInt32.toNat = n :=
      UInt32.toNat_ofNat_of_lt' (Nat.lt_of_le_of_lt hle (by decide))
    refine ⟨signed n, (i32_mirrors bs _).2 ⟨trivial, ?_, trivial⟩, ?_⟩
    · rw [allBytes?_singleton, Field.i32, Field.u32, Field.bytes?, hw, hb]
    · simp only [toInt_signed hle]
      rw [if_neg (by omega), Int.toNat_natCast]

theorem tag_mirrors :
    tag.Mirrors scope G (fun t ↦ [.tag t]) (fun _ ↦ True) fun _ ↦ True := by
  intro bs t
  rw [tag_yields, allBytes?_singleton, Field.tag, Field.bytes?, Option.some.injEq]
  constructor
  · rintro rfl
    exact ⟨trivial, rfl, trivial⟩
  · rintro ⟨-, rfl, -⟩
    rfl

theorem bytes_mirrors (count : Nat) :
    (bytes count).Mirrors scope G (fun cs ↦ [.raw cs]) (fun cs ↦ cs.length = count)
      fun _ ↦ True := by
  intro bs cs
  rw [allBytes?_singleton, Field.bytes?, Option.some.injEq]
  constructor
  · rintro ⟨hl, rfl⟩
    exact ⟨hl, rfl, trivial⟩
  · rintro ⟨hl, rfl, -⟩
    exact ⟨hl, rfl⟩

theorem text_mirrors :
    text.Mirrors scope G (fun s ↦ [.text s]) (fun _ ↦ True) fun _ ↦ True := by
  intro bs s
  rw [allBytes?_singleton, Field.bytes?_text]
  constructor
  · rintro ⟨hl, hs⟩
    have hlt := ofBytes_lt bs
    rw [hl] at hlt
    refine ⟨trivial, ⟨ofBytes bs, StringTable.find?_eq_some_iff.2 hs, hlt, ?_⟩, trivial⟩
    rw [← hl, word_ofBytes]
  · rintro ⟨-, ⟨i, hi, hlt, rfl⟩, -⟩
    refine ⟨length_word 4 i, ?_⟩
    rw [ofBytes_word (show _ < capacity 4 from hlt)]
    exact StringTable.find?_eq_some_iff.1 hi

theorem typeName_mirrors :
    typeName.Mirrors scope G (fun r ↦ [.text r.name]) (fun _ ↦ True)
      fun r ↦ scope.types r.name = some r.handle :=
  text_mirrors.typed.congr_fits fun _ ↦ and_iff_right trivial

theorem times_mirrors {p : Plan α} {f : α → List Field} {P : α → Prop}
    (hp : p.Mirrors scope G f (fun _ ↦ True) P) (n : Nat) :
    (times p n).Mirrors scope G (fun as ↦ as.flatMap f) (fun as ↦ as.length = n)
      fun as ↦ ∀ a ∈ as, P a := by
  induction n with
  | zero =>
    intro bs as
    constructor
    · rintro ⟨rfl, rfl⟩
      exact ⟨rfl, rfl, List.forall_mem_nil _⟩
    · rintro ⟨hl, hb, -⟩
      obtain rfl := List.length_eq_zero_iff.1 hl
      exact ⟨(Option.some.inj hb).symm, rfl⟩
  | succ n ih =>
    intro bs as
    constructor
    · rintro ⟨a, bs₁, _, h₁, ⟨as, bs₂, _, h₂, ⟨rfl, rfl⟩, rfl⟩, rfl⟩
      obtain ⟨-, hb₁, hP₁⟩ := (hp _ _).1 h₁
      obtain ⟨hl, hb₂, hP₂⟩ := (ih _ _).1 h₂
      refine ⟨congrArg (· + 1) hl, ?_, List.forall_mem_cons.2 ⟨hP₁, hP₂⟩⟩
      exact allBytes?_append.2 ⟨bs₁, bs₂, hb₁, hb₂, by rw [List.append_nil]⟩
    · rintro ⟨hl, hb, hP⟩
      obtain ⟨a, as, rfl⟩ := List.exists_cons_of_length_eq_add_one hl
      obtain ⟨bs₁, bs₂, hb₁, hb₂, rfl⟩ := allBytes?_append.1 hb
      obtain ⟨hP₁, hP₂⟩ := List.forall_mem_cons.1 hP
      refine ⟨a, bs₁, bs₂, (hp _ _).2 ⟨trivial, hb₁, hP₁⟩, ⟨as, bs₂, [], ?_, ⟨rfl, rfl⟩, ?_⟩, rfl⟩
      · exact (ih _ _).2 ⟨Nat.succ.inj hl, hb₂, hP₂⟩
      · rw [List.append_nil]

theorem counted_mirrors {p : Plan α} {f : α → List Field} {P : α → Prop}
    (hp : p.Mirrors scope G f (fun _ ↦ True) P) :
    (length >>= times p).Mirrors scope G (fun as ↦ .count as.length :: as.flatMap f)
      (fun _ ↦ True) fun as ↦ ∀ a ∈ as, P a :=
  ((Mirrors.bind List.length length_mirrors fun n _ ↦
    (times_mirrors hp n).congr_known fun _ ↦ (and_iff_right trivial).symm).congr_fits
      fun _ ↦ and_iff_right trivial)

/-- A byte with bits outside of what is allowed is not returned. -/
theorem mask_mirrors (allowed : UInt8) (what : String) :
    (mask allowed what).Mirrors scope G (fun v ↦ [.u8 v]) (fun _ ↦ True)
      fun v ↦ v &&& ~~~allowed = 0 := by
  refine (Mirrors.checked id u8_mirrors fun b a ↦ ?_).congr_fits fun _ ↦ and_iff_right trivial
  split
  · next h =>
    constructor
    · rintro ⟨⟩
      exact ⟨rfl, h⟩
    · rintro ⟨rfl, -⟩
      rfl
  · next h =>
    constructor
    · intro h'
      cases h'
    · rintro ⟨rfl, h'⟩
      exact absurd h' h

section Frames

variable {layout : Layout} {P : Node → Prop} (hG : ∀ e bs v, G e bs v ↔
  ((e.toNode v).frame layout).bytes? scope.table = some bs ∧ P (e.toNode v))

include hG

theorem child_mirrors (e : Expectation) :
    (child e).Mirrors scope G (fun v ↦ [(e.toNode v).frame layout]) (fun _ ↦ True)
      fun v ↦ P (e.toNode v) := by
  intro bs v
  rw [allBytes?_singleton]
  exact (hG e bs v).trans (and_iff_right trivial).symm

theorem array_mirrors (e : Expectation) :
    (array e).Mirrors scope G
      (fun vs ↦ Field.array (vs.map fun v ↦ (e.toNode v).frame layout)) (fun _ ↦ True)
      fun vs ↦ ∀ v ∈ vs, P (e.toNode v) := by
  refine (counted_mirrors (child_mirrors hG e)).congr_fields fun vs _ _ ↦ ?_
  rw [Field.array, List.length_map, List.map_eq_flatMap]

/-- Names of types are written without frames of their own, but in the same bytes. -/
theorem typeNames_mirrors :
    typeNames.Mirrors scope G (fun rs ↦ Field.names (rs.map TypeRef.name)) (fun _ ↦ True)
      fun rs ↦ ∀ r ∈ rs, P (.string r.name) ∧ scope.types r.name = some r.handle := by
  have hname : (typed (child (.only .string))).Mirrors scope G
      (fun r ↦ [.tag .string, .text r.name]) (fun _ ↦ True)
      fun r ↦ P (.string r.name) ∧ scope.types r.name = some r.handle := by
    intro bs r
    rw [(child_mirrors hG (.only .string)).typed bs r, allBytes?_singleton]
    refine and_congr_right fun _ ↦ and_congr_left fun _ ↦ ?_
    change (Field.frame .string [.text r.name]).bytes? scope.table = some bs ↔ _
    rw [Field.bytes?_frame, allBytes?_cons]
    simp only [Field.tag, Field.bytes?, Option.some.injEq, exists_and_left, exists_eq_left',
      List.singleton_append]
  refine (counted_mirrors hname).congr_fields fun rs _ _ ↦ ?_
  rw [Field.names, List.length_map, List.flatMap_map]

end Frames

end Plan

end TreeBytecode.Wire
