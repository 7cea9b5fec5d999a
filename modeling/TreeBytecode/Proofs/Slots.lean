import TreeBytecode.Payload.Node
import TreeBytecode.Proofs.Mirror

namespace TreeBytecode

open Wire

def IsBit (b : UInt8) : Prop := b ∈ [1, 2, 4, 8, 16, 32, 64, 128]

instance (b : UInt8) : Decidable (IsBit b) :=
  inferInstanceAs (Decidable (b ∈ [1, 2, 4, 8, 16, 32, 64, 128]))

theorem IsBit.and_eq {b : UInt8} (h : IsBit b) (m : UInt8) : m &&& b = 0 ∨ m &&& b = b := by
  have hall : ∀ n : Fin 256, ∀ b ∈ ([1, 2, 4, 8, 16, 32, 64, 128] : List UInt8),
      UInt8.ofNat n &&& b = 0 ∨ UInt8.ofNat n &&& b = b := by decide +kernel
  have hm := hall ⟨m.toNat, m.toNat_lt⟩ b h
  rwa [UInt8.ofNat_toNat] at hm

theorem IsBit.and_eq_zero {b c : UInt8} (hb : IsBit b) (hc : IsBit c) (h : b ≠ c) :
    b &&& c = 0 := by
  have hall : ∀ b ∈ ([1, 2, 4, 8, 16, 32, 64, 128] : List UInt8),
      ∀ c ∈ ([1, 2, 4, 8, 16, 32, 64, 128] : List UInt8), b ≠ c → b &&& c = 0 := by
    decide +kernel
  exact hall b hb c hc h

theorem IsBit.ne_zero {b : UInt8} (h : IsBit b) : b ≠ 0 := by
  rintro rfl
  exact absurd h (by decide)

def maskOf : List (Bool × UInt8) → UInt8
  | [] => 0
  | (on, bit) :: flags => (if on then bit else 0) ||| maskOf flags

def allBits : List (Bool × UInt8) → UInt8
  | [] => 0
  | (_, bit) :: flags => bit ||| allBits flags

theorem and_or_distrib_right (a b c : UInt8) : (a ||| b) &&& c = (a &&& c) ||| (b &&& c) :=
  UInt8.toBitVec_inj.1 BitVec.and_or_distrib_right

theorem and_or_distrib_left (a b c : UInt8) : a &&& (b ||| c) = (a &&& b) ||| (a &&& c) :=
  UInt8.toBitVec_inj.1 BitVec.and_or_distrib_left

structure DistinctBits (flags : List (Bool × UInt8)) : Prop where
  isBit : ∀ f ∈ flags, IsBit f.2
  nodup : (flags.map Prod.snd).Nodup

theorem DistinctBits.tail {f : Bool × UInt8} {flags : List (Bool × UInt8)}
    (h : DistinctBits (f :: flags)) : DistinctBits flags where
  isBit := (List.forall_mem_cons.1 h.isBit).2
  nodup := (List.nodup_cons.1 h.nodup).2

theorem DistinctBits.ne {f g : Bool × UInt8} {flags : List (Bool × UInt8)}
    (h : DistinctBits (f :: flags)) (hg : g ∈ flags) : g.2 ≠ f.2 :=
  fun he ↦ (List.nodup_cons.1 h.nodup).1 (he ▸ List.mem_map_of_mem hg)

theorem maskOf_and_of_ne {flags : List (Bool × UInt8)} {bit : UInt8} (hb : IsBit bit)
    (hf : ∀ f ∈ flags, IsBit f.2) (hne : ∀ f ∈ flags, f.2 ≠ bit) : maskOf flags &&& bit = 0 := by
  induction flags with
  | nil => exact UInt8.zero_and
  | cons f flags ih =>
    obtain ⟨hf, hfs⟩ := List.forall_mem_cons.1 hf
    obtain ⟨hn, hns⟩ := List.forall_mem_cons.1 hne
    rw [maskOf, and_or_distrib_right, ih hfs hns, UInt8.or_zero]
    split
    · exact hf.and_eq_zero hb hn
    · exact UInt8.zero_and

theorem maskOf_and {flags : List (Bool × UInt8)} (h : DistinctBits flags) {f : Bool × UInt8}
    (hf : f ∈ flags) : maskOf flags &&& f.2 = if f.1 then f.2 else 0 := by
  induction flags with
  | nil => exact absurd hf List.not_mem_nil
  | cons g flags ih =>
    have hbit := h.isBit
    obtain ⟨hg, hgs⟩ := List.forall_mem_cons.1 hbit
    rw [maskOf, and_or_distrib_right]
    obtain rfl | hmem := List.mem_cons.1 hf
    · rw [maskOf_and_of_ne hg hgs fun k hk ↦ h.ne hk, UInt8.or_zero]
      split
      · exact UInt8.and_self
      · exact UInt8.zero_and
    · rw [ih h.tail hmem]
      have hz : (if g.1 = true then g.2 else 0) &&& f.2 = 0 := by
        split
        · exact hg.and_eq_zero (hbit f hf) (h.ne hmem).symm
        · exact UInt8.zero_and
      rw [hz, UInt8.zero_or]

theorem maskOf_eq_and {flags : List (Bool × UInt8)} {mask : UInt8}
    (hbit : ∀ f ∈ flags, IsBit f.2) (h : ∀ f ∈ flags, f.1 = (mask &&& f.2 != 0)) :
    maskOf flags = mask &&& allBits flags := by
  induction flags with
  | nil => exact UInt8.and_zero.symm
  | cons f flags ih =>
    obtain ⟨hf, hfs⟩ := List.forall_mem_cons.1 hbit
    obtain ⟨hm, hms⟩ := List.forall_mem_cons.1 h
    rw [maskOf, allBits, and_or_distrib_left, ih hfs hms, hm]
    obtain hz | hz := hf.and_eq mask
    · simp [hz]
    · simp [hz, hf.ne_zero]

/-- Bits and flags determine each other, in a mask without stray bits. -/
theorem maskOf_eq_iff {flags : List (Bool × UInt8)} (h : DistinctBits flags) {mask : UInt8}
    (hm : mask &&& ~~~allBits flags = 0) :
    maskOf flags = mask ↔ ∀ f ∈ flags, f.1 = (mask &&& f.2 != 0) := by
  constructor
  · rintro rfl f hf
    rw [maskOf_and h hf]
    cases hon : f.1 <;> simp [(h.isBit f hf).ne_zero]
  · intro hf
    rw [maskOf_eq_and h.isBit hf]
    calc mask &&& allBits flags
        = (mask &&& allBits flags) ||| (mask &&& ~~~allBits flags) := by rw [hm, UInt8.or_zero]
      _ = mask := by rw [← and_or_distrib_left, UInt8.or_not_self, UInt8.and_neg_one]

theorem maskOf_and_eq_zero {flags : List (Bool × UInt8)} {m : UInt8}
    (h : allBits flags &&& m = 0) : maskOf flags &&& m = 0 := by
  induction flags with
  | nil => exact UInt8.zero_and
  | cons f flags ih =>
    rw [allBits, and_or_distrib_right, UInt8.or_eq_zero_iff] at h
    rw [maskOf, and_or_distrib_right, ih h.2, UInt8.or_zero]
    split
    · exact h.1
    · exact UInt8.zero_and

namespace Slot

variable {α : Type}

def flags (slots : List (Slot α)) (a : α) : List (Bool × UInt8) :=
  slots.map fun s ↦ (s.present a, s.bit)

theorem foldl_or (slots : List (Slot α)) (m : UInt8) :
    slots.foldl (fun mask s ↦ mask ||| s.bit) m = m ||| bits slots := by
  induction slots generalizing m with
  | nil => exact UInt8.or_zero.symm
  | cons s slots ih =>
    rw [bits, List.foldl_cons, List.foldl_cons, ih, ih, UInt8.zero_or, UInt8.or_assoc]

theorem bits_cons (s : Slot α) (slots : List (Slot α)) :
    bits (s :: slots) = s.bit ||| bits slots := by
  rw [bits, List.foldl_cons, foldl_or, UInt8.zero_or]

theorem bits_eq (slots : List (Slot α)) (a : α) : bits slots = allBits (flags slots a) := by
  induction slots with
  | nil => rfl
  | cons s slots ih =>
    rw [bits_cons, ih]
    rfl

theorem presence_eq (slots : List (Slot α)) (a : α) :
    presence slots a = maskOf (flags slots a) := by
  induction slots with
  | nil => rfl
  | cons s slots ih =>
    rw [flags, List.map_cons, maskOf, ← flags, ← ih, presence, List.filter_cons]
    split
    · rw [bits_cons, presence]
    · rw [UInt8.zero_or, presence]

structure OwnBits (slots : List (Slot α)) : Prop where
  isBit : ∀ s ∈ slots, IsBit s.bit
  nodup : (slots.map Slot.bit).Nodup

theorem OwnBits.distinctBits {slots : List (Slot α)} (h : OwnBits slots) (a : α) :
    DistinctBits (flags slots a) where
  isBit := List.forall_mem_map.2 h.isBit
  nodup := by
    rw [flags, List.map_map]
    exact h.nodup

theorem OwnBits.presence_and {slots : List (Slot α)} (h : OwnBits slots) (a : α) {s : Slot α}
    (hs : s ∈ slots) : presence slots a &&& s.bit = if s.present a then s.bit else 0 := by
  have hflag : (s.present a, s.bit) ∈ flags slots a := List.mem_map.2 ⟨s, hs, rfl⟩
  rw [presence_eq, maskOf_and (h.distinctBits a) hflag]

/-- A mask without the bits of some slots is without the bit of each. -/
theorem and_bit_eq_zero {slots : List (Slot α)} {mask : UInt8} (hmask : mask &&& bits slots = 0)
    {s : Slot α} (hs : s ∈ slots) : mask &&& s.bit = 0 := by
  induction slots with
  | nil => cases hs
  | cons t slots ih =>
    rw [bits_cons, and_or_distrib_left, UInt8.or_eq_zero_iff] at hmask
    obtain rfl | hmem := List.mem_cons.1 hs
    · exact hmask.1
    · exact ih hmask.2 hmem

/-- Bits of no slot make no difference to what a mask says of the slots. -/
theorem OwnBits.announced {slots : List (Slot α)} (h : OwnBits slots) (a : α) {extra : UInt8}
    (hextra : extra &&& bits slots = 0) {s : Slot α} (hs : s ∈ slots) :
    ((presence slots a ||| extra) &&& s.bit != 0) = s.present a := by
  rw [and_or_distrib_right, h.presence_and a hs, and_bit_eq_zero hextra hs, UInt8.or_zero]
  cases s.present a <;> simp [(h.isBit s hs).ne_zero]

theorem presence_and_not_bits (slots : List (Slot α)) (a : α) :
    presence slots a &&& ~~~bits slots = 0 := by
  rw [presence_eq, bits_eq slots a]
  exact maskOf_and_eq_zero UInt8.and_not_self

def Apart (s t : Slot α) : Prop :=
  (∀ v a, t.child (s.fill v a) = t.child a) ∧ ∀ v a, s.child (t.fill v a) = s.child a

structure Lawful (slots : List (Slot α)) : Prop where
  isBit : ∀ s ∈ slots, IsBit s.bit
  nodup : (slots.map Slot.bit).Nodup
  child_fill : ∀ s ∈ slots, ∀ v a, s.child (s.fill v a) = some v
  apart : slots.Pairwise Apart

theorem Lawful.tail {s : Slot α} {slots : List (Slot α)} (h : Lawful (s :: slots)) :
    Lawful slots where
  isBit := (List.forall_mem_cons.1 h.isBit).2
  nodup := (List.nodup_cons.1 h.nodup).2
  child_fill := (List.forall_mem_cons.1 h.child_fill).2
  apart := (List.pairwise_cons.1 h.apart).2

theorem Lawful.ownBits {slots : List (Slot α)} (h : Lawful slots) : OwnBits slots :=
  ⟨h.isBit, h.nodup⟩

theorem Lawful.distinctBits {slots : List (Slot α)} (h : Lawful slots) (a : α) :
    DistinctBits (flags slots a) := h.ownBits.distinctBits a

theorem Lawful.presence_eq_iff {slots : List (Slot α)} (h : Lawful slots) {mask : UInt8}
    (hm : mask &&& ~~~bits slots = 0) (a : α) :
    presence slots a = mask ↔ ∀ s ∈ slots, s.present a = (mask &&& s.bit != 0) := by
  rw [bits_eq slots a] at hm
  rw [presence_eq, maskOf_eq_iff (h.distinctBits a) hm, flags, List.forall_mem_map]

def copy (w : α) : List (Slot α) → α → α
  | [], a => a
  | s :: slots, a => copy w slots (((s.child w).map fun v ↦ s.fill v a).getD a)

theorem copy_of_none {s : Slot α} {w : α} (h : s.child w = none) (slots : List (Slot α)) (a : α) :
    copy w (s :: slots) a = copy w slots a := by
  rw [copy, h, Option.map_none, Option.getD_none]

theorem copy_of_some {s : Slot α} {w : α} {v : s.expected.Content} (h : s.child w = some v)
    (slots : List (Slot α)) (a : α) : copy w (s :: slots) a = copy w slots (s.fill v a) := by
  rw [copy, h, Option.map_some, Option.getD_some]

theorem children_of_none {s : Slot α} {w : α} (h : s.child w = none) (slots : List (Slot α)) :
    children (s :: slots) w = children slots w := by
  rw [children, List.filterMap_cons_none (by rw [h, Option.map_none]), children]

theorem children_of_some {s : Slot α} {w : α} {v : s.expected.Content} (h : s.child w = some v)
    (slots : List (Slot α)) :
    children (s :: slots) w = s.expected.toNode v :: children slots w := by
  rw [children, List.filterMap_cons_some (by rw [h, Option.map_some]), children]

theorem child_copy {s : Slot α} {slots : List (Slot α)} (h : ∀ t ∈ slots, s.Apart t) (w a : α) :
    s.child (copy w slots a) = s.child a := by
  induction slots generalizing a with
  | nil => rfl
  | cons t slots ih =>
    obtain ⟨ht, hts⟩ := List.forall_mem_cons.1 h
    rw [copy, ih hts]
    cases t.child w with
    | none => rfl
    | some v => exact ht.2 v a

variable {scope : Scope} {G : (e : Expectation) → Grammar e.Content} {layout : Layout}
  {P : Node → Prop}

/-- The value returned has the children that the mask announces, and is otherwise the one that
reading began with. -/
theorem readPresent_mirrors (hG : ∀ e bs v, G e bs v ↔
      ((e.toNode v).frame layout).bytes? scope.table = some bs ∧ P (e.toNode v))
    {slots : List (Slot α)} (h : Lawful slots) (mask : UInt8) (a : α)
    (ha : ∀ s ∈ slots, s.child a = none) :
    (readPresent mask slots a).Mirrors scope G (fun w ↦ (children slots w).map (Node.frame layout))
      (fun w ↦ (∀ s ∈ slots, s.present w = (mask &&& s.bit != 0)) ∧ copy w slots a = w)
      fun w ↦ ∀ m ∈ children slots w, P m := by
  induction slots generalizing a with
  | nil =>
    refine (Plan.Mirrors.pure fun w ↦ ?_).congr_fits fun w ↦ ?_
    · exact ⟨fun hw ↦ hw.2.symm, fun hw ↦ ⟨List.forall_mem_nil _, hw.symm⟩⟩
    · exact iff_of_true trivial (List.forall_mem_nil _)
  | cons s slots ih =>
    obtain ⟨has, hat⟩ := List.forall_mem_cons.1 ha
    have hapart := (List.pairwise_cons.1 h.apart).1
    intro bs w
    rw [readPresent]
    split
    · next hbit =>
      rw [ih h.tail a hat bs w]
      by_cases hn : s.child w = none
      · have hps : present w s = (mask &&& s.bit != 0) := by simp [present, hn, hbit]
        dsimp only
        rw [List.forall_mem_cons, and_iff_right hps, copy_of_none hn, children_of_none hn]
      · -- A slot that the mask leaves out is as empty in the end as it was in the beginning.
        refine iff_of_false (fun hw ↦ hn ?_) fun hw ↦ hn ?_
        · rw [← hw.1.2, child_copy hapart, has]
        · have hps := (List.forall_mem_cons.1 hw.1.1).1
          simpa [present, hbit] using hps
    · next hbit =>
      have hat' (v : s.expected.Content) : ∀ t ∈ slots, t.child (s.fill v a) = none :=
        fun t ht ↦ ((hapart t ht).1 v a).trans (hat t ht)
      constructor
      · rintro ⟨v, bs₁, bs₂, hv, hrest, rfl⟩
        obtain ⟨hb₁, hPv⟩ := (hG _ _ _).1 hv
        obtain ⟨⟨hp, hc⟩, hb₂, hP⟩ := (ih h.tail _ (hat' v) bs₂ w).1 hrest
        have hs : s.child w = some v := by
          rw [← hc, child_copy hapart, h.child_fill s List.mem_cons_self]
        have hps : present w s = (mask &&& s.bit != 0) := by simp [present, hs, hbit]
        dsimp only
        rw [copy_of_some hs, children_of_some hs, List.map_cons]
        exact ⟨⟨List.forall_mem_cons.2 ⟨hps, hp⟩, hc⟩,
          Field.allBytes?_cons.2 ⟨bs₁, bs₂, hb₁, hb₂, rfl⟩, List.forall_mem_cons.2 ⟨hPv, hP⟩⟩
      · rintro ⟨⟨hp, hc⟩, hb, hP⟩
        obtain ⟨hps, hp⟩ := List.forall_mem_cons.1 hp
        obtain ⟨v, hs⟩ := Option.isSome_iff_exists.1 (hps.trans (bne_iff_ne.2 hbit))
        dsimp only at hb hP
        rw [copy_of_some hs] at hc
        rw [children_of_some hs] at hb hP
        obtain ⟨bs₁, bs₂, hb₁, hb₂, rfl⟩ := Field.allBytes?_cons.1 hb
        obtain ⟨hPv, hP⟩ := List.forall_mem_cons.1 hP
        exact ⟨v, bs₁, bs₂, (hG _ _ _).2 ⟨hb₁, hPv⟩,
          (ih h.tail _ (hat' v) bs₂ w).2 ⟨⟨hp, hc⟩, hb₂, hP⟩, rfl⟩

end Slot

end TreeBytecode
