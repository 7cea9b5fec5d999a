import TreeBytecode.Stream.Compression

namespace TreeBytecode

open Wire

namespace Stream.Demand

variable {d : Demand}

structure Sound (d : Demand) : Prop where
  held_le : d.held ≤ d.room
  most_pos : 0 < d.most

theorem upTo_sound (count : Nat) : (upTo count).Sound := ⟨Nat.zero_le _, Nat.zero_lt_succ _⟩

theorem Sound.held_lt_nextRoom (h : d.Sound) : d.held < d.nextRoom := by
  have hroom := h.held_le
  rw [nextRoom]
  split
  · simp only [grown, probeSize]
    omega
  · omega

theorem Sound.asked_pos (h : d.Sound) : 0 < d.asked := by
  have hroom := h.held_lt_nextRoom
  have hmost := h.most_pos
  rw [asked]
  split
  · decide
  · omega

theorem request_le_asked (d : Demand) : d.request ≤ d.asked := Nat.min_le_left _ _

theorem held_took (d : Demand) (n : Nat) : (d.took n).held = d.held + n := by
  rw [took]
  split <;> rfl

theorem limit_took (d : Demand) (n : Nat) : (d.took n).limit = d.limit := by
  rw [took]
  split <;> rfl

theorem Sound.took (h : d.Sound) {n : Nat} (hn : n ≤ d.asked) : (d.took n).Sound := by
  have hroom := h.held_lt_nextRoom
  have hmost := h.most_pos
  cases hp : d.probes with
  | true =>
    rw [Demand.took, if_pos hp]
    refine ⟨?_, hmost⟩
    dsimp only
    split
    · assumption
    · simp only [grown]
      omega
  | false =>
    have hasked : d.asked = min (d.nextRoom - d.held) d.most := by
      rw [asked, hp, if_neg Bool.false_ne_true]
    rw [Demand.took, hp, if_neg Bool.false_ne_true]
    constructor
    · dsimp only
      omega
    · dsimp only
      split <;> omega

theorem absorb_succ (d : Demand) (fuel : Nat) {n : Nat} (hn : n ≠ 0) : d.absorb (fuel + 1) n =
    (d.took (min d.request n)).absorb fuel (n - min d.request n) := by
  rw [absorb, if_neg hn]

theorem Sound.absorb (h : d.Sound) (fuel n : Nat) : (d.absorb fuel n).Sound := by
  induction fuel generalizing n d with
  | zero => exact h
  | succ fuel ih =>
    by_cases hn : n = 0
    · rw [Demand.absorb, if_pos hn]
      exact h
    · rw [absorb_succ d fuel hn]
      exact ih (h.took (Nat.le_trans (Nat.min_le_left _ _) d.request_le_asked)) _

theorem limit_absorb (d : Demand) (fuel n : Nat) : (d.absorb fuel n).limit = d.limit := by
  induction fuel generalizing n d with
  | zero => rfl
  | succ fuel ih =>
    by_cases hn : n = 0
    · rw [Demand.absorb, if_pos hn]
    · rw [absorb_succ d fuel hn, ih, limit_took]

theorem held_le_absorb (d : Demand) (fuel n : Nat) : d.held ≤ (d.absorb fuel n).held := by
  induction fuel generalizing n d with
  | zero => exact Nat.le_refl _
  | succ fuel ih =>
    by_cases hn : n = 0
    · exact Nat.le_of_eq (by rw [Demand.absorb, if_pos hn])
    · have hstep : d.held ≤ (d.took (min d.request n)).held := by
        rw [held_took]
        exact Nat.le_add_right _ _
      rw [absorb_succ d fuel hn]
      exact Nat.le_trans hstep (ih _ _)

theorem Sound.missing_absorb (h : d.Sound) {fuel n : Nat} (hfuel : n ≤ fuel) :
    d.limit - (d.absorb fuel n).held = d.limit - d.held - n := by
  induction fuel generalizing n d with
  | zero =>
    obtain rfl := Nat.le_zero.1 hfuel
    rfl
  | succ fuel ih =>
    by_cases hn : n = 0
    · rw [Demand.absorb, if_pos hn, hn, Nat.sub_zero]
    · have hrequest : d.request = min d.asked (d.limit - d.held) := rfl
      have hasked := h.asked_pos
      by_cases hfull : d.limit ≤ d.held
      · have hheld := d.held_le_absorb (fuel + 1) n
        omega
      · have hsound := h.took (Nat.le_trans (Nat.min_le_left d.request n) d.request_le_asked)
        have hrest := ih hsound (n := n - min d.request n) (by omega)
        rw [limit_took, held_took] at hrest
        rw [absorb_succ d fuel hn, hrest]
        omega

end Stream.Demand

open TreeBytecode.Stream (Demand Source)

namespace Wire

def Ending.Holds : Ending → Bytes → Prop
  | .clean => fun content ↦ content = []
  | .faulty _ => fun _ ↦ False
  | .packed more => more.Gives

theorem Ending.unpack_of_gives {more : Source} {content : Bytes} {d : Demand}
    (h : more.Gives content) (hd : d.Sound) : ∃ left, content = (unpack d more).1 ++ left ∧
      (unpack d more).2.Holds left ∧
      (d.limit - d.held ≤ (unpack d more).1.length ∨ left = []) := by
  induction more generalizing content d with
  | stop fault? =>
    obtain ⟨rfl, rfl⟩ := h
    exact ⟨[], rfl, rfl, .inr rfl⟩
  | more bytes rest ih =>
    rw [unpack]
    split
    · next hrequest =>
      refine ⟨content, rfl, h, .inl ?_⟩
      have hasked := hd.asked_pos
      rw [Demand.request] at hrequest
      dsimp only [List.length_nil]
      omega
    · next hrequest =>
      obtain ⟨left, rfl, hleft⟩ := h d.request (Nat.pos_of_ne_zero hrequest)
      let given := bytes d.request
      obtain ⟨left', rfl, hholds, hmet⟩ := ih d.request hleft
        (hd.absorb given.length given.length)
      rw [Demand.limit_absorb, hd.missing_absorb (Nat.le_refl _)] at hmet
      refine ⟨left', (List.append_assoc _ _ _).symm, hholds, hmet.imp_left fun h ↦ ?_⟩
      dsimp only [given] at h ⊢
      rw [List.length_append]
      omega

theorem Ending.supply_of_holds {e : Ending} {content : Bytes} {d : Demand} (h : e.Holds content)
    (hd : d.Sound) : ∃ left, content = (e.supply d).1 ++ left ∧ (e.supply d).2.Holds left ∧
      (d.limit - d.held ≤ (e.supply d).1.length ∨ left = []) := by
  cases e with
  | clean => exact ⟨[], h, rfl, .inr rfl⟩
  | faulty fault => exact h.elim
  | packed more => exact unpack_of_gives h hd

namespace Cursor

def Holds (c : Cursor) (content : Bytes) : Prop :=
  ∃ more, content = c.rest ++ more ∧ c.ending.Holds more

theorem endFault?_of_holds {c : Cursor} {content : Bytes} (h : c.Holds content) :
    c.endFault? = none := by
  obtain ⟨more, -, hmore⟩ := h
  rw [endFault?]
  cases he : c.ending with
  | clean | packed => rfl
  | faulty fault =>
    rw [he] at hmore
    exact hmore.elim

theorem fill_of_holds {c : Cursor} {content : Bytes} (h : c.Holds content) (count : Nat) :
    (c.fill count).Holds content ∧ (c.fill count).rest.take count = content.take count ∧
      (c.fill count).offset = c.offset ∧ (c.fill count).frames = c.frames := by
  obtain ⟨more, rfl, hmore⟩ := h
  have hready : (c.rest.take count).length = min count c.rest.length := List.length_take
  rw [fill]
  dsimp only
  split
  · refine ⟨⟨more, rfl, hmore⟩, ?_, rfl, rfl⟩
    rw [List.take_append_of_le_length (by omega)]
  · have hsound := Demand.upTo_sound count
    have hmissing := hsound.missing_absorb (Nat.le_refl (c.rest.take count).length)
    have hstart : (Demand.upTo count).held = 0 := rfl
    have hlimit : (Demand.upTo count).limit = count := rfl
    obtain ⟨left, hleft, hholds, hmet⟩ := Ending.supply_of_holds hmore (hsound.absorb _ _)
    rw [Demand.limit_absorb] at hmet
    refine ⟨⟨left, ?_, hholds⟩, ?_, rfl, rfl⟩
    · dsimp only
      rw [List.append_assoc, ← hleft]
    · dsimp only
      rw [hleft, ← List.append_assoc]
      obtain hmet | rfl := hmet
      · refine (List.take_append_of_le_length ?_).symm
        rw [List.length_append]
        omega
      · rw [List.append_nil]

end Cursor

end Wire

variable {z : TreeBytecode.Stream.Codec}

theorem Compression.open_holds (hz : z.ReadsBack) (c : Compression) (content : Bytes) :
    (c.open_ z (c.pack z content) Option.none).Holds content := by
  cases c with
  | none => exact ⟨[], (List.append_nil _).symm, rfl⟩
  | zstd level => exact ⟨content, rfl, hz level content⟩

end TreeBytecode
