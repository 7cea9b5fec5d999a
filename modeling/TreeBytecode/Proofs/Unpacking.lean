import TreeBytecode.Stream.Zstandard

namespace TreeBytecode.Stream.Zstandard

open Wire

theorem blockHeader_storedBlock (last : Bool) {content : Bytes} (h : content.length ≤ maxBlock)
    (rest : Bytes) : blockHeader (storedBlock last content ++ rest) =
      .whole ⟨last, .stored, content.length⟩ (content ++ rest) := by
  let n := (if last then 1 else 0) + 2 * BlockKind.stored.code + 8 * content.length
  have hshape : storedBlock last content ++ rest = word 3 n ++ (content ++ rest) :=
    List.append_assoc _ _ _
  have hbit : (if last then 1 else 0) ≤ 1 := by split <;> decide
  have hn : n < capacity 3 := by
    simp only [n, BlockKind.code, maxBlock, capacity] at h ⊢
    omega
  have hkind : n / 2 % 4 = BlockKind.stored.code := by
    simp only [n, BlockKind.code]
    omega
  have hsize : n / 8 = content.length := by
    simp only [n, BlockKind.code]
    omega
  have hlast : (decide (n % 2 = 1)) = last := by
    cases last <;> simp [n, BlockKind.code] <;> omega
  have hlength : (word 3 n).length = 3 := length_word 3 n
  have hlong : ¬ (word 3 n ++ (content ++ rest)).length < 3 := by
    rw [List.length_append]
    omega
  simp only [hshape, blockHeader, List.take_left' hlength, List.drop_left' hlength, if_neg hlong,
    ofBytes_word hn, hkind, BlockKind.ofCode?_code, hsize, hlast]

theorem length_storedBlock (last : Bool) (content : Bytes) :
    (storedBlock last content).length = 3 + content.length := by
  rw [storedBlock, BlockHeader.bytes, List.length_append, length_word]

/-- Fuel beyond the length of the content makes no difference. -/
theorem storedBlocks_fuel {fuel fuel' : Nat} {content : Bytes} (h : content.length ≤ fuel)
    (h' : content.length ≤ fuel') : storedBlocks fuel content = storedBlocks fuel' content := by
  induction fuel generalizing fuel' content with
  | zero =>
    obtain rfl := List.eq_nil_of_length_eq_zero (Nat.le_zero.1 h)
    cases fuel' <;> rfl
  | succ fuel ih =>
    cases fuel' with
    | zero =>
      obtain rfl := List.eq_nil_of_length_eq_zero (Nat.le_zero.1 h')
      rfl
    | succ fuel' =>
      have hlength : (content.drop maxBlock).length = content.length - maxBlock :=
        List.length_drop
      have hmax : 0 < maxBlock := by decide
      have hrest : storedBlocks fuel (content.drop maxBlock) =
          storedBlocks fuel' (content.drop maxBlock) := ih (by omega) (by omega)
      rw [storedBlocks, storedBlocks, hrest]

theorem storedBlocks_eq {content : Bytes} (h : content ≠ []) :
    storedBlocks content.length content = storedBlock false (content.take maxBlock) ++
      storedBlocks (content.drop maxBlock).length (content.drop maxBlock) := by
  obtain ⟨fuel, hfuel⟩ := Nat.exists_eq_add_one_of_ne_zero (mt List.eq_nil_of_length_eq_zero h)
  have hlength : (content.drop maxBlock).length = content.length - maxBlock := List.length_drop
  have hmax : 0 < maxBlock := by decide
  rw [hfuel, storedBlocks, if_neg h]
  exact congrArg _ (storedBlocks_fuel (by omega) (Nat.le_refl _))

structure OpenFrame.Between (f : OpenFrame) (b : Buffers) : Prop where
  maxBlock : f.header.maxBlock = Zstandard.maxBlock
  contentSize : f.header.contentSize = none
  hasChecksum : f.header.hasChecksum = false
  sealed : f.sealed = false
  room : f.position + Zstandard.maxBlock ≤ b.output

theorem OpenFrame.Between.push {f : OpenFrame} {b : Buffers} (h : f.Between b) (block : Bytes) :
    ({ f.push b.output block with sealed := false } : OpenFrame).Between b := by
  refine ⟨h.maxBlock, h.contentSize, h.hasChecksum, rfl, ?_⟩
  have hroom := h.room
  have hwraps : f.header.contentSize.all (b.output < ·) = true := by
    rw [h.contentSize]
    rfl
  simp only [OpenFrame.push, hwraps, h.maxBlock, Bool.true_and, decide_eq_true_eq]
  split
  · omega
  · next hstay =>
    by_cases hb : block = []
    · rw [hb, List.length_nil]
      omega
    · exact Nat.not_lt.1 fun hlt ↦ hstay ⟨hb, hlt⟩

namespace Unpacker

/-- What is left of the content of a stream that a writer flushed and finished. -/
inductive Holds : Unpacker → Bytes → Prop
  | start {u : Unpacker} {content : Bytes} (clean : u.fault? = none) (frame : u.frame? = none)
      (input : u.input = flushed content ++ closing) : Holds u content
  | inside {u : Unpacker} {content : Bytes} {f : OpenFrame} (clean : u.fault? = none)
      (frame : u.frame? = some (.present f)) (between : f.Between u.buffers)
      (input : u.input = storedBlocks content.length content ++ closing) : Holds u content
  | done {u : Unpacker} (clean : u.fault? = none) (finished : u.finished = true)
      (input : u.input = []) : Holds u []

variable {u : Unpacker} {f : OpenFrame} {content : Bytes}

theorem unpackBlocks_storedBlock (hf : f.Between u.buffers) (last : Bool) {block rest : Bytes}
    (hinput : u.input = storedBlock last block ++ rest) (hblock : block.length ≤ maxBlock)
    {request : Nat} (fuel : Nat) {given : Bytes} (hgiven : given.length ≤ request) :
    u.unpackBlocks request (fuel + 1) given f =
      if last then some (given ++ block, u.leave rest)
      else ({ u with input := rest } : Unpacker).unpackBlocks request fuel (given ++ block)
        { f.push u.buffers.output block with sealed := false } := by
  have hroom := hf.room
  have hheader := blockHeader_storedBlock last hblock rest
  have hsize : block.length ≤ f.header.maxBlock := by rwa [hf.maxBlock]
  have hfits : ¬ u.buffers.output < f.position + block.length := by omega
  have hallows (size : Nat) : f.header.allows size = true := by
    rw [FrameHeader.allows, hf.contentSize]
    rfl
  rw [unpackBlocks, if_neg (Nat.not_lt.2 hgiven), hf.sealed, if_neg Bool.false_ne_true, hinput,
    hheader]
  cases last <;>
    simp [BlockHeader.width, BlockHeader.yield, BlockHeader.content, Nat.not_lt.2 hsize, hfits,
      hallows, OpenFrame.push, hf.hasChecksum]

theorem unpackBlocks_of_holds (hclean : u.fault? = none) (hf : f.Between u.buffers)
    (hinput : u.input = storedBlocks content.length content ++ closing) (request : Nat)
    {fuel : Nat} (hfuel : u.input.length < fuel) (given : Bytes) : ∃ part left u',
      u.unpackBlocks request fuel given f = some (given ++ part, u') ∧ content = part ++ left ∧
        u'.Holds left ∧ u'.input.length ≤ u.input.length ∧
        (given.length ≤ request → u'.input.length < u.input.length) := by
  induction fuel generalizing given content f u with
  | zero => omega
  | succ fuel ih =>
    by_cases hgiven : given.length ≤ request
    · by_cases hc : content = []
      · subst hc
        have hempty : u.input = storedBlock true [] ++ [] := hinput
        have hlast := unpackBlocks_storedBlock hf true hempty (Nat.zero_le _) fuel hgiven
        refine ⟨[], [], u.leave [], hlast, rfl, .done hclean rfl rfl, Nat.zero_le _, fun _ ↦ ?_⟩
        rw [hempty, List.length_append, length_storedBlock]
        exact Nat.zero_lt_succ _
      · have hblock : u.input = storedBlock false (content.take maxBlock) ++
            (storedBlocks (content.drop maxBlock).length (content.drop maxBlock) ++ closing) := by
          rw [hinput, storedBlocks_eq hc, List.append_assoc]
        have hstep := unpackBlocks_storedBlock hf false hblock (List.length_take_le _ _) fuel hgiven
        let u₁ : Unpacker := { u with
          input := storedBlocks (content.drop maxBlock).length (content.drop maxBlock) ++ closing }
        have hlength : u.input.length = 3 + (content.take maxBlock).length + u₁.input.length := by
          rw [hblock, List.length_append, length_storedBlock]
        obtain ⟨part, left, u', hrun, hleft, hholds, hle, -⟩ := ih (u := u₁) hclean (hf.push _) rfl
          (by omega) (given ++ content.take maxBlock)
        refine ⟨content.take maxBlock ++ part, left, u', ?_, ?_, hholds, by omega,
          fun _ ↦ by omega⟩
        · rw [hstep, if_neg Bool.false_ne_true, hrun, List.append_assoc]
        · rw [List.append_assoc, ← hleft, List.take_append_drop]
    · refine ⟨[], content, u.stay (.present f) u.input, ?_, rfl, .inside hclean rfl hf hinput,
        Nat.le_refl _, fun h ↦ absurd h hgiven⟩
      rw [unpackBlocks, if_pos (Nat.not_le.1 hgiven), List.append_nil]

def writerHeader : FrameHeader := ⟨none, 0x200000, 0, false⟩

theorem frameHeader_head (rest : Bytes) :
    frameHeader 0x00 (0x58 :: rest) = .whole writerHeader rest := by
  have hwidths : fieldWidths 0x00 = ⟨1, 0, 0⟩ := rfl
  have hwindow : windowSize? 0x58 = some 0x200000 := rfl
  simp [frameHeader, hwidths, FieldWidths.sum, isSingle, hwindow, sizeOf?, ofBytes, writerHeader]

theorem opening_head (rest : Bytes) :
    opening (head ++ rest) = .whole (.frame writerHeader) rest := by
  have hmagic : head ++ rest = magic ++ 0x00 :: 0x58 :: rest := rfl
  have hlength : magic.length = 4 := rfl
  simp only [opening, hmagic, List.take_left' hlength, List.drop_left' hlength, frameHeader_head]
  rfl

theorem run_of_holds (h : u.Holds content) (hinput : u.input ≠ []) (request : Nat) :
    ∃ part left u', u.run request = some (part, u') ∧ content = part ++ left ∧ u'.Holds left ∧
      u'.input.length < u.input.length := by
  cases h with
  | start hclean hframe hin =>
    let rest := storedBlocks content.length content ++ closing
    let b := u.buffers.fit writerHeader.inputSize writerHeader.outputSize
    have hhead : u.input = head ++ rest := hin.trans (List.append_assoc _ _ _)
    have hroom : writerHeader.outputSize ≤ b.output := by
      simp only [b, Buffers.fit]
      split
      · exact Nat.le_refl _
      · omega
    have hf : (⟨writerHeader, [], 0, false⟩ : OpenFrame).Between b :=
      ⟨rfl, rfl, rfl, rfl, Nat.le_trans (by decide) hroom⟩
    obtain ⟨part, left, u', hrun, hleft, hholds, hle, -⟩ :=
      unpackBlocks_of_holds (u := { u with input := rest, buffers := b }) hclean hf rfl request
        (Nat.lt_succ_self rest.length) []
    refine ⟨part, left, u', ?_, hleft, hholds, ?_⟩
    · rw [run, hframe, hhead, opening_head]
      exact hrun
    · rw [hhead, List.length_append]
      exact Nat.lt_of_le_of_lt hle (Nat.lt_add_of_pos_left (by decide))
  | inside hclean hframe hf hin =>
    obtain ⟨part, left, u', hrun, hleft, hholds, -, hlt⟩ :=
      unpackBlocks_of_holds hclean hf hin request (Nat.lt_succ_self u.input.length) []
    refine ⟨part, left, u', ?_, hleft, hholds, hlt (Nat.zero_le _)⟩
    rw [run, hframe]
    exact hrun
  | done hclean hfinished hin => exact absurd hin hinput

theorem start_holds (content : Bytes) : (start (flushed content ++ closing) none).Holds content :=
  .start rfl rfl rfl

/-- A request brings something as long as there is content left, and after that the clean end. -/
theorem pull_of_holds (h : u.Holds content) (request : Nat) {fuel : Nat}
    (hfuel : u.input.length < fuel) :
    (u.pull request fuel = .error none ∧ content = []) ∨ ∃ part left u',
      u.pull request fuel = .ok (part, u') ∧ content = part ++ left ∧ u'.Holds left ∧
        u'.input.length < u.input.length := by
  induction fuel generalizing u with
  | zero => omega
  | succ fuel ih =>
    by_cases hinput : u.input = []
    · left
      rw [pull, if_pos hinput]
      cases h with
      | start _ _ hin => exact absurd (hin.symm.trans hinput) (by simp [flushed, head, magic])
      | inside _ _ _ hin =>
        exact absurd (hin.symm.trans hinput)
          (by simp [closing, storedBlock, BlockHeader.bytes, word])
      | done hclean hfinished _ =>
        refine ⟨?_, rfl⟩
        rw [endFault?, hclean, hfinished]
        rfl
    · obtain ⟨part, left, u', hrun, hleft, hholds, hlt⟩ := run_of_holds h hinput request
      rw [pull, if_neg hinput, hrun]
      cases part with
      | nil =>
        obtain rfl : content = left := hleft
        refine (ih hholds (by omega)).imp_right ?_
        rintro ⟨part, left, u'', hpull, hleft, hholds, hlt'⟩
        exact ⟨part, left, u'', hpull, hleft, hholds, by omega⟩
      | cons b part => exact .inr ⟨b :: part, left, u', rfl, hleft, hholds, hlt⟩

theorem remaining_gives (h : u.Holds content) {fuel : Nat} (hfuel : u.input.length < fuel) :
    (u.remaining fuel).Gives content := by
  induction fuel generalizing u content with
  | zero => omega
  | succ fuel ih =>
    intro request _
    obtain ⟨hpull, rfl⟩ | ⟨part, left, u', hpull, rfl, hholds, hlt⟩ :=
      pull_of_holds h request (Nat.lt_succ_self u.input.length)
    · exact ⟨[], by simp only [hpull, List.append_nil], by simp only [hpull]; exact ⟨rfl, rfl⟩⟩
    · exact ⟨left, by simp only [hpull], by simp only [hpull]; exact ih hholds (by omega)⟩

end Unpacker

theorem storing_readsBack : storing.ReadsBack := fun _ content ↦
  Unpacker.remaining_gives (Unpacker.start_holds content) (Nat.lt_succ_self _)

end TreeBytecode.Stream.Zstandard
