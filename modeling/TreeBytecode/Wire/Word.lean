namespace TreeBytecode.Wire

abbrev Bytes := List UInt8

def word : (width : Nat) → Nat → Bytes
  | 0, _ => []
  | width + 1, n => UInt8.ofNat n :: word width (n / 256)

def ofBytes : Bytes → Nat
  | [] => 0
  | b :: bs => b.toNat + 256 * ofBytes bs

def capacity : (width : Nat) → Nat
  | 0 => 1
  | width + 1 => 256 * capacity width

def signed (n : Nat) : Int32 := ⟨UInt32.ofNat n⟩

@[simp] theorem length_word (width n : Nat) : (word width n).length = width := by
  induction width generalizing n with
  | zero => rfl
  | succ width ih => simp [word, ih]

theorem ofBytes_word {width n : Nat} (h : n < capacity width) : ofBytes (word width n) = n := by
  induction width generalizing n with
  | zero => exact (Nat.lt_one_iff.1 h).symm
  | succ width ih =>
    have hn : n / 256 < capacity width := Nat.div_lt_of_lt_mul h
    simp only [word, ofBytes, ih hn, UInt8.toNat_ofNat']
    omega

theorem word_ofBytes (bs : Bytes) : word bs.length (ofBytes bs) = bs := by
  induction bs with
  | nil => rfl
  | cons b bs ih =>
    have hb := b.toNat_lt
    have hd : (b.toNat + 256 * ofBytes bs) / 256 = ofBytes bs := by omega
    have hm : UInt8.ofNat (b.toNat + 256 * ofBytes bs) = b := by
      apply UInt8.toNat_inj.1
      simp only [UInt8.toNat_ofNat']
      omega
    simp only [List.length_cons, word, ofBytes, hd, hm, ih]

theorem ofBytes_lt (bs : Bytes) : ofBytes bs < capacity bs.length := by
  induction bs with
  | nil => exact Nat.one_pos
  | cons b bs ih =>
    have := b.toNat_lt
    simp only [ofBytes, List.length_cons, capacity]
    omega

end TreeBytecode.Wire
