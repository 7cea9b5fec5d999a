import Mathlib.Data.String.Basic
import Mathlib.Tactic.SplitIfs
import TreeBytecode.Text.Utf8

namespace TreeBytecode.Text

theorem utf8_eq_flatMap (s : String) : utf8 s = s.toList.flatMap String.utf8EncodeChar := by
  have hbytes : utf8 s = s.toList.utf8Encode.data.toList := by
    rw [String.utf8Encode_toList]
    rfl
  rw [hbytes, List.utf8Encode, List.data_toByteArray]

theorem digits_lt {v w : Nat} (h : v < w) : v / 262144 < w / 262144 ∨ v / 262144 = w / 262144 ∧
    (v / 4096 % 64 < w / 4096 % 64 ∨ v / 4096 % 64 = w / 4096 % 64 ∧
      (v / 64 % 64 < w / 64 % 64 ∨ v / 64 % 64 = w / 64 % 64 ∧ v % 64 < w % 64)) := by
  have hdigits (n : Nat) :
      n = 64 * (64 * (64 * (n / 262144) + n / 4096 % 64) + n / 64 % 64) + n % 64 := by omega
  have hdigit (n : Nat) : n % 64 < 64 := Nat.mod_lt n (by decide)
  have hv := hdigits v
  have hw := hdigits w
  have h₁ := hdigit (v / 4096)
  have h₂ := hdigit (v / 64)
  have h₃ := hdigit v
  have h₁' := hdigit (w / 4096)
  have h₂' := hdigit (w / 64)
  have h₃' := hdigit w
  generalize v / 262144 = a, v / 4096 % 64 = b, v / 64 % 64 = c, v % 64 = d at *
  generalize w / 262144 = a', w / 4096 % 64 = b', w / 64 % 64 = c', w % 64 = d' at *
  omega

theorem utf8EncodeChar_append_lt {c d : Char} (h : c < d) (bs cs : List UInt8) :
    String.utf8EncodeChar c ++ bs < String.utf8EncodeChar d ++ cs := by
  have hlt : c.val.toNat < d.val.toNat := h
  have hmax : d.val.toNat < 0x110000 := by
    obtain hsmall | ⟨-, hlarge⟩ := d.valid
    · omega
    · exact hlarge
  simp only [String.utf8EncodeChar]
  generalize c.val.toNat = v at hlt
  generalize d.val.toNat = w at hlt hmax
  have hdigits := digits_lt hlt
  have hfollow (n : Nat) : (n % 64 + 128) % 2 ^ 8 = n % 64 + 128 := by omega
  have hlead {n : Nat} (hn : n < 0x110000) :
      (n / 262144 % 8 + 240) % 2 ^ 8 = n / 262144 + 240 := by omega
  have hleadv := hlead (Nat.lt_trans hlt hmax)
  have hleadw := hlead hmax
  -- for each pair of lengths, the first bytes that differ are compared
  split_ifs
  all_goals
    simp only [List.cons_append, List.nil_append, List.cons_lt_cons_iff, UInt8.lt_iff_toNat_lt,
      ← UInt8.toNat_inj, UInt8.toNat_ofNat', hfollow, hleadv, hleadw]
    omega

theorem utf8_lt_of_lt {s t : String} (h : s < t) : utf8 s < utf8 t := by
  rw [utf8_eq_flatMap, utf8_eq_flatMap]
  have hlist : s.toList < t.toList := h
  generalize s.toList = cs at hlist
  generalize t.toList = ds at hlist
  induction hlist with
  | @nil d ds =>
    have hne : String.utf8EncodeChar d ≠ [] := by
      rw [← List.length_pos_iff, String.length_utf8EncodeChar]
      exact d.utf8Size_pos
    obtain ⟨b, bs, hbytes⟩ := List.exists_cons_of_ne_nil hne
    rw [List.flatMap_cons, hbytes]
    exact List.nil_lt_cons ..
  | rel hlt => exact utf8EncodeChar_append_lt hlt _ _
  | cons _ ih => exact List.append_left_lt ih

/-- Texts are ordered by their characters as they are by their bytes. -/
theorem utf8_lt_iff {s t : String} : utf8 s < utf8 t ↔ s < t := by
  refine ⟨fun h ↦ ?_, utf8_lt_of_lt⟩
  obtain hlt | rfl | hgt := lt_trichotomy s t
  · exact hlt
  · exact absurd h (List.lt_irrefl _)
  · exact absurd h (List.lt_asymm (utf8_lt_of_lt hgt))

end TreeBytecode.Text
