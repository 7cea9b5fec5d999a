import Mathlib.Logic.Function.Basic
import TreeBytecode.Text.Quoted

namespace TreeBytecode.Text

section Digits

variable {b m n : Nat}

theorem digitChar_inj (hm : m < 16) (hn : n < 16) (h : m.digitChar = n.digitChar) : m = n := by
  have hall : ∀ i j : Fin 16, i.1.digitChar = j.1.digitChar → i = j := by decide
  exact congrArg Fin.val (hall ⟨m, hm⟩ ⟨n, hn⟩ h)

theorem exists_of_mem_toDigits (hb : 1 < b) {c : Char} (h : c ∈ Nat.toDigits b n) :
    ∃ k < b, c = k.digitChar := by
  induction n using Nat.strongRecOn with
  | _ n ih =>
    by_cases hn : n < b
    · rw [Nat.toDigits_of_lt_base hn, List.mem_singleton] at h
      exact ⟨n, hn, h⟩
    · have hlt : n / b < n := Nat.div_lt_self (by omega) hb
      rw [Nat.toDigits_of_base_le hb (by omega), List.mem_append, List.mem_singleton] at h
      obtain h | h := h
      · exact ih _ hlt h
      · exact ⟨n % b, Nat.mod_lt _ (by omega), h⟩

theorem toDigits_ne_append_singleton (hn : n < b) {c : Char} :
    Nat.toDigits b n ≠ Nat.toDigits b m ++ [c] := by
  intro h
  have hlength := congrArg List.length h
  have hpos : 0 < (Nat.toDigits b m).length := Nat.length_toDigits_pos
  rw [Nat.toDigits_of_lt_base hn, List.length_append] at hlength
  simp only [List.length_singleton] at hlength
  omega

theorem toDigits_inj (hb : 1 < b) (hb' : b ≤ 16) (h : Nat.toDigits b m = Nat.toDigits b n) :
    m = n := by
  induction m using Nat.strongRecOn generalizing n with
  | _ m ih =>
    by_cases hm : m < b <;> by_cases hn : n < b
    · rw [Nat.toDigits_of_lt_base hm, Nat.toDigits_of_lt_base hn] at h
      exact digitChar_inj (by omega) (by omega) (List.singleton_inj.1 h)
    · rw [Nat.toDigits_of_base_le hb (n := n) (by omega)] at h
      exact absurd h (toDigits_ne_append_singleton hm)
    · rw [Nat.toDigits_of_base_le hb (n := m) (by omega)] at h
      exact absurd h.symm (toDigits_ne_append_singleton hn)
    · rw [Nat.toDigits_of_base_le hb (n := m) (by omega),
        Nat.toDigits_of_base_le hb (n := n) (by omega)] at h
      obtain ⟨hdiv, hmod⟩ := List.append_singleton_inj.1 h
      have hlt : m / b < m := Nat.div_lt_self (by omega) hb
      have hmodm : m % b < b := Nat.mod_lt _ (by omega)
      have hmodn : n % b < b := Nat.mod_lt _ (by omega)
      have hquotient : m / b = n / b := ih _ hlt hdiv
      have hrest : m % b = n % b := digitChar_inj (by omega) (by omega) hmod
      rw [← Nat.div_add_mod m b, hquotient, hrest, Nat.div_add_mod]

theorem bounds_of_mem_toDigits (hb : 1 < b) (hb' : b ≤ 16) {c : Char}
    (h : c ∈ Nat.toDigits b n) : '0'.toNat ≤ c.toNat ∧ c.toNat ≤ 'f'.toNat := by
  obtain ⟨k, hk, rfl⟩ := exists_of_mem_toDigits hb h
  have hall : ∀ i : Fin 16, '0'.toNat ≤ i.1.digitChar.toNat ∧
      i.1.digitChar.toNat ≤ 'f'.toNat := by decide
  exact hall ⟨k, by omega⟩

end Digits

def shortEscapes : List (Char × Char) :=
  [('\x00', '0'), ('\t', 't'), ('\r', 'r'), ('\n', 'n'), ('"', '"'), ('\\', '\\')]

theorem le_of_isPrintable {c : Char} (h : isPrintable c = true) : ' '.toNat ≤ c.toNat := by
  by_contra hc
  have hlt : c.toNat ≤ 0x1f := Nat.lt_succ_iff.1 (Nat.not_le.1 hc)
  have hin : inRanges unprintable c.toNat = true :=
    List.any_eq_true.2 ⟨(0x0, 0x1f), List.mem_cons_self, by simpa using hlt⟩
  rw [isPrintable, hin] at h
  cases h

/-- A character is escaped by a letter or by its code point, or it stands for itself. -/
theorem escapeChar_cases (c : Char) :
    (∃ l, (c, l) ∈ shortEscapes ∧ escapeChar c = ['\\', l]) ∨ escapeChar c = codePointEscape c ∨
      (c ≠ '\\' ∧ ' '.toNat ≤ c.toNat ∧ escapeChar c = [c]) := by
  by_cases hshort : ∃ l, (c, l) ∈ shortEscapes
  · obtain ⟨l, hl⟩ := hshort
    refine .inl ⟨l, hl, ?_⟩
    simp only [shortEscapes, List.mem_cons, Prod.mk.injEq, List.not_mem_nil, or_false] at hl
    obtain ⟨rfl, rfl⟩ | ⟨rfl, rfl⟩ | ⟨rfl, rfl⟩ | ⟨rfl, rfl⟩ | ⟨rfl, rfl⟩ | ⟨rfl, rfl⟩ := hl <;> rfl
  · have hne : ∀ d l, (d, l) ∈ shortEscapes → c ≠ d := fun d l hd he ↦ hshort ⟨l, he ▸ hd⟩
    have h₀ : c ≠ '\x00' := hne _ '0' (by decide)
    have h₁ : c ≠ '\t' := hne _ 't' (by decide)
    have h₂ : c ≠ '\r' := hne _ 'r' (by decide)
    have h₃ : c ≠ '\n' := hne _ 'n' (by decide)
    have h₄ : c ≠ '"' := hne _ '"' (by decide)
    have h₅ : c ≠ '\\' := hne _ '\\' (by decide)
    simp only [escapeChar, if_neg h₀, if_neg h₁, if_neg h₂, if_neg h₃, if_neg h₄, if_neg h₅]
    split
    · exact .inr (.inl rfl)
    · next h =>
      simp only [Bool.or_eq_true, Bool.not_eq_true', not_or, Bool.not_eq_false] at h
      exact .inr (.inr ⟨h₅, le_of_isPrintable h.2, rfl⟩)

theorem le_of_mem_escapeChar {c d : Char} (h : d ∈ escapeChar c) : ' '.toNat ≤ d.toNat := by
  obtain ⟨l, hl, hc⟩ | hc | ⟨-, hle, hc⟩ := escapeChar_cases c
  · have hall : ∀ e ∈ shortEscapes, ' '.toNat ≤ e.2.toNat := by decide
    rw [hc, List.mem_cons, List.mem_singleton] at h
    obtain rfl | rfl := h
    · decide
    · exact hall _ hl
  · rw [hc, codePointEscape, List.mem_append, List.mem_append] at h
    obtain (h | h) | h := h
    · have hall : ∀ e ∈ ['\\', 'u', '\x7b'], ' '.toNat ≤ e.toNat := by simp
      exact hall _ h
    · exact Nat.le_trans (by decide) (bounds_of_mem_toDigits (by decide) (by decide) h).1
    · rw [List.mem_singleton] at h
      rw [h]
      decide
  · rw [hc, List.mem_singleton] at h
    rw [h]
    exact hle

theorem shortEscapes_inj {c d l : Char} (hc : (c, l) ∈ shortEscapes) (hd : (d, l) ∈ shortEscapes) :
    c = d := by
  have hall : ∀ e ∈ shortEscapes, ∀ e' ∈ shortEscapes, e.2 = e'.2 → e.1 = e'.1 := by decide
  exact hall _ hc _ hd rfl

theorem codePointEscape_append_inj {c d : Char} {x y : List Char}
    (h : codePointEscape c ++ x = codePointEscape d ++ y) : c = d ∧ x = y := by
  have hbrace (n : Nat) : '\x7d' ∉ hexDigits n := fun hn ↦
    absurd (bounds_of_mem_toDigits (by decide) (by decide) hn).2 (by decide)
  simp only [codePointEscape, List.append_assoc, List.cons_append, List.nil_append,
    List.cons.injEq, true_and] at h
  have hdigits : (hexDigits c.toNat ++ '\x7d' :: x).splitOn '\x7d' =
      hexDigits c.toNat :: x.splitOn '\x7d' :=
    List.splitOn_append_cons_self_of_not_mem (hbrace c.toNat) x
  rw [h, List.splitOn_append_cons_self_of_not_mem (hbrace d.toNat), List.cons.injEq] at hdigits
  rw [hdigits.1, List.append_cancel_left_eq, List.cons.injEq] at h
  exact ⟨Char.toNat_inj.1 (toDigits_inj (by decide) (by decide) hdigits.1.symm), h.2⟩

/-- Escapes can be told apart from the left, whatever follows them. -/
theorem escapeChar_append_inj {c d : Char} {x y : List Char}
    (h : escapeChar c ++ x = escapeChar d ++ y) : c = d ∧ x = y := by
  have hu : ∀ e ∈ shortEscapes, e.2 ≠ 'u' := by decide
  obtain ⟨l, hl, hc⟩ | hc | ⟨hc', -, hc⟩ := escapeChar_cases c <;>
    obtain ⟨m, hm, hd⟩ | hd | ⟨hd', -, hd⟩ := escapeChar_cases d <;>
      rw [hc, hd] at h
  · obtain ⟨rfl, rfl⟩ : l = m ∧ x = y := by simpa using h
    exact ⟨shortEscapes_inj hl hm, rfl⟩
  · exact absurd (List.cons.inj (List.cons.inj h).2).1 (hu _ hl)
  · exact absurd (List.cons.inj h).1.symm hd'
  · exact absurd (List.cons.inj (List.cons.inj h).2).1.symm (hu _ hm)
  · exact codePointEscape_append_inj h
  · exact absurd (List.cons.inj h).1.symm hd'
  · exact absurd (List.cons.inj h).1 hc'
  · exact absurd (List.cons.inj h).1 hc'
  · simpa using h

/-- No control character stands in quoted text. -/
theorem le_of_mem_quote {s : String} {c : Char} (h : c ∈ (quote s).toList) :
    ' '.toNat ≤ c.toNat := by
  rw [quote, String.toList_ofList, quoteChars, List.mem_append, List.mem_cons,
    List.mem_flatMap, List.mem_singleton] at h
  obtain (rfl | ⟨d, -, hd⟩) | rfl := h
  · decide
  · exact le_of_mem_escapeChar hd
  · decide

theorem escapeChar_ne_nil (c : Char) : escapeChar c ≠ [] := by
  obtain ⟨l, -, hc⟩ | hc | ⟨-, -, hc⟩ := escapeChar_cases c <;> rw [hc]
  · exact List.cons_ne_nil _ _
  · exact List.cons_ne_nil _ _
  · exact List.cons_ne_nil _ _

theorem flatMap_escapeChar_inj {cs ds : List Char}
    (h : cs.flatMap escapeChar = ds.flatMap escapeChar) : cs = ds := by
  induction cs generalizing ds with
  | nil =>
    cases ds with
    | nil => rfl
    | cons d ds => exact absurd (List.append_eq_nil_iff.1 h.symm).1 (escapeChar_ne_nil d)
  | cons c cs ih =>
    cases ds with
    | nil => exact absurd (List.append_eq_nil_iff.1 h).1 (escapeChar_ne_nil c)
    | cons d ds =>
      obtain ⟨rfl, hrest⟩ := escapeChar_append_inj h
      rw [ih hrest]

theorem quote_injective : Function.Injective quote := by
  intro s t h
  have hquoted : quoteChars s.toList = quoteChars t.toList := String.ofList_injective h
  have hescaped := List.append_cancel_right (List.cons.inj hquoted).2
  exact String.toList_inj.1 (flatMap_escapeChar_inj hescaped)

def All (P : Char → Prop) (s : String) : Prop := ∀ c ∈ s.toList, P c

instance {P : Char → Prop} [DecidablePred P] (s : String) : Decidable (All P s) :=
  List.decidableBAll P s.toList

/-- Text without control characters. -/
abbrev Clean : String → Prop := All fun c ↦ ' '.toNat ≤ c.toNat

section All

variable {P Q : Char → Prop} {s t : String}

theorem All.mono (hP : ∀ c, P c → Q c) (h : All P s) : All Q s := fun c hc ↦ hP c (h c hc)

theorem all_append : All P (s ++ t) ↔ All P s ∧ All P t := by
  simp only [All, String.toList_append, List.forall_mem_append]

theorem All.append (hs : All P s) (ht : All P t) : All P (s ++ t) := all_append.2 ⟨hs, ht⟩

theorem all_intercalate {ss : List String} (hs : All P s) (h : ∀ t ∈ ss, All P t) :
    All P (s.intercalate ss) := by
  induction ss with
  | nil => exact fun c hc ↦ absurd hc List.not_mem_nil
  | cons t ss ih =>
    obtain ⟨ht, hss⟩ := List.forall_mem_cons.1 h
    cases ss with
    | nil => rwa [String.intercalate_singleton]
    | cons u ss => exact String.intercalate_cons_cons ▸ (ht.append hs).append (ih hss)

theorem clean_quote (s : String) : Clean (quote s) := fun _ ↦ le_of_mem_quote

theorem clean_digits {b n : Nat} (hb : 1 < b) (hb' : b ≤ 16) :
    Clean (String.ofList (Nat.toDigits b n)) := by
  intro c hc
  rw [String.toList_ofList] at hc
  exact Nat.le_trans (by decide) (bounds_of_mem_toDigits hb hb' hc).1

theorem clean_natRepr (n : Nat) : Clean n.repr :=
  Nat.repr_eq_ofList_toDigits ▸ clean_digits (by decide) (by decide)

theorem clean_intRepr (n : Int) : Clean n.repr := by
  cases n with
  | ofNat n => exact clean_natRepr n
  | negSucc n => exact All.append (by decide) (clean_natRepr _)

theorem clean_hex (width n : Nat) : Clean (hex width n) := by
  have hzeros (k : Nat) : Clean (String.ofList (List.replicate k '0')) := by
    intro c hc
    rw [String.toList_ofList] at hc
    rw [List.eq_of_mem_replicate hc]
    decide
  rw [hex, String.ofList_append]
  exact All.append (by decide) ((hzeros _).append (clean_digits (by decide) (by decide)))

end All

/-- Text that starts at the left, not with a space. -/
def Flush (s : String) : Prop := s.toList.head?.any (· ≠ ' ') = true

instance (s : String) : Decidable (Flush s) :=
  inferInstanceAs (Decidable (s.toList.head?.any (· ≠ ' ') = true))

theorem flush_iff {s : String} : Flush s ↔ ∃ c cs, s.toList = c :: cs ∧ c ≠ ' ' := by
  rw [Flush]
  cases s.toList <;> simp

theorem Flush.append {s : String} (h : Flush s) (t : String) : Flush (s ++ t) := by
  obtain ⟨c, cs, hs, hc⟩ := flush_iff.1 h
  exact flush_iff.2 ⟨c, cs ++ t.toList, by rw [String.toList_append, hs, List.cons_append], hc⟩

theorem takeWhile_indented {s : String} (h : Flush s) (k : Nat) :
    (List.replicate k ' ' ++ s.toList).takeWhile (· = ' ') = List.replicate k ' ' := by
  obtain ⟨c, cs, hs, hc⟩ := flush_iff.1 h
  rw [hs, List.takeWhile_append_of_pos (by simp), List.takeWhile_cons_of_neg (by simpa using hc),
    List.append_nil]

theorem dropWhile_indented {s : String} (h : Flush s) (k : Nat) :
    (List.replicate k ' ' ++ s.toList).dropWhile (· = ' ') = s.toList := by
  obtain ⟨c, cs, hs, hc⟩ := flush_iff.1 h
  rw [hs, List.dropWhile_append_of_pos (by simp), List.dropWhile_cons_of_neg (by simpa using hc)]

theorem splitOn_lines {ls : List (List Char)} (h : ∀ l ∈ ls, '\n' ∉ l) :
    (ls.flatMap (· ++ ['\n'])).splitOn '\n' = ls ++ [[]] := by
  induction ls with
  | nil => rfl
  | cons l ls ih =>
    obtain ⟨hl, hls⟩ := List.forall_mem_cons.1 h
    rw [List.flatMap_cons, List.append_assoc, List.singleton_append,
      List.splitOn_append_cons_self_of_not_mem hl, ih hls, List.cons_append]

end TreeBytecode.Text
