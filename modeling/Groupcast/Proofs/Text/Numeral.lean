import Groupcast.Text.Numeral
import Mathlib.Data.List.Basic

/-!
# What numerals stand for

A numeral is a row of decimal digits, with a plus sign in front or without one (`Stands`); leading
zeros do not matter.  A numeral is read exactly if it stands for a number within the bound, and then
as that number (`read?_eq_some_iff`), so that a word of a file is read as a number of so many bits
exactly if it stands for one.

The digits that a number is written with, in any base that has digits, stand for it
(`value_toDigits`, `stands_toDigits`).
-/

namespace Groupcast.Numeral

/-- A word of digits, with a plus sign or without one, and the number that it stands for. -/
def Stands (word : List Char) (n : Nat) : Prop :=
  ∃ digits, (word = digits ∨ word = '+' :: digits) ∧ digits ≠ [] ∧
    (∀ c ∈ digits, c.isDigit = true) ∧ Nat.ofDigitChars 10 digits 0 = n

variable {word digits : List Char} {c : Char} {b n m limit : Nat}

/-! ## Digits -/

theorem isDigit_iff : c.isDigit = true ↔ '0' ≤ c ∧ c ≤ '9' := by
  rw [Char.isDigit, Bool.and_eq_true, decide_eq_true_eq, decide_eq_true_eq]
  rfl

theorem digitValue?_of_isDigit (h : c.isDigit = true) :
    digitValue? c = some (c.toNat - '0'.toNat) := if_pos (isDigit_iff.mp h)

/-- The digits in base ten are those whose value is less than ten. -/
theorem isDigit_ten_iff : isDigit 10 c = true ↔ c.isDigit = true := by
  by_cases h : c.isDigit = true
  · have hle : c.toNat ≤ '9'.toNat := UInt32.le_iff_toNat_le.mp (isDigit_iff.mp h).2
    rw [isDigit, digitValue?_of_isDigit h]
    refine iff_of_true (decide_eq_true ?_) h
    exact Nat.lt_succ_of_le (Nat.sub_le_sub_right hle _)
  · refine iff_of_false ?_ h
    rw [isDigit, digitValue?, if_neg (isDigit_iff.not.mp h)]
    split_ifs <;> simp

theorem value_append (b : Nat) (digits : List Char) (c : Char) :
    value b (digits ++ [c]) = b * value b digits + (digitValue? c).getD 0 := List.foldl_append

theorem value_ten (h : ∀ c ∈ digits, c.isDigit = true) :
    value 10 digits = Nat.ofDigitChars 10 digits 0 :=
  List.foldl_ext _ _ _ fun n c hc => by rw [digitValue?_of_isDigit (h c hc), Option.getD_some]

theorem digitValue?_digitChar (h : n < 16) : digitValue? n.digitChar = some n := by
  decide +revert

theorem isDigit_digitChar (hb : b ≤ 16) (h : n < b) : isDigit b n.digitChar = true := by
  rw [isDigit, digitValue?_digitChar (Nat.lt_of_lt_of_le h hb)]
  exact decide_eq_true h

/-- The digits of a number stand for it. -/
theorem value_toDigits (hb : 1 < b) (hb' : b ≤ 16) (n : Nat) : value b (Nat.toDigits b n) = n := by
  induction n using Nat.strongRecOn with
  | ind n ih =>
    rw [Nat.toDigits_eq_if hb]
    split
    · rename_i h
      rw [value, List.foldl_cons, List.foldl_nil, digitValue?_digitChar (by omega)]
      simp
    · rename_i h
      have hlt := Nat.mod_lt n (Nat.lt_of_succ_lt hb)
      rw [value_append, ih _ (Nat.div_lt_self (by omega) hb), digitValue?_digitChar (by omega)]
      exact Nat.div_add_mod n b

theorem isDigit_of_mem_toDigits (hb : 1 < b) (hb' : b ≤ 16) (n : Nat) :
    ∀ c ∈ Nat.toDigits b n, isDigit b c = true := by
  induction n using Nat.strongRecOn with
  | ind n ih =>
    rw [Nat.toDigits_eq_if hb]
    split
    · rename_i h
      exact List.forall_mem_singleton.mpr (isDigit_digitChar hb' h)
    · exact List.forall_mem_append.mpr ⟨ih _ (Nat.div_lt_self (by omega) hb),
        List.forall_mem_singleton.mpr
          (isDigit_digitChar hb' (Nat.mod_lt n (Nat.lt_of_succ_lt hb)))⟩

/-- Only zero is written with a zero in front. -/
theorem head?_toDigits (hb : 1 < b) (hb' : b ≤ 16) {n : Nat} (hn : 0 < n) :
    (Nat.toDigits b n).head? ≠ some '0' := by
  induction n using Nat.strongRecOn with
  | ind n ih =>
    rw [Nat.toDigits_eq_if hb]
    split
    · rename_i h
      intro hzero
      have hread := digitValue?_digitChar (Nat.lt_of_lt_of_le h hb')
      rw [Option.some.inj hzero] at hread
      exact Nat.ne_of_lt hn (Option.some.inj hread)
    · rename_i h
      rw [List.head?_append_of_ne_nil _ Nat.toDigits_ne_nil]
      exact ih _ (Nat.div_lt_self hn hb) (Nat.div_pos (Nat.le_of_not_lt h) (by omega))

/-! ## Numerals -/

theorem stands_toDigits (n : Nat) : Stands (Nat.toDigits 10 n) n :=
  ⟨_, Or.inl rfl, Nat.toDigits_ne_nil,
    fun _ hc => Nat.isDigit_of_mem_toDigits (by decide) (by decide) hc,
    Nat.ofDigitChars_ten_toDigits⟩

/-- The text of a number stands for it. -/
theorem stands_repr (n : Nat) : Stands n.repr.toList n := by
  rw [Nat.toList_repr]
  exact stands_toDigits n

/-- What remains of a numeral without its sign are its digits. -/
theorem stands_iff : Stands word n ↔ unsigned word ≠ [] ∧
    (∀ c ∈ unsigned word, c.isDigit = true) ∧ Nat.ofDigitChars 10 (unsigned word) 0 = n := by
  constructor
  · rintro ⟨digits, rfl | rfl, hne, hdigits, hn⟩
    · have hunsigned : unsigned word = word := by
        unfold unsigned
        split
        · exact absurd (hdigits _ List.mem_cons_self) (by decide)
        · rfl
      rw [hunsigned]
      exact ⟨hne, hdigits, hn⟩
    · exact ⟨hne, hdigits, hn⟩
  · rintro ⟨hne, hdigits, hn⟩
    refine ⟨unsigned word, ?_, hne, hdigits, hn⟩
    unfold unsigned
    split
    · exact Or.inr rfl
    · exact Or.inl rfl

/-- **A word is read as the number that it stands for**, if that is within the bound. -/
theorem read?_eq_some_iff : read? limit word = some n ↔ Stands word n ∧ n ≤ limit := by
  have hall : (unsigned word).all (isDigit 10) = true ↔
      ∀ c ∈ unsigned word, c.isDigit = true := by
    rw [List.all_eq_true]
    exact forall₂_congr fun c _ => isDigit_ten_iff
  rw [read?, stands_iff]
  simp only [hall]
  by_cases h : unsigned word ≠ [] ∧ ∀ c ∈ unsigned word, c.isDigit = true
  · rw [if_pos h, valueUpTo?_eq (by decide), value_ten h.2]
    by_cases hle : Nat.ofDigitChars 10 (unsigned word) 0 ≤ limit
    · rw [if_pos hle]
      constructor
      · rintro ⟨⟩
        exact ⟨⟨h.1, h.2, rfl⟩, hle⟩
      · rintro ⟨⟨-, -, rfl⟩, -⟩
        rfl
    · rw [if_neg hle]
      refine iff_of_false nofun ?_
      rintro ⟨⟨-, -, rfl⟩, hle'⟩
      exact hle hle'
  · rw [if_neg h]
    exact iff_of_false nofun fun hstands => h ⟨hstands.1.1, hstands.1.2.1⟩

theorem readCount?_eq_some_iff :
    readCount? word = some n ↔ Stands word n ∧ n < UInt64.size := by
  rw [readCount?, read?_eq_some_iff]
  exact and_congr_right fun _ => Nat.le_sub_one_iff_lt (by decide)

theorem readWord?_eq_some_iff {w : UInt32} :
    readWord? word = some w ↔ Stands word w.toNat := by
  rw [readWord?, Option.map_eq_some_iff]
  constructor
  · rintro ⟨n, hn, rfl⟩
    obtain ⟨hstands, hle⟩ := read?_eq_some_iff.mp hn
    rwa [UInt32.toNat_ofNat_of_lt' ((Nat.le_sub_one_iff_lt (by decide)).mp hle)]
  · intro h
    exact ⟨w.toNat, read?_eq_some_iff.mpr ⟨h, Nat.le_sub_one_of_lt w.toNat_lt⟩,
      UInt32.ofNat_toNat⟩

theorem readPort?_eq_some_iff {p : UInt16} :
    readPort? word = some p ↔ Stands word p.toNat := by
  rw [readPort?, Option.map_eq_some_iff]
  constructor
  · rintro ⟨n, hn, rfl⟩
    obtain ⟨hstands, hle⟩ := read?_eq_some_iff.mp hn
    rwa [UInt16.toNat_ofNat_of_lt' ((Nat.le_sub_one_iff_lt (by decide)).mp hle)]
  · intro h
    exact ⟨p.toNat, read?_eq_some_iff.mpr ⟨h, Nat.le_sub_one_of_lt p.toNat_lt⟩,
      UInt16.ofNat_toNat⟩

end Groupcast.Numeral
