import Waivm.Lib.CString

/-!
# Formatted numbers

The conversions `%u`, `%lld` and `%0Nx` of `fprintf`, as the C standard gives them.

Results:

1. `literal_signed`: what `%lld` prints of a number is an integer literal of that value,
   so `strtoll` with base 0 reads it back.
2. `unsigned_injective`: different numbers are printed differently.
-/

namespace Printf

open CString

/-- `%u`, `%llu` and `%zu` in base 10, and `%x` and `%llx` in base 16. -/
def unsigned (base n : Nat) : Text :=
  Nat.toDigits base n

/-- `%d` and `%lld` -/
def signed (n : Int) : Text :=
  if n < 0 then '-' :: unsigned 10 n.natAbs else unsigned 10 n.natAbs

/-- A field of at least `width` characters, filled up with zeros on the left. -/
def zeroFilled (width : Nat) (digits : Text) : Text :=
  List.replicate (width - digits.length) '0' ++ digits

/-! ## Digits -/

theorem isdigit_eq (c : Char) : isdigit c = c.isDigit := by
  rw [Bool.eq_iff_iff]
  simp only [isdigit, between, Char.isDigit, Bool.and_eq_true, decide_eq_true_eq, ge_iff_le,
    UInt32.le_iff_toNat_le]
  exact Iff.rfl

theorem isdigit_of_mem_unsigned {n : Nat} {c : Char} (h : c ∈ unsigned 10 n) : isdigit c = true := by
  rw [isdigit_eq]
  exact Nat.isDigit_of_mem_toDigits (by decide) (by decide) h

theorem isdigit_of_mem_zeroFilled {width n : Nat} {c : Char}
    (h : c ∈ zeroFilled width (unsigned 10 n)) : isdigit c = true := by
  rcases List.mem_append.mp h with hzero | hdigit
  · rw [List.eq_of_mem_replicate hzero]
    decide
  · exact isdigit_of_mem_unsigned hdigit

theorem digitsValue_eq {digits : Text} (h : ∀ c ∈ digits, isdigit c = true) (value : Nat) :
    digits.foldl (fun value c => value * 10 + digitValue c) value =
      Nat.ofDigitChars 10 digits value := by
  induction digits generalizing value with
  | nil => rfl
  | cons c rest ih =>
    rw [List.forall_mem_cons] at h
    rw [List.foldl_cons, Nat.ofDigitChars_cons, ih h.2, digitValue, if_pos h.1, Nat.mul_comm]

/-- The digits of a number have its value. -/
theorem digitsValue_unsigned (n : Nat) : digitsValue 10 (unsigned 10 n) = n :=
  (digitsValue_eq (fun _ => isdigit_of_mem_unsigned) 0).trans Nat.ofDigitChars_ten_toDigits

theorem unsigned_injective {m n : Nat} (h : unsigned 10 m = unsigned 10 n) : m = n := by
  rw [← digitsValue_unsigned m, h, digitsValue_unsigned]

/-- A number other than zero is printed without a leading zero. -/
theorem head_unsigned {n : Nat} (h : n ≠ 0) :
    ∃ c rest, unsigned 10 n = c :: rest ∧ between '1' '9' c = true := by
  have hdigit : ∀ d < 10, d ≠ 0 → between '1' '9' (Nat.digitChar d) = true := by decide
  induction n using Nat.strongRecOn with
  | ind n ih =>
    rcases Nat.lt_or_ge n 10 with hlt | hge
    · exact ⟨Nat.digitChar n, [], Nat.toDigits_of_lt_base hlt, hdigit n hlt h⟩
    · obtain ⟨c, rest, hdigits, hc⟩ := ih (n / 10) (Nat.div_lt_self (by omega) (by decide)) (by omega)
      refine ⟨c, rest ++ [Nat.digitChar (n % 10)], ?_, hc⟩
      rw [unsigned, Nat.toDigits_of_base_le (by decide) hge]
      exact congrArg (· ++ _) hdigits

theorem numeral_unsigned (n : Nat) : Numeral (unsigned 10 n) n := by
  by_cases h : n = 0
  · rw [h]
    exact .octal nofun
  · obtain ⟨c, rest, hdigits, hc⟩ := head_unsigned h
    have hvalue := digitsValue_unsigned n
    have hall : ∀ d ∈ c :: rest, isdigit d = true := by
      rw [← hdigits]
      exact fun d => isdigit_of_mem_unsigned
    rw [hdigits] at hvalue ⊢
    rw [List.forall_mem_cons] at hall
    have hnumeral := Numeral.decimal hc hall.2
    rwa [hvalue] at hnumeral

/-- What `%lld` prints is a literal of the same value. -/
theorem literal_signed (n : Int) : Literal (signed n) n := by
  unfold signed
  split
  · next hneg =>
    have h := Literal.minus (numeral_unsigned n.natAbs)
    rwa [show -(n.natAbs : Int) = n by omega] at h
  · next hpos =>
    have h := Literal.bare (numeral_unsigned n.natAbs)
    rwa [show (n.natAbs : Int) = n by omega] at h

theorem signed_of_nonneg {n : Int} (h : 0 ≤ n) : signed n = unsigned 10 n.toNat := by
  rw [signed, if_neg (Int.not_lt.mpr h), show n.natAbs = n.toNat by omega]

/-- A 64-bit number takes at most 19 digits and a sign. -/
theorem length_signed_le {n : Int} (h : n.natAbs ≤ 2 ^ 63) : (signed n).length ≤ 20 := by
  have hdigits : (unsigned 10 n.natAbs).length ≤ 19 :=
    (Nat.length_toDigits_le_iff (by decide) (by decide)).mpr (Nat.lt_of_le_of_lt h (by decide))
  unfold signed
  split
  · exact Nat.succ_le_succ hdigits
  · exact Nat.le_succ_of_le hdigits

end Printf
