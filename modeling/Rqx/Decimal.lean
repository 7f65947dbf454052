import Mathlib.Data.List.Induction
import Mathlib.Data.Nat.Notation

/-! Numbers written in decimal, and texts of digits that are not how their number is written. -/
namespace Decimal

/-- The number that digits stand for. -/
def value (digits : List Char) : ℕ := digits.foldl (fun n c => 10*n+(c.toNat-48)) 0

theorem value_concat (digits : List Char) (c : Char) :
    value (digits++[c]) = 10*value digits+(c.toNat-48) := by
  simp [value]

@[simp] theorem value_toDigits (n : ℕ) : value (Nat.toDigits 10 n) = n := by
  have hvalue : value (Nat.toDigits 10 n) = Nat.ofDigitChars 10 (Nat.toDigits 10 n) 0 := rfl
  rw [hvalue,Nat.ofDigitChars_ten_toDigits]

theorem digitChar_of_isDigit {c : Char} (h : c.isDigit) :
    c.toNat-48 < 10 ∧ (c.toNat-48).digitChar = c := by
  have hbounds : 48 ≤ c.toNat ∧ c.toNat ≤ 57 := by
    simp only [Char.isDigit,Bool.and_eq_true,decide_eq_true_eq,ge_iff_le,
      UInt32.le_iff_toNat_le] at h
    have hval : c.toNat = c.val.toNat := rfl
    have hlimits : '0'.val.toNat = 48 ∧ '9'.val.toNat = 57 := by decide
    omega
  have hall : ∀ n < 58, 48 ≤ n → (n-48).digitChar = Char.ofNat n := by decide
  refine ⟨by omega,?_⟩
  rw [hall c.toNat (by omega) hbounds.1,Char.ofNat_toNat]

/-- Digits that are not how their number is written have zeros in front. -/
theorem eq_or_shorter {digits : List Char} (hne : digits ≠ []) (h : ∀ c ∈ digits, c.isDigit) :
    Nat.toDigits 10 (value digits) = digits ∨
      (Nat.toDigits 10 (value digits)).length < digits.length := by
  induction digits using List.reverseRecOn with
  | nil => exact absurd rfl hne
  | append_singleton digits c ih =>
    obtain ⟨hc,hchar⟩ := digitChar_of_isDigit (h c (by simp))
    have hlast : Nat.toDigits 10 (c.toNat-48) = [c] := by rw [Nat.toDigits_of_lt_base hc,hchar]
    rw [value_concat]
    by_cases hzero : value digits = 0
    · rw [hzero,Nat.mul_zero,Nat.zero_add,hlast]
      cases digits with
      | nil => exact .inl rfl
      | cons d digits => right; simp
    · have hdigits : digits ≠ [] := by
        rintro rfl
        exact hzero rfl
      rw [← Nat.toDigits_append_toDigits (by decide) (by omega) hc,hlast]
      rcases ih hdigits fun d hd => h d (by simp [hd]) with heq | hlt
      · rw [heq]
        exact .inl rfl
      · right
        simpa using hlt

end Decimal
