import Mathlib.Tactic.Ring
import Mathlib.Tactic.Positivity

/-! # Decimal numerals

The value of a text of decimal digits. `decimal_lt`: it is below the power of ten of the text's
length, and `decimal_dropWhile_zero`: zeros at the front add nothing. -/

namespace XChainIndexer.Lib.Digits

/-- One digit or more, and nothing else. -/
def isDigits (t : List Char) : Bool := decide (t ≠ []) && t.all Char.isDigit

/-- The number that a text of digits denotes. -/
def decimal (t : List Char) : ℕ := t.foldl (fun n c => 10 * n + (c.toNat - 48)) 0

theorem foldl_decimal (t : List Char) (n : ℕ) :
    t.foldl (fun n c => 10 * n + (c.toNat - 48)) n = n * 10 ^ t.length + decimal t := by
  induction t generalizing n with
  | nil => simp [decimal]
  | cons c t ih =>
    have hc : decimal (c :: t) = (10 * 0 + (c.toNat - 48)) * 10 ^ t.length + decimal t := ih _
    rw [List.foldl_cons, ih, hc, List.length_cons]
    ring

theorem decimal_cons (c : Char) (t : List Char) :
    decimal (c :: t) = (c.toNat - 48) * 10 ^ t.length + decimal t := by
  rw [decimal, List.foldl_cons, foldl_decimal]
  simp

theorem toNat_sub_le_of_isDigit {c : Char} (h : c.isDigit) : c.toNat - 48 ≤ 9 := by
  simp only [Char.isDigit, Bool.and_eq_true, decide_eq_true_eq] at h
  have h2 : c.toNat ≤ 57 := h.2
  omega

theorem decimal_lt {t : List Char} (h : t.all Char.isDigit) : decimal t < 10 ^ t.length := by
  induction t with
  | nil => simp [decimal]
  | cons c t ih =>
    rw [List.all_cons, Bool.and_eq_true] at h
    have hc := toNat_sub_le_of_isDigit h.1
    have ht := ih h.2
    rw [decimal_cons]
    calc (c.toNat - 48) * 10 ^ t.length + decimal t
        < (c.toNat - 48) * 10 ^ t.length + 10 ^ t.length := by omega
      _ = (c.toNat - 48 + 1) * 10 ^ t.length := by ring
      _ ≤ 10 * 10 ^ t.length := Nat.mul_le_mul_right _ (by omega)
      _ = 10 ^ t.length * 10 := by ring

theorem decimal_dropWhile_zero (t : List Char) : decimal (t.dropWhile (· = '0')) = decimal t := by
  induction t with
  | nil => rfl
  | cons c t ih =>
    rw [List.dropWhile_cons]
    split_ifs with h
    · rw [ih, decimal_cons, of_decide_eq_true h]
      simp
    · rfl

end XChainIndexer.Lib.Digits
