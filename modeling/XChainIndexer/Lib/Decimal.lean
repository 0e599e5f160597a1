import Mathlib.Data.Int.Log
import Mathlib.Tactic

/-! # Decimal rounding of rationals

A decimal number type is modelled by the rationals it denotes, with its rounding as a function.
`roundAt u x` is the multiple of the unit `u` nearest to `x`, a half going away from zero;
`toFixed d` rounds at `10⁻ᵈ` and `toSignificant p` at the unit of the `p`-th significant digit.

`OnGrid d x` says that `x` has at most `d` decimals. On such numbers with few enough digits both
roundings are the identity (`toFixed_of_onGrid`, `toSignificant_of_onGrid`); elsewhere they are off
by at most half a unit (`abs_toFixed_sub_le`, `abs_toSignificant_sub_le`). -/

namespace XChainIndexer.Lib.Decimal

/-- The integer nearest to `x`, a half going away from zero. -/
def roundHalfAway (x : ℚ) : ℤ := if 0 ≤ x then ⌊x + 1 / 2⌋ else -⌊-x + 1 / 2⌋

/-- The multiple of `u` nearest to `x`. -/
def roundAt (u x : ℚ) : ℚ := roundHalfAway (x / u) * u

/-- `x` rounded to `d` decimal places. -/
def toFixed (d : ℕ) (x : ℚ) : ℚ := roundAt (1 / 10 ^ d) x

/-- `x` rounded to `p` significant digits. -/
def toSignificant (p : ℕ) (x : ℚ) : ℚ :=
  if x = 0 then 0 else roundAt ((10 : ℚ) ^ (Int.log 10 |x| + 1 - p)) x

/-- `x` has at most `d` decimals. -/
def OnGrid (d : ℕ) (x : ℚ) : Prop := x.den ∣ 10 ^ d

instance (d : ℕ) (x : ℚ) : Decidable (OnGrid d x) := by
  unfold OnGrid; infer_instance

/-! ### The grid -/

variable {d : ℕ} {x : ℚ}

theorem onGrid_iff : OnGrid d x ↔ ∃ k : ℤ, x = k / 10 ^ d := by
  have h10 : (10 : ℚ) ^ d ≠ 0 := by positivity
  constructor
  · rintro ⟨c, hc⟩
    refine ⟨x.num * c, ?_⟩
    have hcq : (10 : ℚ) ^ d = x.den * c := by exact_mod_cast hc
    have hc0 : (c : ℚ) ≠ 0 := fun h => h10 (by rw [hcq, h, mul_zero])
    rw [hcq]
    push_cast
    rw [mul_div_mul_right _ _ hc0, Rat.num_div_den]
  · rintro ⟨k, rfl⟩
    have hd := Rat.den_dvd k (10 ^ d)
    exact_mod_cast hd

theorem OnGrid.mono {e : ℕ} (h : OnGrid d x) (hde : d ≤ e) : OnGrid e x :=
  h.trans (pow_dvd_pow 10 hde)

theorem onGrid_zero (d : ℕ) : OnGrid d 0 := onGrid_iff.mpr ⟨0, by simp⟩

theorem OnGrid.neg (h : OnGrid d x) : OnGrid d (-x) := by
  exact h

variable {y : ℚ}

theorem OnGrid.add (hx : OnGrid d x) (hy : OnGrid d y) : OnGrid d (x + y) := by
  obtain ⟨k, rfl⟩ := onGrid_iff.mp hx
  obtain ⟨l, rfl⟩ := onGrid_iff.mp hy
  exact onGrid_iff.mpr ⟨k + l, by push_cast; rw [add_div]⟩

theorem OnGrid.sub (hx : OnGrid d x) (hy : OnGrid d y) : OnGrid d (x - y) := by
  rw [sub_eq_add_neg]
  exact hx.add hy.neg

theorem onGrid_sum {l : List ℚ} (h : ∀ x ∈ l, OnGrid d x) : OnGrid d l.sum := by
  induction l with
  | nil => exact onGrid_zero d
  | cons x l ih =>
    exact (h x (by simp)).add (ih fun y hy => h y (by simp [hy]))

/-- Numbers of the grid that differ by less than a unit. -/
theorem OnGrid.le_of_lt_add (hx : OnGrid d x) (hy : OnGrid d y) (h : x < y + 1 / 10 ^ d) : x ≤ y := by
  obtain ⟨k, rfl⟩ := onGrid_iff.mp hx
  obtain ⟨l, rfl⟩ := onGrid_iff.mp hy
  have hpos : (0 : ℚ) < 10 ^ d := by positivity
  rw [← add_div, div_lt_div_iff_of_pos_right hpos] at h
  have hkl : k < l + 1 := by exact_mod_cast h
  exact div_le_div_of_nonneg_right (by exact_mod_cast Int.lt_add_one_iff.mp hkl) hpos.le

/-! ### Rounding at a unit -/

theorem roundHalfAway_intCast (k : ℤ) : roundHalfAway k = k := by
  unfold roundHalfAway
  have hf : ∀ n : ℤ, ⌊(n : ℚ) + 1 / 2⌋ = n := fun n => by
    rw [Int.floor_eq_iff]
    constructor <;> linarith
  split_ifs with h
  · exact hf k
  · rw [← Int.cast_neg, hf, neg_neg]

theorem abs_roundHalfAway_sub_le (x : ℚ) : |(roundHalfAway x : ℚ) - x| ≤ 1 / 2 := by
  unfold roundHalfAway
  split_ifs with h
  · have h1 := Int.floor_le (x + 1 / 2)
    have h2 := Int.lt_floor_add_one (x + 1 / 2)
    rw [abs_le]
    constructor <;> linarith
  · have h1 := Int.floor_le (-x + 1 / 2)
    have h2 := Int.lt_floor_add_one (-x + 1 / 2)
    push_cast
    rw [abs_le]
    constructor <;> linarith

theorem roundHalfAway_nonneg (h : 0 ≤ x) : 0 ≤ roundHalfAway x := by
  unfold roundHalfAway
  rw [if_pos h]
  exact Int.floor_nonneg.mpr (by linarith)

theorem le_roundHalfAway {k : ℤ} (h : (k : ℚ) ≤ x) : k ≤ roundHalfAway x := by
  unfold roundHalfAway
  split_ifs with hx
  · exact Int.le_floor.mpr (by linarith)
  · have hlt : ⌊-x + 1 / 2⌋ < -k + 1 := by
      rw [Int.floor_lt]
      push_cast
      linarith
    omega

theorem le_roundHalfAway_iff {k : ℤ} (hk : 0 < k) : k ≤ roundHalfAway x ↔ (k : ℚ) - 1 / 2 ≤ x := by
  have hk1 : (1 : ℚ) ≤ k := by exact_mod_cast hk
  unfold roundHalfAway
  split_ifs with hx
  · rw [Int.le_floor, sub_le_iff_le_add]
  · have h0 : 0 ≤ ⌊-x + 1 / 2⌋ := Int.floor_nonneg.mpr (by linarith)
    constructor
    · intro h
      omega
    · intro h
      linarith

theorem roundHalfAway_neg (x : ℚ) : roundHalfAway (-x) = -roundHalfAway x := by
  unfold roundHalfAway
  rcases lt_trichotomy x 0 with h | rfl | h
  · rw [if_pos (by linarith), if_neg (by linarith), neg_neg]
  · norm_num
  · rw [if_neg (by linarith), if_pos h.le, neg_neg]

section unit

variable {u x : ℚ} (hu : 0 < u)
include hu

theorem roundAt_intCast_mul (k : ℤ) : roundAt u (k * u) = k * u := by
  unfold roundAt
  rw [mul_div_cancel_right₀ _ hu.ne', roundHalfAway_intCast]

theorem abs_roundAt_sub_le (x : ℚ) : |roundAt u x - x| ≤ u / 2 := by
  have h := abs_roundHalfAway_sub_le (x / u)
  have heq : roundAt u x - x = (roundHalfAway (x / u) - x / u) * u := by
    rw [sub_mul, div_mul_cancel₀ x hu.ne']
    rfl
  rw [heq, abs_mul, abs_of_pos hu]
  calc _ ≤ 1 / 2 * u := mul_le_mul_of_nonneg_right h hu.le
    _ = u / 2 := by ring

/-- Rounding does not pass a multiple of the unit. -/
theorem le_roundAt {k : ℤ} (h : k * u ≤ x) : k * u ≤ roundAt u x := by
  have hk : k ≤ roundHalfAway (x / u) := le_roundHalfAway ((le_div_iff₀ hu).mpr h)
  exact mul_le_mul_of_nonneg_right (by exact_mod_cast hk) hu.le

theorem roundAt_nonneg (hx : 0 ≤ x) : 0 ≤ roundAt u x := by
  have h : (0 : ℚ) ≤ roundHalfAway (x / u) := by
    exact_mod_cast roundHalfAway_nonneg (div_nonneg hx hu.le)
  exact mul_nonneg h hu.le

end unit

/-! ### The two roundings -/

theorem toFixed_of_onGrid (h : OnGrid d x) : toFixed d x = x := by
  obtain ⟨k, rfl⟩ := onGrid_iff.mp h
  have hu : (0 : ℚ) < 1 / 10 ^ d := by positivity
  rw [div_eq_mul_one_div]
  exact roundAt_intCast_mul hu k

theorem abs_toFixed_sub_le (d : ℕ) (x : ℚ) : |toFixed d x - x| ≤ 1 / 10 ^ d / 2 :=
  abs_roundAt_sub_le (by positivity) x

theorem toFixed_nonneg (d : ℕ) (h : 0 ≤ x) : 0 ≤ toFixed d x :=
  roundAt_nonneg (by positivity) h

theorem toFixed_neg (d : ℕ) (x : ℚ) : toFixed d (-x) = -toFixed d x := by
  unfold toFixed roundAt
  rw [neg_div, roundHalfAway_neg]
  push_cast
  ring

/-- Rounding leaves a number of the grid that is added alone. -/
theorem toFixed_add {y : ℚ} (hy : OnGrid d y) (hy0 : 0 ≤ y) (hx : 0 ≤ x) :
    toFixed d (y + x) = y + toFixed d x := by
  obtain ⟨k, rfl⟩ := onGrid_iff.mp hy
  have hpos : (0 : ℚ) < 10 ^ d := by positivity
  have hscaled : 0 ≤ x / (1 / 10 ^ d) := by positivity
  have hsplit : (k / 10 ^ d + x) / (1 / 10 ^ d) = k + x / (1 / 10 ^ d) := by field_simp
  have hk : (0 : ℚ) ≤ k := by simpa [hpos.ne'] using mul_nonneg hy0 hpos.le
  unfold toFixed roundAt roundHalfAway
  rw [hsplit, if_pos (add_nonneg hk hscaled), if_pos hscaled, add_assoc, Int.floor_intCast_add]
  push_cast
  ring

theorem onGrid_toFixed (d : ℕ) (x : ℚ) : OnGrid d (toFixed d x) :=
  onGrid_iff.mpr ⟨roundHalfAway (x / (1 / 10 ^ d)), by unfold toFixed roundAt; ring⟩

variable {p : ℕ}

/-- The unit of the last digit kept divides `10⁻ᵈ`. -/
theorem exists_mul_unit (hx : |x| < 10 ^ p / 10 ^ d) (h0 : x ≠ 0) (h : OnGrid d y) :
    ∃ k : ℤ, y = k * (10 : ℚ) ^ (Int.log 10 |x| + 1 - (p : ℤ)) := by
  obtain ⟨k, hk⟩ := onGrid_iff.mp h
  have hlog : Int.log 10 |x| < (p : ℤ) - d := by
    rw [← Int.lt_zpow_iff_log_lt (by norm_num) (abs_pos.mpr h0)]
    rw [zpow_sub₀ (by norm_num)]
    exact_mod_cast hx
  obtain ⟨e, he⟩ : ∃ e : ℕ, Int.log 10 |x| + 1 - p = -(d : ℤ) - e :=
    ⟨(-(d : ℤ) - (Int.log 10 |x| + 1 - p)).toNat, by omega⟩
  refine ⟨k * 10 ^ e, ?_⟩
  rw [he, zpow_sub₀ (by norm_num), zpow_neg, zpow_natCast, zpow_natCast, hk]
  push_cast
  field_simp

/-- A number of at most `p` digits on the grid is kept by rounding to `p` significant digits. -/
theorem toSignificant_of_onGrid (h : OnGrid d x) (hx : |x| < 10 ^ p / 10 ^ d) : toSignificant p x = x := by
  unfold toSignificant
  split_ifs with h0
  · exact h0.symm
  · obtain ⟨k, hk⟩ := exists_mul_unit hx h0 h
    have hr := roundAt_intCast_mul (u := (10 : ℚ) ^ (Int.log 10 |x| + 1 - (p : ℤ))) (by positivity) k
    rwa [← hk] at hr

/-- Rounding does not pass a number of the grid. -/
theorem le_toSignificant (h : OnGrid d y) (hx : |x| < 10 ^ p / 10 ^ d) (hle : y ≤ x) :
    y ≤ toSignificant p x := by
  unfold toSignificant
  split_ifs with h0
  · rwa [h0] at hle
  · obtain ⟨k, rfl⟩ := exists_mul_unit hx h0 h
    exact le_roundAt (by positivity) hle

theorem le_toFixed (h : OnGrid d y) (hle : y ≤ x) : y ≤ toFixed d x := by
  obtain ⟨k, rfl⟩ := onGrid_iff.mp h
  rw [div_eq_mul_one_div] at hle ⊢
  exact le_roundAt (by positivity) hle

/-- A number is written out as a number of the grid or more from half a unit below it on. -/
theorem le_toFixed_iff {k : ℤ} (hk : 0 < k) :
    (k : ℚ) / 10 ^ d ≤ toFixed d x ↔ ((k : ℚ) - 1 / 2) / 10 ^ d ≤ x := by
  have hd : (0 : ℚ) < 10 ^ d := by positivity
  rw [toFixed, roundAt, mul_one_div, div_le_div_iff_of_pos_right hd, Int.cast_le,
    le_roundHalfAway_iff hk, div_div_eq_mul_div, div_one, div_le_iff₀ hd]

/-- What one rounding to `p` significant digits can change. -/
theorem abs_toSignificant_sub_le (h : 0 ≤ x) : |toSignificant p x - x| ≤ x * (10 / 10 ^ p) / 2 := by
  unfold toSignificant
  split_ifs with h0
  · rw [h0]; simp
  · have hpos : 0 < x := lt_of_le_of_ne h (Ne.symm h0)
    have hu : (0 : ℚ) < (10 : ℚ) ^ (Int.log 10 |x| + 1 - (p : ℤ)) := by positivity
    have hle : (10 : ℚ) ^ (Int.log 10 |x| + 1 - (p : ℤ)) ≤ x * (10 / 10 ^ p) := by
      have hl := Int.zpow_log_le_self (by norm_num : 1 < 10) hpos
      rw [abs_of_pos hpos, zpow_sub₀ (by norm_num), zpow_add₀ (by norm_num), mul_div_assoc]
      exact mul_le_mul_of_nonneg_right (by exact_mod_cast hl) (by positivity)
    have := abs_roundAt_sub_le hu x
    linarith

theorem toSignificant_le (h : 0 ≤ x) : toSignificant p x ≤ x + x * (10 / 10 ^ p) / 2 := by
  have := (abs_le.mp (abs_toSignificant_sub_le (p := p) h)).2
  linarith

theorem toSignificant_nonneg (p : ℕ) (h : 0 ≤ x) : 0 ≤ toSignificant p x := by
  unfold toSignificant
  split_ifs
  · exact le_refl 0
  · exact roundAt_nonneg (by positivity) h

theorem pow_le_toFixed (d : ℕ) {k : ℕ} (h : 10 ^ k ≤ x) : 10 ^ k ≤ toFixed d x := by
  have hmul : (((10 : ℤ) ^ k * 10 ^ d : ℤ) : ℚ) * (1 / 10 ^ d) = 10 ^ k := by
    push_cast
    field_simp
  have hle := le_roundAt (by positivity) (hmul.trans_le h)
  rwa [hmul] at hle

theorem pow_le_toSignificant (hp : 0 < p) {k : ℕ} (h : 10 ^ k ≤ x) : 10 ^ k ≤ toSignificant p x := by
  have hpos : 0 < x := lt_of_lt_of_le (by positivity) h
  -- the largest power of ten below `x` is a multiple of the unit
  have hlog : (k : ℤ) ≤ Int.log 10 x := by
    rw [← Int.zpow_le_iff_le_log (by norm_num) hpos]
    exact_mod_cast h
  have hmul : (((10 : ℤ) ^ (p - 1) : ℤ) : ℚ) * (10 : ℚ) ^ (Int.log 10 x + 1 - (p : ℤ)) =
      (10 : ℚ) ^ Int.log 10 x := by
    push_cast
    rw [← zpow_natCast, ← zpow_add₀ (by norm_num)]
    congr 1
    omega
  have hself := Int.zpow_log_le_self (by norm_num : 1 < 10) hpos
  have hle := le_roundAt (by positivity) (hmul.trans_le (by exact_mod_cast hself))
  rw [toSignificant, if_neg hpos.ne', abs_of_pos hpos]
  calc (10 : ℚ) ^ k = (10 : ℚ) ^ (k : ℤ) := (zpow_natCast _ _).symm
    _ ≤ (10 : ℚ) ^ Int.log 10 x := zpow_le_zpow_right₀ (by norm_num) hlog
    _ ≤ _ := hmul ▸ hle

theorem toSignificant_neg (p : ℕ) (x : ℚ) : toSignificant p (-x) = -toSignificant p x := by
  unfold toSignificant
  rw [abs_neg]
  split_ifs with h₁ h₂ h₂
  · rw [neg_zero]
  · exact absurd (neg_eq_zero.mp h₁) h₂
  · exact absurd (neg_eq_zero.mpr h₂) h₁
  · unfold roundAt
    rw [neg_div, roundHalfAway_neg]
    push_cast
    ring

end XChainIndexer.Lib.Decimal
