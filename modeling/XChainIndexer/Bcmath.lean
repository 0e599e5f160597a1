import XChainIndexer.Lib.Decimal

/-! # The amount arithmetic of the handlers

The `bc*` helpers of `utility/bcmath.js`. An operation is carried out by mathjs on bignumbers of 64
significant digits and the result is then written out with a fixed number of decimals; both steps
round half away from zero. The comparisons are exact and need no definition of their own.

`Fits d x` is the range the arithmetic is exact on: at most `d` decimals and 42 digits before the
point. Sums and differences of such amounts are exact (`bcadd_zero`, `bcsub_of_fits`), and `bcround`
never passes an amount of the grid by rounding up a value just above it (`bcround_le`). -/

namespace XChainIndexer.Bcmath

open Lib.Decimal

/-- The significant digits a bignumber operation keeps. -/
def precision : ℕ := 64

/-- `mathjs.format(x, {notation: 'fixed', precision: d})` of an operation's exact result. -/
def format (x : ℚ) (decimals : ℕ) : ℚ := toFixed decimals (toSignificant precision x)

def bcadd (a b : ℚ) (decimals : ℕ) : ℚ := format (a + b) decimals

def bcsub (a b : ℚ) (decimals : ℕ) : ℚ := format (a - b) decimals

def bcmul (a b : ℚ) (decimals : ℕ) : ℚ := format (a * b) decimals

/-- A division by zero gives zero. -/
def bcdiv (a b : ℚ) (decimals : ℕ) : ℚ := if b = 0 then 0 else format (a / b) decimals

/-- `floor(n * 10^d + 0.5) / 10^d`, every operation at the bignumber precision. -/
def bcround (n : ℚ) (decimals : ℕ) : ℚ :=
  let scale : ℚ := 10 ^ decimals
  let shifted := toSignificant precision (toSignificant precision (n * scale) + 1 / 2)
  format (toSignificant precision (⌊shifted⌋ / scale)) decimals

/-- `floor(a * b * 10^d) / 10^d`, every operation at the bignumber precision. -/
def bcmulfloor (a b : ℚ) (decimals : ℕ) : ℚ :=
  let scale : ℚ := 10 ^ decimals
  let product := toSignificant precision (a * b)
  format (toSignificant precision (⌊toSignificant precision (product * scale)⌋ / scale)) decimals

/-- `floor(a * b / c * 10^d) / 10^d`, every operation at the bignumber precision; a division by
zero gives zero. -/
def bcmuldivfloor (a b c : ℚ) (decimals : ℕ) : ℚ :=
  if c = 0 then 0 else
    let scale : ℚ := 10 ^ decimals
    let quotient := toSignificant precision (toSignificant precision (a * b) / c)
    format (toSignificant precision (⌊toSignificant precision (quotient * scale)⌋ / scale)) decimals

/-- At most `d` decimals and 42 digits before the point. -/
def Fits (d : ℕ) (x : ℚ) : Prop := OnGrid d x ∧ |x| < 10 ^ 42

instance (d : ℕ) (x : ℚ) : Decidable (Fits d x) := by
  unfold Fits; infer_instance

variable {d e : ℕ} {x : ℚ}

theorem Fits.mono (h : Fits d x) (hde : d ≤ e) : Fits e x :=
  ⟨h.1.mono hde, h.2⟩

variable {m : ℚ}

theorem Fits.exists_units (h : Fits d m) (hd : d ≤ 18) (h0 : 0 ≤ m) :
    ∃ k : ℤ, m = k / 10 ^ d ∧ 0 ≤ k ∧ (k : ℚ) < 10 ^ 60 := by
  obtain ⟨k, rfl⟩ := onGrid_iff.mp h.1
  have hpos : (0 : ℚ) < 10 ^ d := by positivity
  have h10 : (10 : ℚ) ^ d ≤ 10 ^ 18 := pow_le_pow_right₀ (by norm_num) hd
  refine ⟨k, rfl, ?_, ?_⟩
  · have : (0 : ℚ) ≤ k := by
      rw [← div_mul_cancel₀ (k : ℚ) hpos.ne']
      exact mul_nonneg h0 hpos.le
    exact_mod_cast this
  · have hlt : (k : ℚ) / 10 ^ d < 10 ^ 42 := lt_of_le_of_lt (le_abs_self _) h.2
    rw [div_lt_iff₀ hpos] at hlt
    calc (k : ℚ) < 10 ^ 42 * 10 ^ d := hlt
      _ ≤ 10 ^ 42 * 10 ^ 18 := by linarith
      _ = 10 ^ 60 := by norm_num

/-! ### Exact operations -/

theorem format_eq_toFixed (h : OnGrid 18 x) (hx : |x| < 10 ^ 46) : format x e = toFixed e x := by
  unfold format
  rw [toSignificant_of_onGrid h]
  unfold precision
  norm_num at hx ⊢
  exact hx

theorem format_of_onGrid (h : OnGrid d x) (hd : d ≤ 18) (hde : d ≤ e) (hx : |x| < 10 ^ 46) :
    format x e = x := by
  rw [format_eq_toFixed (h.mono hd) hx, toFixed_of_onGrid (h.mono hde)]

variable {a : ℚ}

theorem bcadd_zero (h : Fits d a) (hd : d ≤ 18) (hde : d ≤ e) : bcadd a 0 e = a := by
  unfold bcadd
  rw [add_zero]
  exact format_of_onGrid h.1 hd hde (h.2.trans (by norm_num))

variable {b : ℚ}

section
variable (hd : d ≤ 18) (ha : OnGrid d a) (hb : OnGrid d b)
include hd ha hb

theorem bcadd_of_onGrid (h : |a + b| < 10 ^ 46) : bcadd a b d = a + b :=
  format_of_onGrid (ha.add hb) hd le_rfl h

theorem bcsub_of_onGrid (h : |a - b| < 10 ^ 46) : bcsub a b d = a - b :=
  format_of_onGrid (ha.sub hb) hd le_rfl h

end

theorem bcsub_of_fits (ha : Fits d a) (hb : Fits d b) (hd : d ≤ 18) (hde : d ≤ e) : bcsub a b e = a - b := by
  refine format_of_onGrid (ha.1.sub hb.1) hd hde ?_
  have h := abs_sub a b
  have h1 := ha.2
  have h2 := hb.2
  linarith

/-- What a row that takes `a` out writes. -/
theorem bcadd_bcsub_zero {w : ℕ} (h : Fits d a) (hd : d ≤ 18) (hde : d ≤ e) (hdw : d ≤ w) :
    bcadd (bcsub 0 a e) 0 w = -a := by
  have hneg : Fits d (-a) := ⟨h.1.neg, by rw [abs_neg]; exact h.2⟩
  rw [bcsub_of_fits ⟨onGrid_zero d, by norm_num⟩ h hd hde, zero_sub, bcadd_zero hneg hd hdw]

/-! ### Rounded operations -/

theorem format_nonneg (d : ℕ) (h : 0 ≤ x) : 0 ≤ format x d :=
  toFixed_nonneg d (toSignificant_nonneg _ h)

theorem format_neg (x : ℚ) (d : ℕ) : format (-x) d = -format x d := by
  unfold format
  rw [toSignificant_neg, toFixed_neg]

theorem format_nonpos (d : ℕ) (h : x ≤ 0) : format x d ≤ 0 := by
  have := format_nonneg d (neg_nonneg.mpr h)
  rw [format_neg] at this
  linarith

variable {k : ℕ}

theorem pow_le_format (d : ℕ) (h : 10 ^ k ≤ x) : 10 ^ k ≤ format x d :=
  pow_le_toFixed d (pow_le_toSignificant (by decide) h)

section
variable {y : ℚ} (h : OnGrid d y) (hd : d ≤ 18) (hde : d ≤ e) (hx : |x| < 10 ^ 46)
include h hd hde hx

theorem le_format (hle : y ≤ x) : y ≤ format x e := by
  refine le_toFixed (h.mono hde) (le_toSignificant (h.mono hd) ?_ hle)
  unfold precision
  norm_num at hx ⊢
  exact hx

theorem format_le_of_onGrid (hle : x ≤ y) : format x e ≤ y := by
  have := le_format h.neg hd hde (abs_neg x ▸ hx) (neg_le_neg hle)
  rw [format_neg] at this
  linarith

end

theorem onGrid_format (x : ℚ) (d : ℕ) : OnGrid d (format x d) := onGrid_toFixed d _

theorem onGrid_bcmulfloor (a b : ℚ) (d : ℕ) : OnGrid d (bcmulfloor a b d) := onGrid_format _ d

/-! ### Running sums -/

/-- A sum read by adding up at the bignumber precision: exact, or past every amount. -/
def Sums (read exact : ℚ) : Prop := read = exact ∨ 10 ^ 45 ≤ read ∧ 10 ^ 45 ≤ exact

variable {read exact : ℚ}

theorem Sums.bcadd (hd : d ≤ 18) (hde : d ≤ e) (h : Sums read exact) (hgrid : OnGrid d exact)
    (hexact : 0 ≤ exact) (hx : OnGrid d x) (hx0 : 0 ≤ x) : Sums (bcadd read x e) (exact + x) := by
  by_cases hbig : 10 ^ 45 ≤ exact ∨ 10 ^ 45 ≤ x
  · have hread : 10 ^ 45 ≤ read ∨ 0 ≤ read ∧ 10 ^ 45 ≤ x := by
      rcases h with rfl | ⟨hread, -⟩
      · exact hbig.imp_right fun h => ⟨hexact, h⟩
      · exact .inl hread
    refine .inr ⟨pow_le_format e ?_, ?_⟩
    · rcases hread with h | ⟨h, h'⟩ <;> linarith
    · rcases hbig with h | h <;> linarith
  · push Not at hbig
    obtain ⟨hlt, hltx⟩ := hbig
    have heq : read = exact := h.resolve_right fun h' => absurd h'.2 (not_le.mpr hlt)
    subst heq
    refine .inl (format_of_onGrid (hgrid.add hx) hd hde ?_)
    rw [abs_of_nonneg (add_nonneg hexact hx0)]
    linarith

variable {l : List ℚ}

theorem sums_foldl (hd : d ≤ 18) (hde : d ≤ e) (hl : ∀ x ∈ l, OnGrid d x ∧ 0 ≤ x)
    (h : Sums read exact) (hgrid : OnGrid d exact) (hexact : 0 ≤ exact) :
    Sums (l.foldl (fun sum x => Bcmath.bcadd sum x e) read) (exact + l.sum) := by
  induction l generalizing read exact with
  | nil => simpa using h
  | cons x l ih =>
    obtain ⟨hx, hx0⟩ := hl x (by simp)
    have hnext := ih (fun y hy => hl y (by simp [hy])) (h.bcadd hd hde hgrid hexact hx hx0)
      (hgrid.add hx) (add_nonneg hexact hx0)
    rw [List.sum_cons, ← add_assoc]
    exact hnext

theorem Sums.eq_of_le {bound : ℚ} (h : Sums read exact) (hle : read ≤ bound)
    (hbound : bound < 10 ^ 42) : read = exact := by
  refine h.resolve_right fun h' => ?_
  linarith

theorem Sums.eq_of_lt (h : Sums read exact) (hlt : exact < 10 ^ 45) : read = exact :=
  h.resolve_right fun h' => absurd h'.2 (not_le.mpr hlt)

theorem foldl_bcadd (hd : d ≤ 18) (hl : ∀ x ∈ l, OnGrid d x ∧ 0 ≤ x)
    (hsum : l.sum < 10 ^ 45) : l.foldl (fun sum x => bcadd sum x d) 0 = l.sum := by
  have h := sums_foldl hd le_rfl hl (.inl rfl) (onGrid_zero d) le_rfl
  rw [zero_add] at h
  exact h.eq_of_lt hsum

/-- An amount a formatted number of the grid covers is covered by the number itself. -/
theorem le_of_le_format (hx : OnGrid 18 x) (ha : Fits 18 a) (hpos : 0 < a) (h : a ≤ format x 18) : a ≤ x := by
  by_contra hlt
  rcases lt_or_ge |x| (10 ^ 46) with hs | hl
  · exact hlt (format_of_onGrid hx le_rfl le_rfl hs ▸ h)
  · have hx0 : x ≤ 0 := by
      by_contra hx0
      rw [abs_of_pos (by linarith)] at hl
      have := (abs_lt.mp ha.2).2
      linarith
    have := format_nonpos 18 hx0
    linarith

theorem abs_format_sub_le (h : 0 ≤ x) : |format x d - x| ≤ x * (10 / 10 ^ 64) / 2 + 1 / 10 ^ d / 2 := by
  have hfixed := abs_toFixed_sub_le d (toSignificant precision x)
  have hsig := abs_toSignificant_sub_le (p := precision) h
  calc |format x d - x|
      ≤ |toFixed d (toSignificant precision x) - toSignificant precision x| +
          |toSignificant precision x - x| := abs_sub_le _ _ _
    _ ≤ _ := by rw [add_comm]; exact add_le_add hsig hfixed

theorem format_units (hd : d ≤ 18) {k : ℤ} (hk : |(k : ℚ) / 10 ^ d| < 10 ^ 46) :
    format (toSignificant precision ((k : ℚ) / 10 ^ d)) d = k / 10 ^ d := by
  have hgrid : OnGrid d ((k : ℚ) / 10 ^ d) := onGrid_iff.mpr ⟨k, rfl⟩
  have hsig : toSignificant precision ((k : ℚ) / 10 ^ d) = k / 10 ^ d := by
    refine toSignificant_of_onGrid (hgrid.mono hd) (hk.trans_le ?_)
    unfold precision
    norm_num
  rw [hsig]
  exact format_of_onGrid hgrid hd le_rfl hk

/-- A product of at most 64 digits is floored exactly. -/
theorem bcmulfloor_of_onGrid (hd : d ≤ 18) (hde : d ≤ e) (he : e ≤ 22) (hab : OnGrid e (a * b))
    (h0 : 0 ≤ a * b) (hlt : a * b < 10 ^ 42) : bcmulfloor a b d = ⌊a * b * 10 ^ d⌋ / 10 ^ d := by
  have hpos : (0 : ℚ) < 10 ^ d := by positivity
  have hgrid := hab.mono he
  have hproduct : toSignificant precision (a * b) = a * b := by
    refine toSignificant_of_onGrid hgrid ?_
    rw [abs_of_nonneg h0]
    exact hlt.trans_le (by unfold precision; norm_num)
  have hscaled : toSignificant precision (a * b * 10 ^ d) = a * b * 10 ^ d := by
    obtain ⟨k, hk⟩ := onGrid_iff.mp hgrid
    have hsplit : (10 : ℚ) ^ 22 = 10 ^ d * 10 ^ (22 - d) := by
      rw [← pow_add, Nat.add_sub_cancel' (hde.trans he)]
    refine toSignificant_of_onGrid (d := 22 - d) (onGrid_iff.mpr ⟨k, ?_⟩) ?_
    · rw [hk, hsplit]
      field_simp
    · rw [abs_of_nonneg (mul_nonneg h0 hpos.le), lt_div_iff₀ (by positivity), mul_assoc, ← hsplit]
      unfold precision
      linarith
  have hfloor : |(⌊a * b * 10 ^ d⌋ : ℚ) / 10 ^ d| < 10 ^ 46 := by
    have hnn : (0 : ℚ) ≤ ⌊a * b * 10 ^ d⌋ := by
      exact_mod_cast Int.floor_nonneg.mpr (mul_nonneg h0 hpos.le)
    rw [abs_of_nonneg (div_nonneg hnn hpos.le), div_lt_iff₀ hpos]
    refine (Int.floor_le _).trans_lt (mul_lt_mul_of_pos_right (hlt.trans (by norm_num)) hpos)
  unfold bcmulfloor
  dsimp only
  rw [hproduct, hscaled]
  exact format_units hd hfloor

/-- Units that stay below an amount of the grid are one themselves. -/
theorem format_units_of_le (hd : d ≤ 18) {k : ℤ} (hm : Fits d m) (h0 : 0 ≤ k) (h : (k : ℚ) / 10 ^ d ≤ m) :
    format (toSignificant precision (k / 10 ^ d)) d = k / 10 ^ d ∧ (0 : ℚ) ≤ k / 10 ^ d ∧
      Fits d (k / 10 ^ d) := by
  have hk : (0 : ℚ) ≤ k / 10 ^ d := div_nonneg (by exact_mod_cast h0) (by positivity)
  have hbig : |(k : ℚ) / 10 ^ d| < 10 ^ 42 := by
    rw [abs_of_nonneg hk]
    exact (h.trans (le_abs_self m)).trans_lt hm.2
  exact ⟨format_units hd (hbig.trans (by norm_num)), hk, onGrid_iff.mpr ⟨k, rfl⟩, hbig⟩

/-- What `bcround` computes before the last exact formatting. -/
def roundedUnits (n : ℚ) (decimals : ℕ) : ℤ :=
  ⌊toSignificant precision (toSignificant precision (n * 10 ^ decimals) + 1 / 2)⌋

variable {n : ℚ}

theorem roundedUnits_nonneg (d : ℕ) (h : 0 ≤ n) : 0 ≤ roundedUnits n d := by
  have h1 : 0 ≤ toSignificant precision (n * 10 ^ d) :=
    toSignificant_nonneg _ (mul_nonneg h (by positivity))
  exact Int.floor_nonneg.mpr (toSignificant_nonneg _ (by linarith))

theorem abs_roundedUnits_sub_le (hd : d ≤ 18) (hn : 0 ≤ n) (hn' : n ≤ 10 ^ 42 + 1) :
    |(roundedUnits n d : ℚ) - n * 10 ^ d| ≤ 51 / 100 := by
  have hpos : (0 : ℚ) < 10 ^ d := by positivity
  have h10 : (10 : ℚ) ^ d ≤ 10 ^ 18 := pow_le_pow_right₀ (by norm_num) hd
  have hx : n * 10 ^ d ≤ 2 * 10 ^ 60 := by
    calc n * 10 ^ d ≤ (10 ^ 42 + 1) * 10 ^ 18 := mul_le_mul hn' h10 hpos.le (by norm_num)
      _ ≤ _ := by norm_num
  have hs := abs_toSignificant_sub_le (p := precision) (mul_nonneg hn hpos.le)
  have hs0 := toSignificant_nonneg precision (mul_nonneg hn hpos.le)
  have ht := abs_toSignificant_sub_le (p := precision) (by linarith :
    0 ≤ toSignificant precision (n * 10 ^ d) + 1 / 2)
  have hle := Int.floor_le (toSignificant precision (toSignificant precision (n * 10 ^ d) + 1 / 2))
  have hlt := Int.lt_floor_add_one (toSignificant precision (toSignificant precision (n * 10 ^ d) + 1 / 2))
  unfold roundedUnits
  obtain ⟨hs1, hs2⟩ := abs_le.mp hs
  obtain ⟨ht1, ht2⟩ := abs_le.mp ht
  rw [abs_le]
  unfold precision at *
  constructor <;> linarith

/-- Rounding a value above an amount of the grid by less than half a unit gives an amount of the grid, not
above it. -/
theorem bcround_le (hd : d ≤ 18) (hn : 0 ≤ n) (ha0 : 0 ≤ a) (ha : Fits d a)
    (h : n ≤ a + 47 / 100 * (1 / 10 ^ d) + 1 / 10 ^ 20) : 0 ≤ bcround n d ∧ bcround n d ≤ a ∧ Fits d (bcround n d) := by
  have hpos : (0 : ℚ) < 10 ^ d := by positivity
  have h10 : (10 : ℚ) ^ d ≤ 10 ^ 18 := pow_le_pow_right₀ (by norm_num) hd
  have ha42 := (le_abs_self a).trans_lt ha.2
  have hone : (1 : ℚ) / 10 ^ d ≤ 1 := by
    rw [div_le_one hpos]
    exact one_le_pow₀ (by norm_num)
  have hoff := (abs_le.mp (abs_roundedUnits_sub_le hd hn (by linarith))).2
  obtain ⟨k, rfl, hk0, hk⟩ := ha.exists_units hd ha0
  have hscaled : n * 10 ^ d ≤ k + 48 / 100 := by
    calc n * 10 ^ d ≤ (k / 10 ^ d + 47 / 100 * (1 / 10 ^ d) + 1 / 10 ^ 20) * 10 ^ d :=
          mul_le_mul_of_nonneg_right h hpos.le
      _ = k + 47 / 100 + 1 / 10 ^ 20 * 10 ^ d := by field_simp
      _ ≤ k + 48 / 100 := by linarith
  have hlt : (roundedUnits n d : ℚ) < k + 1 := by linarith
  have hle : roundedUnits n d ≤ k := Int.lt_add_one_iff.mp (by exact_mod_cast hlt)
  have hqle : (roundedUnits n d : ℚ) / 10 ^ d ≤ k / 10 ^ d :=
    div_le_div_of_nonneg_right (by exact_mod_cast hle) hpos.le
  obtain ⟨heq, h0, hfits⟩ := format_units_of_le hd ha (roundedUnits_nonneg d hn) hqle
  rw [show bcround n d = roundedUnits n d / 10 ^ d from heq]
  exact ⟨h0, hqle, hfits⟩

/-- What one rounding to the bignumber precision can add, relatively. -/
def slack : ℚ := 1 + 5 / 10 ^ 64

theorem toSignificant_le_slack (hx : 0 ≤ x) (h : x ≤ m * slack ^ k) :
    toSignificant precision x ≤ m * slack ^ (k + 1) := by
  have hs : 0 ≤ slack := by norm_num [slack]
  calc toSignificant precision x ≤ x * slack := by
        have := toSignificant_le (p := precision) hx
        unfold precision at this ⊢
        unfold slack
        linarith
    _ ≤ m * slack ^ k * slack := mul_le_mul_of_nonneg_right h hs
    _ = m * slack ^ (k + 1) := by rw [pow_succ, mul_assoc]

theorem slack_pow_le (hk : k ≤ 3) : slack ^ k ≤ 1 + 1 / 10 ^ 62 := by
  have hs : 1 ≤ slack := by norm_num [slack]
  exact (pow_le_pow_right₀ hs hk).trans (by norm_num [slack])

variable {q : ℚ}

/-- Whole units below a value that is at most just above an amount of the grid: an amount of the
grid, not above it. -/
theorem floored_spec (hd : d ≤ 18) {u : ℚ} (hm : Fits d m) (hm0 : 0 ≤ m) (hu : 0 ≤ u)
    (hq : 0 ≤ q) (hqm : q ≤ m) (h : u ≤ q * 10 ^ d * slack ^ k) (hk : k ≤ 3) :
    0 ≤ format (toSignificant precision (⌊u⌋ / 10 ^ d)) d ∧
      format (toSignificant precision (⌊u⌋ / 10 ^ d)) d ≤ m ∧
      Fits d (format (toSignificant precision (⌊u⌋ / 10 ^ d)) d) ∧
      format (toSignificant precision (⌊u⌋ / 10 ^ d)) d ≤ q * (1 + 1 / 10 ^ 62) := by
  have hpos : (0 : ℚ) < 10 ^ d := by positivity
  replace h : u ≤ q * (1 + 1 / 10 ^ 62) * 10 ^ d := by
    rw [mul_right_comm]
    exact h.trans (mul_le_mul_of_nonneg_left (slack_pow_le hk) (mul_nonneg hq hpos.le))
  obtain ⟨n, rfl, hn0, hn⟩ := hm.exists_units hd hm0
  have hqn : q * 10 ^ d ≤ n := (le_div_iff₀ hpos).mp hqm
  have hle : ⌊u⌋ ≤ n := by
    refine Int.lt_add_one_iff.mp (Int.floor_lt.mpr (h.trans_lt ?_))
    norm_num at hn ⊢
    linarith
  have hqle : (⌊u⌋ : ℚ) / 10 ^ d ≤ n / 10 ^ d :=
    div_le_div_of_nonneg_right (by exact_mod_cast hle) hpos.le
  obtain ⟨heq, h0, hfits⟩ := format_units_of_le hd hm (Int.floor_nonneg.mpr hu) hqle
  rw [heq]
  exact ⟨h0, hqle, hfits, (div_le_iff₀ hpos).mpr ((Int.floor_le u).trans h)⟩

variable {c : ℚ}

/-- A floored quotient is an amount of the grid, does not pass one the exact quotient stays below,
and passes the exact quotient by next to nothing. -/
theorem bcmuldivfloor_le (hd : d ≤ 18) (hab : 0 ≤ a * b) (hc : 0 < c) (hm0 : 0 ≤ m) (hm : Fits d m)
    (h : a * b / c ≤ m) :
    0 ≤ bcmuldivfloor a b c d ∧ bcmuldivfloor a b c d ≤ m ∧ Fits d (bcmuldivfloor a b c d) ∧
      bcmuldivfloor a b c d ≤ a * b / c * (1 + 1 / 10 ^ 62) := by
  have hpos : (0 : ℚ) < 10 ^ d := by positivity
  have hn1 : 0 ≤ toSignificant precision (a * b) / c := div_nonneg (toSignificant_nonneg _ hab) hc.le
  have hn2 := mul_nonneg (toSignificant_nonneg precision hn1) hpos.le
  have h1 := toSignificant_le_slack hab (k := 0) (by rw [pow_zero, mul_one])
  have h2 := toSignificant_le_slack hn1 (m := a * b / c) (by
    rw [div_mul_eq_mul_div]
    exact div_le_div_of_nonneg_right h1 hc.le)
  have h3 := toSignificant_le_slack hn2 (m := a * b / c * 10 ^ d) (by
    rw [mul_right_comm]
    exact mul_le_mul_of_nonneg_right h2 hpos.le)
  unfold bcmuldivfloor
  rw [if_neg hc.ne']
  exact floored_spec hd hm hm0 (toSignificant_nonneg _ hn2) (div_nonneg hab hc.le) h h3 le_rfl

/-- A floored product is an amount of the grid, and does not pass one the exact product stays
below. -/
theorem bcmulfloor_le (hd : d ≤ 18) (hab : 0 ≤ a * b) (hm0 : 0 ≤ m) (hm : Fits d m) (h : a * b ≤ m)
    : 0 ≤ bcmulfloor a b d ∧ bcmulfloor a b d ≤ m ∧ Fits d (bcmulfloor a b d) ∧
      bcmulfloor a b d ≤ a * b * (1 + 1 / 10 ^ 62) := by
  have hpos : (0 : ℚ) < 10 ^ d := by positivity
  have hn := mul_nonneg (toSignificant_nonneg precision hab) hpos.le
  have h1 := toSignificant_le_slack hab (k := 0) (by rw [pow_zero, mul_one])
  have h2 := toSignificant_le_slack hn (m := a * b * 10 ^ d) (by
    rw [mul_right_comm]
    exact mul_le_mul_of_nonneg_right h1 hpos.le)
  exact floored_spec hd hm hm0 (toSignificant_nonneg _ hn) hab h h2 (by decide)

/-- Amounts of the grid are not pushed over another by roundings at the bignumber precision. -/
theorem le_of_le_mul (hd : d ≤ 18) (hx : OnGrid d x) (hm : Fits d m) (h : x ≤ m * (1 + 1 / 10 ^ 62))
    : x ≤ m := by
  refine hx.le_of_lt_add hm.1 (h.trans_lt ?_)
  have hlt := (le_abs_self m).trans_lt hm.2
  have hunit : (1 : ℚ) / 10 ^ 18 ≤ 1 / 10 ^ d :=
    one_div_le_one_div_of_le (by positivity) (pow_le_pow_right₀ (by norm_num) hd)
  linarith

section
variable (ha : 0 ≤ a) (ha' : a < 10 ^ 42) (hn : 0 ≤ n) (hc : 0 < c)
include ha ha' hn hc

/-- A product with a rounded quotient is off by less than any amount has room for. -/
theorem abs_bcmul_bcdiv_sub_le
    (hm : a * n / c < 10 ^ 42) : |bcmul a (bcdiv n c 64) 64 - a * n / c| ≤ 1 / 10 ^ 20 := by
  have hq : 0 ≤ n / c := div_nonneg hn hc.le
  have hp : 0 ≤ format (n / c) 64 := format_nonneg 64 hq
  have hexact : a * n / c = a * (n / c) := mul_div_assoc a n c
  have hquot : |a * format (n / c) 64 - a * (n / c)| ≤
      a * (n / c) * (10 / 10 ^ 64) / 2 + a * (1 / 10 ^ 64) / 2 := by
    rw [← mul_sub, abs_mul, abs_of_nonneg ha]
    calc _ ≤ a * (n / c * (10 / 10 ^ 64) / 2 + 1 / 10 ^ 64 / 2) :=
          mul_le_mul_of_nonneg_left (abs_format_sub_le hq) ha
      _ = _ := by ring
  have hprod := abs_format_sub_le (d := 64) (mul_nonneg ha hp)
  unfold bcmul bcdiv
  rw [if_neg hc.ne']
  obtain ⟨hq1, hq2⟩ := abs_le.mp hquot
  obtain ⟨hp1, hp2⟩ := abs_le.mp hprod
  rw [abs_le]
  constructor <;> linarith

theorem bcmul_bcdiv_le (hm : m < 10 ^ 42)
    (h : a * n / c ≤ m) : 0 ≤ bcmul a (bcdiv n c 64) 64 ∧ bcmul a (bcdiv n c 64) 64 ≤ m + 1 / 10 ^ 20 := by
  have hoff := (abs_le.mp (abs_bcmul_bcdiv_sub_le ha ha' hn hc (h.trans_lt hm))).2
  refine ⟨?_, by linarith⟩
  unfold bcmul bcdiv
  rw [if_neg hc.ne']
  exact format_nonneg 64 (mul_nonneg ha (format_nonneg 64 (div_nonneg hn hc.le)))

end

theorem abs_bcround_sub_le (hd : d ≤ 18) (hn : 0 ≤ n) (hn' : n ≤ 10 ^ 42 + 1) :
    |bcround n d - n| ≤ 51 / 100 * (1 / 10 ^ d) := by
  have hpos : (0 : ℚ) < 10 ^ d := by positivity
  have heq : (roundedUnits n d : ℚ) / 10 ^ d - n = ((roundedUnits n d : ℚ) - n * 10 ^ d) * (1 / 10 ^ d) := by
    field_simp
  have hoff : |(roundedUnits n d : ℚ) / 10 ^ d - n| ≤ 51 / 100 * (1 / 10 ^ d) := by
    rw [heq, abs_mul, abs_of_pos (by positivity : (0 : ℚ) < 1 / 10 ^ d)]
    exact mul_le_mul_of_nonneg_right (abs_roundedUnits_sub_le hd hn hn') (by positivity)
  have hbig : |(roundedUnits n d : ℚ) / 10 ^ d| < 10 ^ 46 := by
    have hone : (1 : ℚ) / 10 ^ d ≤ 1 := by
      rw [div_le_one hpos]
      exact one_le_pow₀ (by norm_num)
    obtain ⟨hlow, hhigh⟩ := abs_le.mp hoff
    rw [abs_lt]
    constructor <;> linarith
  rw [show bcround n d = roundedUnits n d / 10 ^ d from format_units hd hbig]
  exact hoff

/-- Rounding a value above an amount by more than half a unit gives more than the amount. -/
theorem lt_bcround (hd : d ≤ 18) (hn : 0 ≤ n) (hn' : n ≤ 10 ^ 42 + 1)
    (h : a + 53 / 100 * (1 / 10 ^ d) ≤ n + 1 / 10 ^ 20) : a < bcround n d := by
  have hoff := (abs_le.mp (abs_bcround_sub_le hd hn hn')).1
  have hunit : (1 : ℚ) / 10 ^ 18 ≤ 1 / 10 ^ d :=
    one_div_le_one_div_of_le (by positivity) (pow_le_pow_right₀ (by norm_num) hd)
  norm_num at *
  linarith

theorem bcround_of_fits (hd : d ≤ 18) (h0 : 0 ≤ a) (h : Fits d a) : bcround a d = a := by
  have hunit : (0 : ℚ) < 1 / 10 ^ d := by positivity
  obtain ⟨_, hle, hfits⟩ := bcround_le hd h0 h0 h (by linarith)
  have hoff := abs_bcround_sub_le hd h0 (by linarith [(le_abs_self a).trans_lt h.2])
  refine le_antisymm hle (h.1.le_of_lt_add hfits.1 ?_)
  linarith [(abs_le.mp hoff).1]

end XChainIndexer.Bcmath
