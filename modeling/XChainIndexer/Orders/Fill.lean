import XChainIndexer.Orders.Invariant

/-! # The size of a fill

`computeFillAmounts` picks the side that tightens first by comparing a product with a rounded price,
and derives the other amount from the opposite rounded price. `fill_le` says that neither amount
passes what both orders have left, unless rounding the price picks the wrong side (`FillSound`). -/

namespace XChainIndexer.Orders.Fill

open Bcmath Orders.Tables Orders.Match Lib.Decimal

/-- The fill of a candidate is sized without a rounding fault: what the two orders can exchange lies
on the ticks' grids, the rounded price does not make the GIVE side look tighter than the GET side
when it is not, and a match that involves coin has an order that pays it. -/
structure FillSound (sc : Scales) (o : Order) (r : Remaining) (m : OrderInfo) : Prop where
  maxGive_fits : Fits (sc.decimalsOf o.give.tick) (maxGive r m)
  maxGet_fits : Fits (sc.decimalsOf o.get.tick) (maxGet r m)
  price : maxGet r m * o.give.amount / o.get.amount ≤ maxGive r m →
    bcmul (maxGet r m) o.getPrice 64 ≤ maxGive r m
  payer : anyNullTick o m.order → o.give.tick = none ∨ m.order.give.tick = none

instance (sc : Scales) (o : Order) (r : Remaining) (m : OrderInfo) : Decidable (FillSound sc o r m) :=
  decidable_of_iff
    (Fits (sc.decimalsOf o.give.tick) (maxGive r m) ∧ Fits (sc.decimalsOf o.get.tick) (maxGet r m) ∧
      (maxGet r m * o.give.amount / o.get.amount ≤ maxGive r m →
        bcmul (maxGet r m) o.getPrice 64 ≤ maxGive r m) ∧
      (anyNullTick o m.order → o.give.tick = none ∨ m.order.give.tick = none))
    ⟨fun ⟨hgive, hget, hprice, hpayer⟩ => ⟨hgive, hget, hprice, hpayer⟩,
      fun h => ⟨h.maxGive_fits, h.maxGet_fits, h.price, h.payer⟩⟩

/-- An amount of a fill: positive, within a bound, on the grid. -/
structure AmountOk (d : ℕ) (bound x : ℚ) : Prop where
  pos : 0 < x
  le : x ≤ bound
  fits : Fits d x

/-- An amount of the grid from zero to a bound. -/
def Within (d : ℕ) (bound x : ℚ) : Prop := 0 ≤ x ∧ x ≤ bound ∧ Fits d x

theorem decimalsOf_le (sc : Scales) (t : Option ℕ) : sc.decimalsOf t ≤ 18 := by
  rcases t with _ | t
  · show coinDecimals ≤ 18
    unfold coinDecimals
    omega
  · exact (sc.decimals_le t).trans (sc.precision_le t)

theorem format_zero (d : ℕ) : format 0 d = 0 :=
  format_of_onGrid (onGrid_zero 0) (by omega) (by omega) (by norm_num)

/-- An order that gives or gets nothing has the price zero, which sizes every fill by the GET side. -/
theorem bcmul_getPrice_of_zero {o : Order} (h : o.give.amount = 0 ∨ o.get.amount = 0) (x : ℚ) :
    bcmul x o.getPrice 64 = 0 := by
  have hp : o.getPrice = 0 := by
    unfold Order.getPrice getPrice bcdiv
    rcases h with h | h
    · rw [h, zero_div, format_zero, ite_self]
    · rw [if_pos h]
  unfold bcmul
  rw [hp, mul_zero, format_zero]

theorem price_nonneg {n c : ℚ} (hn : 0 ≤ n) (hc : 0 ≤ c) : 0 ≤ getPrice n c := by
  unfold getPrice bcdiv
  split_ifs
  · exact le_rfl
  · exact format_nonneg 64 (div_nonneg hn hc)

section

variable {blk : Block} {o : Order} {r : Remaining} {m : OrderInfo}

section
variable (h : admits blk o r m)
include h

theorem room : 0 < r.give ∧ 0 < r.get ∧ 0 < m.remaining.give ∧ 0 < m.remaining.get := by
  unfold admits hasFillRoom at h
  simp only [Bool.and_eq_true, decide_eq_true_eq] at h
  tauto

theorem maxGive_pos : 0 < maxGive r m := by
  obtain ⟨h1, _, _, h4⟩ := room h
  unfold maxGive
  split_ifs <;> assumption

theorem maxGet_pos : 0 < maxGet r m := by
  obtain ⟨_, h2, h3, _⟩ := room h
  unfold maxGet
  split_ifs <;> assumption

theorem fill_pos :
    0 < (computeFillAmounts blk o r m).giveAmount ∧ 0 < (computeFillAmounts blk o r m).getAmount := by
  have hnz : isNonZeroFill (computeFillAmounts blk o r m) := by
    unfold admits at h
    simp only [Bool.and_eq_true] at h
    exact h.1.1.2
  unfold isNonZeroFill at hnz
  simpa only [Bool.and_eq_true, decide_eq_true_eq] using hnz

end

section
variable (r : Remaining) (m : OrderInfo)

theorem maxGive_le : maxGive r m ≤ r.give ∧ maxGive r m ≤ m.remaining.get := by
  unfold maxGive
  split_ifs with h
  · exact ⟨h.le, le_rfl⟩
  · exact ⟨le_rfl, not_lt.mp h⟩

theorem maxGet_le : maxGet r m ≤ r.get ∧ maxGet r m ≤ m.remaining.give := by
  unfold maxGet
  split_ifs with h
  · exact ⟨h.le, le_rfl⟩
  · exact ⟨le_rfl, not_lt.mp h⟩

end

section
variable (hgive : 0 ≤ o.give.amount) (hget : 0 ≤ o.get.amount) (hg0 : 0 ≤ maxGive r m)
include hgive hget hg0

theorem derived_nonneg : 0 ≤ bcmul (maxGive r m) o.givePrice 64 :=
  format_nonneg 64 (mul_nonneg hg0 (price_nonneg hget hgive))

/-- A GIVE side that looks tighter is one of amounts that are not zero. -/
theorem amounts_pos (hcase : maxGive r m < bcmul (maxGet r m) o.getPrice 64) :
    0 < o.give.amount ∧ 0 < o.get.amount := by
  have hne : o.give.amount ≠ 0 ∧ o.get.amount ≠ 0 := by
    by_contra h0
    rw [bcmul_getPrice_of_zero (by tauto)] at hcase
    linarith
  exact ⟨lt_of_le_of_ne hgive hne.1.symm, lt_of_le_of_ne hget hne.2.symm⟩

/-- The amount that is derived from a GIVE side that looks tighter and is. -/
theorem derived_le (hg : maxGive r m < 10 ^ 42) (ht : maxGet r m < 10 ^ 42)
    (hprice : maxGet r m * o.give.amount / o.get.amount ≤ maxGive r m →
      bcmul (maxGet r m) o.getPrice 64 ≤ maxGive r m)
    (hcase : maxGive r m < bcmul (maxGet r m) o.getPrice 64) :
    bcmul (maxGive r m) o.givePrice 64 ≤ maxGet r m + 1 / 10 ^ 20 := by
  obtain ⟨hpos, hpos'⟩ := amounts_pos hgive hget hg0 hcase
  have htight : maxGive r m * o.get.amount / o.give.amount ≤ maxGet r m := by
    have hlt : maxGive r m < maxGet r m * o.give.amount / o.get.amount := by
      by_contra hge
      exact absurd (hprice (not_lt.mp hge)) (not_le.mpr hcase)
    rw [lt_div_iff₀ hpos'] at hlt
    rw [div_le_iff₀ hpos]
    exact hlt.le
  exact (bcmul_bcdiv_le hg0 hg hget hpos ht htight).2

/-- Both amounts are on the grid and within what the two orders can exchange, and one of them is
all of it, if the amount that is derived from the GIVE side is less than half a unit above. -/
theorem fill_spec (hg : Fits (blk.scales.decimalsOf o.give.tick) (maxGive r m))
    (ht : Fits (blk.scales.decimalsOf o.get.tick) (maxGet r m)) (ht0 : 0 ≤ maxGet r m)
    (hderived : maxGive r m < bcmul (maxGet r m) o.getPrice 64 → bcmul (maxGive r m) o.givePrice 64 ≤
      maxGet r m + 47 / 100 * (1 / 10 ^ blk.scales.decimalsOf o.get.tick) + 1 / 10 ^ 20) :
    Within (blk.scales.decimalsOf o.give.tick) (maxGive r m) (computeFillAmounts blk o r m).giveAmount ∧
      Within (blk.scales.decimalsOf o.get.tick) (maxGet r m) (computeFillAmounts blk o r m).getAmount ∧
      ((computeFillAmounts blk o r m).giveAmount = maxGive r m ∨
        (computeFillAmounts blk o r m).getAmount = maxGet r m) := by
  have hd1 := decimalsOf_le blk.scales o.give.tick
  have hd2 := decimalsOf_le blk.scales o.get.tick
  have hu1 : (0 : ℚ) < 1 / 10 ^ blk.scales.decimalsOf o.give.tick := by positivity
  have hu2 : (0 : ℚ) < 1 / 10 ^ blk.scales.decimalsOf o.get.tick := by positivity
  unfold computeFillAmounts
  by_cases hcase : maxGive r m < bcmul (maxGet r m) o.getPrice 64
  · simp only [hcase, if_true]
    exact ⟨bcround_le hd1 hg0 hg0 hg (by linarith),
      bcround_le hd2 (derived_nonneg hgive hget hg0) ht0 ht (hderived hcase),
      .inl (bcround_of_fits hd1 hg0 hg)⟩
  · simp only [hcase, if_false]
    have hn : 0 ≤ bcmul (maxGet r m) o.getPrice 64 :=
      format_nonneg 64 (mul_nonneg ht0 (price_nonneg hgive hget))
    exact ⟨bcround_le hd1 hn hg0 hg (by linarith), bcround_le hd2 ht0 ht0 ht (by linarith),
      .inr (bcround_of_fits hd2 ht0 ht)⟩

end

/-- **The size of a fill.** A sound fill takes no more than either order has left on either side,
in amounts of the grid. -/
theorem fill_le (hs : FillSound blk.scales o r m) (hgive : 0 ≤ o.give.amount)
    (hget : 0 < o.get.amount) (ha : admits blk o r m) :
    AmountOk (blk.scales.decimalsOf o.give.tick) (maxGive r m) (computeFillAmounts blk o r m).giveAmount ∧
      AmountOk (blk.scales.decimalsOf o.get.tick) (maxGet r m) (computeFillAmounts blk o r m).getAmount := by
  obtain ⟨hz1, hz2⟩ := fill_pos ha
  have hbig : ∀ {d : ℕ} {x : ℚ}, Fits d x → x < 10 ^ 42 := fun hf => (le_abs_self _).trans_lt hf.2
  have hu : (0 : ℚ) < 1 / 10 ^ blk.scales.decimalsOf o.get.tick := by positivity
  obtain ⟨⟨_, hle1, hfits1⟩, ⟨_, hle2, hfits2⟩, _⟩ := fill_spec hgive hget.le (maxGive_pos ha).le
    hs.maxGive_fits hs.maxGet_fits (maxGet_pos ha).le fun hcase => by
      linarith [derived_le hgive hget.le (maxGive_pos ha).le (hbig hs.maxGive_fits) (hbig hs.maxGet_fits)
        hs.price hcase]
  exact ⟨⟨hz1, hle1, hfits1⟩, hz2, hle2, hfits2⟩

end

end XChainIndexer.Orders.Fill
