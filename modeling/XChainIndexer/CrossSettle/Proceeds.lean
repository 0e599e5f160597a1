import XChainIndexer.CrossSettle.Legs
import XChainIndexer.Lib.SumOver

/-! # The proceeds of a release

`applyProceedsSplit` of `utility/ledger.js` replaces one credit by the seller's remainder and one credit
per leg. `proceeds_split` says that the credits are amounts of the grid that add up to the proceeds and
that each leg takes its share floored; `proceedsCredits_spec` says the first of it for a release. -/

namespace XChainIndexer.CrossSettle.Proceeds

open Lib.Decimal Lib.SumOver Bcmath List Tokens CrossSettle.Legs

section Split

variable {d : ℕ} {p : ℚ} (hd : d ≤ 18) (hp : Fits d p) (hp0 : 0 ≤ p)
include hd hp hp0

theorem legAmount_spec {bps : ℕ} (hb : bps ≤ 10000) :
    0 ≤ legAmount p d bps ∧ Fits d (legAmount p d bps) ∧ legAmount p d bps ≤ p * bps / 10000 ∧
      p * bps / 10000 < legAmount p d bps + 1 / 10 ^ d := by
  have hb0 : (0 : ℚ) ≤ bps := by positivity
  have hb1 : (bps : ℚ) ≤ 10000 := by exact_mod_cast hb
  have hpos : (0 : ℚ) < 10 ^ d := by positivity
  have hgrid : OnGrid d (p * bps) ∧ OnGrid (d + 4) (p * bps * (1 / 10000)) := by
    obtain ⟨k, rfl⟩ := onGrid_iff.mp hp.1
    refine ⟨onGrid_iff.mpr ⟨k * bps, by push_cast; ring⟩, onGrid_iff.mpr ⟨k * bps, ?_⟩⟩
    push_cast
    ring
  have hp1 := hp.2
  rw [abs_of_nonneg hp0] at hp1
  have hlt : |p * bps| < 10 ^ 46 := by
    rw [abs_of_nonneg (mul_nonneg hp0 hb0)]
    calc p * bps ≤ p * 10000 := mul_le_mul_of_nonneg_left hb1 hp0
      _ < 10 ^ 42 * 10000 := mul_lt_mul_of_pos_right hp1 (by norm_num)
      _ = 10 ^ 46 := by norm_num
  have hle : p * bps * (1 / 10000) ≤ p := by
    have := mul_le_mul_of_nonneg_left hb1 hp0
    linarith
  have hexact0 : 0 ≤ p * bps * (1 / 10000) := by positivity
  have heq : legAmount p d bps = ⌊p * bps * (1 / 10000) * 10 ^ d⌋ / 10 ^ d := by
    unfold legAmount bcmul
    rw [format_of_onGrid hgrid.1 hd (Nat.le_add_right d 4) hlt]
    exact bcmulfloor_of_onGrid hd (Nat.le_add_right d 4) (by omega) hgrid.2 hexact0 (hle.trans_lt hp1)
  have h0 : 0 ≤ legAmount p d bps := by
    rw [heq]
    exact div_nonneg (by exact_mod_cast Int.floor_nonneg.mpr (mul_nonneg hexact0 hpos.le)) hpos.le
  have hlow : legAmount p d bps ≤ p * bps * (1 / 10000) := by
    rw [heq, div_le_iff₀ hpos]
    exact Int.floor_le _
  refine ⟨h0, ⟨heq ▸ onGrid_iff.mpr ⟨_, rfl⟩, ?_⟩, hlow.trans_eq (by ring), ?_⟩
  · rw [abs_of_nonneg h0]
    exact (hlow.trans hle).trans_lt hp1
  · rw [heq, ← add_div, lt_div_iff₀ hpos]
    exact (Int.lt_floor_add_one _).trans_eq' (by ring)

/-- **The legs stay within the proceeds.** -/
theorem sum_legAmounts_le {shares : List ℕ} (hs : shares.sum ≤ 10000) :
    (shares.map (legAmount p d)).sum ≤ p ∧ OnGrid d (shares.map (legAmount p d)).sum := by
  have hspec : ∀ bps ∈ shares, _ := fun bps hbps =>
    legAmount_spec hd hp hp0 ((single_le_sum (by simp) bps hbps).trans hs)
  refine ⟨?_, onGrid_sum fun x hx => ?_⟩
  · calc (shares.map (legAmount p d)).sum
        ≤ (shares.map fun bps : ℕ => (bps : ℚ) * (p / 10000)).sum :=
          sum_le_sum fun bps hbps => (hspec bps hbps).2.2.1.trans_eq (by ring)
      _ = (shares.sum : ℚ) * (p / 10000) := by
          rw [sum_map_mul_right]
          exact congrArg (· * (p / 10000)) (map_list_sum (Nat.castRingHom ℚ) shares).symm
      _ ≤ 10000 * (p / 10000) :=
          mul_le_mul_of_nonneg_right (by exact_mod_cast hs) (by positivity)
      _ = p := by ring
  · obtain ⟨bps, hbps, rfl⟩ := mem_map.mp hx
    exact (hspec bps hbps).2.1.1

theorem split_spec {address : ℕ} {legs : List (ℕ × ℕ)} (hs : (legs.map (·.2)).sum ≤ 10000) :
    (∀ q ∈ split p address d legs, 0 ≤ q.1 ∧ Fits d q.1) ∧ ((split p address d legs).map (·.1)).sum = p := by
  obtain ⟨hle, hgrid⟩ := sum_legAmounts_le hd hp hp0 hs
  rw [map_map] at hle hgrid
  set out := (legs.map fun l => (legAmount p d l.2, l.1)).filter fun q => 0 < q.1 with hout
  have hmem : ∀ q ∈ legs.map fun l => (legAmount p d l.2, l.1), 0 ≤ q.1 ∧ Fits d q.1 := by
    intro q hq
    obtain ⟨l, hl, rfl⟩ := mem_map.mp hq
    have hbps : l.2 ≤ 10000 :=
      (single_le_sum (by simp) l.2 (mem_map_of_mem hl)).trans hs
    obtain ⟨h0, hfits, -⟩ := legAmount_spec hd hp hp0 hbps
    exact ⟨h0, hfits⟩
  have hsum : (out.map (·.1)).sum = (legs.map (legAmount p d ∘ (·.2))).sum := by
    rw [sum_filter_pos _ fun q hq => (hmem q hq).1, map_map]
    rfl
  rw [← hsum] at hle hgrid
  have hp1 := hp.2
  rw [abs_of_nonneg hp0] at hp1
  have hpos : 0 ≤ (out.map (·.1)).sum := sum_nonneg fun x hx => by
    obtain ⟨q, hq, rfl⟩ := mem_map.mp hx
    exact (hmem q (mem_of_mem_filter hq)).1
  have hdist : out.foldl (fun sum q => bcadd sum q.1 d) 0 = (out.map (·.1)).sum := by
    rw [← foldl_bcadd hd _ ((hle.trans_lt hp1).trans (by norm_num)), foldl_map]
    intro x hx
    obtain ⟨q, hq, rfl⟩ := mem_map.mp hx
    have := hmem q (mem_of_mem_filter hq)
    exact ⟨this.2.1, this.1⟩
  have hrest : bcsub p (out.map (·.1)).sum d = p - (out.map (·.1)).sum :=
    bcsub_of_fits hp ⟨hgrid, by rw [abs_of_nonneg hpos]; exact hle.trans_lt hp1⟩ hd le_rfl
  have hsplit : split p address d legs = (p - (out.map (·.1)).sum, address) :: out := by
    unfold split
    dsimp only
    rw [hdist, hrest]
  rw [hsplit]
  refine ⟨fun q hq => ?_, by simp⟩
  rcases mem_cons.mp hq with rfl | hq
  · refine ⟨sub_nonneg.mpr hle, hp.1.sub hgrid, ?_⟩
    rw [abs_of_nonneg (sub_nonneg.mpr hle)]
    exact (sub_le_self p hpos).trans_lt hp1
  · exact hmem q (mem_of_mem_filter hq)

end Split

/-! ### The split of one credit -/

/-- The decimals of the proceeds' tick, eight by default. -/
def splitDecimals : Option ℤ → ℕ
  | some d => if 0 ≤ d then d.toNat else 8
  | none => 8

/-- The most that the legs may take together. -/
def takeCap : Option ℤ → ℕ
  | some cap => if 0 ≤ cap ∧ cap ≤ 10000 then cap.toNat else 10000
  | none => 10000

/-- The legs that validation accepts, of what was stored (nothing, if that is no list). -/
def acceptedShares (legs : Option (List PayoutLeg)) (maxTakeBps : Option ℤ) : Option (List (ℕ × ℕ)) :=
  (legs.bind legBps).filter fun shares =>
    shares ≠ [] ∧ (shares.map (·.2)).sum ≤ takeCap maxTakeBps ∧ (shares.map (·.2)).sum ≤ 10000

def applyProceedsSplit (proceeds : ℚ) (seller : ℕ) (legs : Option (List PayoutLeg))
    (decimals maxTakeBps : Option ℤ) : List (ℚ × ℕ) :=
  match acceptedShares legs maxTakeBps with
  | some shares =>
    if 0 < proceeds then split proceeds seller (splitDecimals decimals) shares
    else [(proceeds, seller)]
  | none => [(proceeds, seller)]

/-- **The split of the proceeds.** The credits are amounts of the grid that add up to the proceeds.
The remainder is the seller's, and every other credit is the floored share of a leg, less than a unit
below the part that the integer read from its basis points stands for. -/
theorem proceeds_split {p : ℚ} {legs : Option (List PayoutLeg)} {decimals maxTakeBps : Option ℤ}
    {shares : List (ℕ × ℕ)} (seller : ℕ) (hd : splitDecimals decimals ≤ 18)
    (hp : Fits (splitDecimals decimals) p) (hp0 : 0 ≤ p)
    (hshares : acceptedShares legs maxTakeBps = some shares) :
    let d := splitDecimals decimals
    let credits := applyProceedsSplit p seller legs decimals maxTakeBps
    (∀ q ∈ credits, 0 ≤ q.1 ∧ OnGrid d q.1) ∧ (credits.map (·.1)).sum = p ∧
      (∃ rest, credits =
        (rest, seller) :: (shares.map fun l => (legAmount p d l.2, l.1)).filter (0 < ·.1)) ∧
      ∀ l ∈ shares, legAmount p d l.2 ≤ p * l.2 / 10000 ∧
        p * l.2 / 10000 < legAmount p d l.2 + 1 / 10 ^ d := by
  intro d credits
  have hs : (shares.map (·.2)).sum ≤ 10000 :=
    (of_decide_eq_true (Option.filter_eq_some_iff.mp hshares).2).2.2
  have hleg : ∀ l ∈ shares, _ := fun l hl =>
    legAmount_spec hd hp hp0 ((single_le_sum (by simp) l.2 (mem_map_of_mem hl)).trans hs)
  have hcredits : credits = if 0 < p then split p seller d shares else [(p, seller)] := by
    unfold credits applyProceedsSplit
    rw [hshares]
  have hspec : (∀ q ∈ split p seller d shares, _) ∧ _ := split_spec hd hp hp0 hs
  rcases hp0.lt_or_eq with hpos | rfl
  · rw [hcredits, if_pos hpos]
    exact ⟨fun q hq => ⟨(hspec.1 q hq).1, (hspec.1 q hq).2.1⟩, hspec.2, ⟨_, rfl⟩,
      fun l hl => (hleg l hl).2.2⟩
  · -- nothing to split: every share is nothing
    rw [hcredits, if_neg (lt_irrefl 0)]
    refine ⟨by simpa using hp.1, by simp, ⟨0, ?_⟩, fun l hl => (hleg l hl).2.2⟩
    rw [filter_eq_nil_iff.mpr]
    intro q hq
    obtain ⟨l, hl, rfl⟩ := mem_map.mp hq
    simpa using (hleg l hl).2.2.1

/-- A third of ten units, and a leg of nothing. -/
theorem proceeds_split_third :
    ((applyProceedsSplit 10 1 (some [⟨some 2, "3333".toList⟩, ⟨some 3, "0".toList⟩]) (some 0) none).map
      (·.1)).sum = 10 ∧
    applyProceedsSplit 10 1 (some [⟨some 2, "3333".toList⟩, ⟨some 3, "0".toList⟩]) (some 0) none =
      [(7, 1), (3, 2)] := by
  have hshares : acceptedShares (some [⟨some 2, "3333".toList⟩, ⟨some 3, "0".toList⟩]) none =
      some [(2, 3333), (3, 0)] := by decide +kernel
  exact ⟨(proceeds_split 1 (by decide) (by decide +kernel) (by norm_num) hshares).2.1,
    by decide +kernel⟩

/-- **A share is read up to its point or exponent.** Of 10000 units a leg of `1e3` basis points, a
tenth, takes one unit, and of 100000 units a leg of `12.5` takes 120 for 125. -/
theorem shares_cut_short :
    Numerals.number "12.5".toList = some (25 / 2) ∧
      applyProceedsSplit 100000 1 (some [⟨some 2, "12.5".toList⟩]) (some 0) none =
        [(99880, 1), (120, 2)] ∧
      applyProceedsSplit 10000 1 (some [⟨some 2, "1e3".toList⟩]) (some 0) none = [(9999, 1), (1, 2)] :=
  ⟨by decide +kernel, by decide +kernel, by decide +kernel⟩

/-- **The proceeds of a release are the release.** -/
theorem proceedsCredits_spec {c : Ctx} {m : Match} {leg : Leg} {tick : ℕ} {amount : ℚ}
    (ht : leg.giveTick = some tick) (hfits : Fits (c.decimals tick) amount) (h0 : 0 ≤ amount) :
    (∀ q ∈ proceedsCredits c m leg amount, 0 ≤ q.1 ∧ Fits (c.decimals tick) q.1) ∧
      ((proceedsCredits c m leg amount).map (·.1)).sum = amount := by
  have hfull : (∀ q ∈ [(amount, leg.payoutAddr)], 0 ≤ q.1 ∧ Fits (c.decimals tick) q.1) ∧
      ([(amount, leg.payoutAddr)].map (·.1)).sum = amount := by
    simp [h0, hfits]
  unfold proceedsCredits
  rw [ht]
  split
  · split
    · split_ifs with hs
      · rename_i heq _ _ _
        cases heq
        exact split_spec (c.decimals_le tick) hfits h0 hs.2.2
      · exact hfull
    · exact hfull
  · exact hfull

end XChainIndexer.CrossSettle.Proceeds
