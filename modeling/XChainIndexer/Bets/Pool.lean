import XChainIndexer.Bets.Feeds
import XChainIndexer.Lib.SumOver

/-! # What an ending pays out

`balanced_settleFeed`: whatever the outcome, fee and number of winners, the credits of a settlement
are positive and add up to the stakes of the open bets. The payouts are rounded at 64 significant
digits before they are floored, so one of them can come out above its exact share; together they stay
below the pot, since their exact shares add up to it and the rounding adds less than a unit
(`sum_payouts_le`). -/

namespace XChainIndexer.Bets.Pool

open Lib.Decimal Lib.SumOver Bcmath List Bets.Feeds

variable {c : Ctx} {f : Feed}

/-- Stakes of the tick's grid that together stay in the ledger's range. -/
structure Stakes (c : Ctx) (d : ℕ) (bets : List Bet) : Prop where
  decimals : d ≤ 18
  onGrid : ∀ b ∈ bets, OnGrid d (value c b)
  pos : ∀ b ∈ bets, 0 < value c b
  range : (bets.map (value c)).sum < 10 ^ 42

/-- A fee the feed's check lets pass. -/
def FeeOk (c : Ctx) (f : Feed) : Prop := ∀ t ∈ f.fee, 0 ≤ c.js.bcnum t ∧ c.js.bcnum t ≤ maxFeedFee

/-! ### Sums of stakes -/

section Stakes

variable {d : ℕ} {bets : List Bet} (h : Stakes c d bets)
include h

theorem sum_nonneg : 0 ≤ (bets.map (value c)).sum :=
  List.sum_nonneg fun x hx => by
    obtain ⟨b, hb, rfl⟩ := mem_map.mp hx
    exact (h.pos b hb).le

theorem onGrid_stakes : OnGrid d (bets.map (value c)).sum :=
  onGrid_sum fun x hx => by
    obtain ⟨b, hb, rfl⟩ := mem_map.mp hx
    exact h.onGrid b hb

theorem fits_stakes : Fits d (bets.map (value c)).sum :=
  ⟨onGrid_stakes h, by rw [abs_of_nonneg (sum_nonneg h)]; exact h.range⟩

theorem pool_eq : pool c d bets = (bets.map (value c)).sum := by
  unfold pool
  rw [← foldl_bcadd h.decimals _ (h.range.trans (by norm_num)), foldl_map]
  intro x hx
  obtain ⟨b, hb, rfl⟩ := mem_map.mp hx
  exact ⟨h.onGrid b hb, (h.pos b hb).le⟩

theorem value_le_sum {b : Bet} (hb : b ∈ bets) : value c b ≤ (bets.map (value c)).sum :=
  single_le_sum (fun x hx => by
    obtain ⟨b', hb', rfl⟩ := mem_map.mp hx
    exact (h.pos b' hb').le) _ (mem_map_of_mem hb)

theorem Stakes.filter (p : Bet → Bool) : Stakes c d (bets.filter p) where
  decimals := h.decimals
  onGrid b hb := h.onGrid b (mem_of_mem_filter hb)
  pos b hb := h.pos b (mem_of_mem_filter hb)
  range := by
    refine (List.Sublist.sum_le_sum (filter_sublist.map _) fun x hx => ?_).trans_lt h.range
    obtain ⟨b, hb, rfl⟩ := mem_map.mp hx
    exact (h.pos b hb).le

theorem releases_sum : ((releases c f bets).map (·.amount)).sum = -(bets.map (value c)).sum := by
  unfold releases
  rw [map_map, sum_neg, map_map]
  congr 1
  refine map_congr_left fun b hb => ?_
  have hlt : |0 - value c b| < 10 ^ 46 := by
    rw [zero_sub, abs_neg, abs_of_pos (h.pos b hb)]
    exact ((value_le_sum h hb).trans_lt h.range).trans (by norm_num)
  have heq := format_of_onGrid (e := 64) ((onGrid_zero d).sub (h.onGrid b hb)) h.decimals
    (h.decimals.trans (by norm_num)) hlt
  simpa [bcsub] using heq

end Stakes

/-! ### Fee, pot and payouts -/

theorem feeFraction_spec (hf : FeeOk c f) : 0 ≤ bcdiv ((f.fee.map c.js.bcnum).getD 0) 100 4 ∧
      bcdiv ((f.fee.map c.js.bcnum).getD 0) 100 4 ≤ 1 := by
  have hpct : 0 ≤ (f.fee.map c.js.bcnum).getD 0 ∧ (f.fee.map c.js.bcnum).getD 0 ≤ maxFeedFee := by
    cases hfee : f.fee with
    | none => exact ⟨le_rfl, by norm_num [maxFeedFee]⟩
    | some t => exact hf t hfee
  generalize (f.fee.map c.js.bcnum).getD 0 = pct at hpct
  have h0 : 0 ≤ pct / 100 := div_nonneg hpct.1 (by norm_num)
  have h1 : pct / 100 ≤ 1 := by
    have := hpct.2
    unfold maxFeedFee at this
    linarith
  have hone : OnGrid 4 (1 : ℚ) := onGrid_iff.mpr ⟨10 ^ 4, by norm_num⟩
  refine ⟨format_nonneg 4 h0, format_le_of_onGrid hone (by norm_num) le_rfl ?_ h1⟩
  rw [abs_of_nonneg h0]
  exact h1.trans_lt (by norm_num)

section Winners

variable {d : ℕ} {winners : List Bet} {pot : ℚ} (h : Stakes c d winners) (hpot : Fits d pot)
  (hpot0 : 0 ≤ pot) (hw : 0 < (winners.map (value c)).sum)
include h hpot hpot0 hw

theorem payout_spec {b : Bet} (hb : b ∈ winners) :
    Fits d (bcmuldivfloor (value c b) pot (winners.map (value c)).sum d) ∧
      0 ≤ bcmuldivfloor (value c b) pot (winners.map (value c)).sum d ∧
      bcmuldivfloor (value c b) pot (winners.map (value c)).sum d ≤
        value c b * (pot / (winners.map (value c)).sum * (1 + 1 / 10 ^ 62)) := by
  have hle : value c b * pot / (winners.map (value c)).sum ≤ pot := by
    rw [div_le_iff₀ hw, mul_comm pot]
    exact mul_le_mul_of_nonneg_right (value_le_sum h hb) hpot0
  obtain ⟨h0, -, hfits, hmul⟩ := bcmuldivfloor_le h.decimals (mul_nonneg (h.pos b hb).le hpot0) hw
    hpot0 hpot hle
  exact ⟨hfits, h0, hmul.trans_eq (by ring)⟩

/-- **Flooring keeps the payouts within the pot.** -/
theorem sum_payouts_le : ((payouts c f d pot (winners.map (value c)).sum winners).map (·.amount)).sum ≤ pot ∧
      OnGrid d ((payouts c f d pot (winners.map (value c)).sum winners).map (·.amount)).sum := by
  have hspec := fun b hb => payout_spec h hpot hpot0 hw (b := b) hb
  have hsum : ((payouts c f d pot (winners.map (value c)).sum winners).map (·.amount)).sum =
      (winners.map fun b => bcmuldivfloor (value c b) pot (winners.map (value c)).sum d).sum := by
    unfold payouts
    rw [sum_filter_pos, map_map]
    · rfl
    · intro e he
      obtain ⟨b, hb, rfl⟩ := mem_map.mp he
      exact (hspec b hb).2.1
  have hgrid : OnGrid d
      (winners.map fun b => bcmuldivfloor (value c b) pot (winners.map (value c)).sum d).sum :=
    onGrid_sum fun x hx => by
      obtain ⟨b, hb, rfl⟩ := mem_map.mp hx
      exact (hspec b hb).1.1
  have hbound : (winners.map fun b => bcmuldivfloor (value c b) pot (winners.map (value c)).sum d).sum
      ≤ pot * (1 + 1 / 10 ^ 62) := by
    calc _ ≤ (winners.map fun b =>
          value c b * (pot / (winners.map (value c)).sum * (1 + 1 / 10 ^ 62))).sum :=
          sum_le_sum fun b hb => (hspec b hb).2.2
      _ = (winners.map (value c)).sum * (pot / (winners.map (value c)).sum * (1 + 1 / 10 ^ 62)) := by
          rw [sum_map_mul_right]
      _ = pot * (1 + 1 / 10 ^ 62) := by rw [← mul_assoc, mul_div_cancel₀ _ hw.ne']
  rw [hsum]
  exact ⟨le_of_le_mul h.decimals hgrid hpot hbound, hgrid⟩

theorem paid_eq : (payouts c f d pot (winners.map (value c)).sum winners).foldl
      (fun sum e => bcadd sum e.amount d) 0 =
    ((payouts c f d pot (winners.map (value c)).sum winners).map (·.amount)).sum := by
  have hle := (sum_payouts_le (f := f) h hpot hpot0 hw).1
  have hlt := (le_abs_self pot).trans_lt hpot.2
  rw [← foldl_bcadd h.decimals _ ((hle.trans_lt hlt).trans (by norm_num)), foldl_map]
  intro x hx
  obtain ⟨e, he, rfl⟩ := mem_map.mp hx
  obtain ⟨b, hb, rfl⟩ := mem_map.mp (mem_of_mem_filter he)
  exact ⟨(payout_spec h hpot hpot0 hw hb).1.1, (payout_spec h hpot hpot0 hw hb).2.1⟩

end Winners

section Entries

variable {d : ℕ} {winners : List Bet} {pot W : ℚ} {x : Entry}

theorem pos_of_mem_payouts (hx : x ∈ payouts c f d pot W winners) : 0 < x.amount :=
  of_decide_eq_true (mem_filter.mp hx).2

theorem sum_payouts_nonneg : 0 ≤ ((payouts c f d pot W winners).map (·.amount)).sum :=
  List.sum_nonneg fun x hx => by
    obtain ⟨e, he, rfl⟩ := List.mem_map.mp hx
    exact (pos_of_mem_payouts he).le

theorem feed_of_mem_payouts (hx : x ∈ payouts c f d pot W winners) : x.feed = f.action_index := by
  obtain ⟨b, -, rfl⟩ := mem_map.mp (mem_of_mem_filter hx)
  rfl

theorem feed_of_mem_releases (hx : x ∈ releases c f winners) : x.feed = f.action_index := by
  obtain ⟨b, -, rfl⟩ := mem_map.mp hx
  rfl

theorem bets_of_map (entry : Bet → Entry) (h : ∀ b, (entry b).bet = some b.action_index) :
    (winners.map entry).filterMap (·.bet) = winners.map (·.action_index) := by
  rw [filterMap_map, ← filterMap_eq_map]
  exact filterMap_congr fun b _ => h b

theorem bets_of_payouts :
    ((payouts c f d pot W winners).filterMap (·.bet)).Sublist (winners.map (·.action_index)) := by
  refine (filter_sublist.filterMap _).trans ?_
  rw [bets_of_map _ fun _ => rfl]

end Entries

/-! ### Endings -/

/-- What every ending of a feed does to the open bets: they leave `open`, their escrow is released
and credits of the same sum are pushed, at most one for a bet. -/
structure Balanced (c : Ctx) (f : Feed) (openBets : List Bet) (e : Ending) : Prop where
  terminal : e.status ≠ .open ∧ e.status ≠ .closed ∧ e.status ≠ .invalid
  flip : ∀ b, e.flip b ≠ .open ∧ e.flip b ≠ .invalid
  credits_sum : (e.credits.map (·.amount)).sum = (openBets.map (value c)).sum
  credits_pos : ∀ x ∈ e.credits, 0 < x.amount
  credits_feed : ∀ x ∈ e.credits, x.feed = f.action_index
  credits_bet : (e.credits.filterMap (·.bet)).Sublist (openBets.map (·.action_index))
  escrows_sum : (e.escrows.map (·.amount)).sum = -(openBets.map (value c)).sum
  escrows_feed : ∀ x ∈ e.escrows, x.feed = f.action_index

theorem balanced_refundOpenBets {d : ℕ} {openBets : List Bet} (h : Stakes c d openBets)
    {terminal : FeedStatus}
    (ht : terminal ≠ .open ∧ terminal ≠ .closed ∧ terminal ≠ .invalid) :
    Balanced c f openBets (refundOpenBets c f openBets terminal) where
  terminal := ht
  flip _ := ⟨nofun, nofun⟩
  credits_sum := by
    unfold refundOpenBets
    rw [map_map]
    rfl
  credits_pos x hx := by
    obtain ⟨b, hb, rfl⟩ := mem_map.mp hx
    exact h.pos b hb
  credits_feed x hx := by
    obtain ⟨b, -, rfl⟩ := mem_map.mp hx
    rfl
  credits_bet := by
    unfold refundOpenBets
    rw [bets_of_map _ fun _ => rfl]
  escrows_sum := releases_sum h
  escrows_feed _ := feed_of_mem_releases

section Pool

variable {d winning : ℕ} {openBets : List Bet} (h : Stakes c d openBets) (hf : FeeOk c f)
include h hf

theorem oracleFee_spec : 0 ≤ oracleFee c f d (openBets.map (value c)).sum ∧
    oracleFee c f d (openBets.map (value c)).sum ≤ (openBets.map (value c)).sum ∧
    Fits d (oracleFee c f d (openBets.map (value c)).sum) := by
  obtain ⟨h0, h1⟩ := feeFraction_spec hf
  obtain ⟨hfee0, hle, hfits, -⟩ := bcmulfloor_le h.decimals (mul_nonneg (sum_nonneg h) h0)
    (sum_nonneg h) (fits_stakes h) (mul_le_of_le_one_right (sum_nonneg h) h1)
  exact ⟨hfee0, hle, hfits⟩

theorem fits_pot : Fits d ((openBets.map (value c)).sum - oracleFee c f d (openBets.map (value c)).sum) ∧
      0 ≤ (openBets.map (value c)).sum - oracleFee c f d (openBets.map (value c)).sum := by
  obtain ⟨hfee0, hfeele, hfee⟩ := oracleFee_spec h hf
  have hpot0 := sub_nonneg.mpr hfeele
  refine ⟨⟨(onGrid_stakes h).sub hfee.1, ?_⟩, hpot0⟩
  rw [abs_of_nonneg hpot0]
  exact (sub_le_self _ hfee0).trans_lt h.range

/-- The fee and the dust the floored payouts leave together are what they leave of the stakes. -/
theorem oracleCredit_eq {paid : ℚ} (hgrid : OnGrid d paid) (h0 : 0 ≤ paid)
    (hle : paid ≤ (openBets.map (value c)).sum - oracleFee c f d (openBets.map (value c)).sum) :
    bcadd (oracleFee c f d (openBets.map (value c)).sum)
      (bcsub ((openBets.map (value c)).sum - oracleFee c f d (openBets.map (value c)).sum) paid d) d =
    (openBets.map (value c)).sum - paid := by
  obtain ⟨hfee0, hfeele, hfee⟩ := oracleFee_spec h hf
  have hpot := (fits_pot h hf).1
  have hrange := h.range
  rw [bcsub_of_onGrid h.decimals hpot.1 hgrid, bcadd_of_onGrid h.decimals hfee.1 (hpot.1.sub hgrid)]
  · ring
  · rw [abs_of_nonneg (by linarith)]
    linarith
  · rw [abs_of_nonneg (by linarith)]
    linarith

/-- **Fee, payouts and dust add up to the stakes.** -/
theorem balanced_settleWinningPool (hw : 0 < ((openBets.filter (·.outcome = winning)).map (value c)).sum) :
    Balanced c f openBets (settleWinningPool c f d winning openBets (openBets.map (value c)).sum
      ((openBets.filter (·.outcome = winning)).map (value c)).sum) := by
  have hwin := h.filter (·.outcome = winning)
  obtain ⟨hpot, hpot0⟩ := fits_pot h hf
  obtain ⟨hpaid, hgrid⟩ := sum_payouts_le hwin hpot hpot0 hw
  unfold settleWinningPool
  dsimp only
  obtain ⟨hfee0, -, hfee⟩ := oracleFee_spec h hf
  rw [bcsub_of_fits (fits_stakes h) hfee h.decimals le_rfl, paid_eq hwin hpot hpot0 hw,
    oracleCredit_eq h hf hgrid sum_payouts_nonneg hpaid]
  refine ⟨⟨nofun, nofun, nofun⟩, fun b => ?_, ?_, ?_, ?_, ?_, releases_sum h, fun _ => feed_of_mem_releases⟩
  · dsimp only
    split_ifs <;> exact ⟨nofun, nofun⟩
  · rw [map_append, sum_append]
    split_ifs with hcredit
    · rw [map_singleton, sum_singleton]
      ring
    · rw [map_nil, sum_nil]
      linarith
  · intro x hx
    rcases mem_append.mp hx with hx | hx
    · exact pos_of_mem_payouts hx
    · split_ifs at hx with hcredit
      · obtain rfl := mem_singleton.mp hx
        exact hcredit
      · exact nomatch hx
  · intro x hx
    rcases mem_append.mp hx with hx | hx
    · exact feed_of_mem_payouts hx
    · split_ifs at hx
      · obtain rfl := mem_singleton.mp hx
        rfl
      · exact nomatch hx
  · -- the oracle's record carries no bet
    rw [filterMap_append]
    refine List.Sublist.trans ?_ ((filter_sublist (p := (·.outcome = winning))).map _)
    split_ifs
    · rw [filterMap_cons_none rfl, filterMap_nil, append_nil]
      exact bets_of_payouts
    · rw [filterMap_nil, append_nil]
      exact bets_of_payouts

/-- **Every settlement is balanced.** -/
theorem balanced_settleFeed (hd : d = c.decimals f.tick) {e : Ending}
    (he : settleFeed c f winning openBets = some e) : Balanced c f openBets e := by
  subst hd
  unfold settleFeed at he
  dsimp only at he
  split_ifs at he with hrange hw
  · obtain ⟨⟩ := he
    rw [pool_eq (h.filter _)] at hw
    rw [pool_eq h, pool_eq (h.filter _)]
    exact balanced_settleWinningPool h hf hw
  · obtain ⟨⟩ := he
    exact balanced_refundOpenBets h ⟨nofun, nofun, nofun⟩

end Pool

end XChainIndexer.Bets.Pool
