import XChainIndexer.Votes.PollTally

/-! # Quorum and early decision against the exact fractions

The turnout and the leading option's share are quotients rounded half up to 18 decimals before they
are compared with the poll's quorum and decide threshold. So a fraction passes from half a unit of the
last decimal below the threshold on (`le_fraction_iff`), and the two tests are right unless the exact
fraction lies in that gap (`thresholds_exact`), where they can pass below the threshold
(`rounded_up_to_half`). -/

namespace XChainIndexer.Votes.Thresholds

open Lib.Decimal Bcmath Votes.PollTally

/-- The exact fraction of a supply. -/
def share (weight supply : ℚ) : ℚ := if 0 < supply then weight / supply else 0

/-- Half a unit of the 18th decimal below the threshold, which is itself taken up to 18 decimals. -/
def slackened (threshold : ℚ) : ℚ := (⌈threshold * 10 ^ 18⌉ - 1 / 2) / 10 ^ 18

/-- Below the threshold by at most the last digit. -/
def JustBelow (threshold x : ℚ) : Prop := slackened threshold ≤ x ∧ x < threshold

instance (threshold x : ℚ) : Decidable (JustBelow threshold x) := by
  unfold JustBelow; infer_instance

/-- The largest supply of a token. -/
def MAX_TOKEN_SUPPLY : ℚ := 10 ^ 21

section
variable {weight supply threshold : ℚ}

theorem onGrid_slackened (threshold : ℚ) : OnGrid 19 (slackened threshold) :=
  onGrid_iff.mpr ⟨10 * ⌈threshold * 10 ^ 18⌉ - 5, by rw [slackened]; push_cast; ring⟩

theorem slackened_pos (h : 0 < threshold) : 0 < slackened threshold := by
  have hceil : (1 : ℚ) ≤ ⌈threshold * 10 ^ 18⌉ := by
    exact_mod_cast Int.one_le_ceil_iff.mpr (mul_pos h (by norm_num))
  rw [slackened]
  exact div_pos (sub_pos.mpr (lt_of_lt_of_le (by norm_num) hceil)) (by norm_num)

theorem slackened_lt (h : threshold ≤ 2) : slackened threshold < 3 := by
  have hceil := Int.ceil_lt_add_one (threshold * 10 ^ 18)
  rw [slackened, div_lt_iff₀ (by norm_num), sub_lt_iff_lt_add]
  exact hceil.trans (by linarith)

variable (hw : OnGrid 18 weight) (hs : OnGrid 18 supply) (hmax : supply ≤ MAX_TOKEN_SUPPLY)
include hw hs hmax

/-- A fraction below the bound misses it by a unit of the product of the grids. -/
theorem add_unit_le (hpos : 0 < supply) (hlt : weight / supply < slackened threshold) :
    weight / supply + 1 / 10 ^ 58 ≤ slackened threshold := by
  obtain ⟨a, rfl⟩ := onGrid_iff.mp hw
  obtain ⟨s, rfl⟩ := onGrid_iff.mp hs
  obtain ⟨m, hm⟩ := onGrid_iff.mp (onGrid_slackened threshold)
  rw [hm] at hlt ⊢
  have hs0 : (0 : ℚ) < s := (div_pos_iff_of_pos_right (by norm_num)).mp hpos
  have hs39 : (s : ℚ) ≤ 10 ^ 39 := by
    rw [MAX_TOKEN_SUPPLY, div_le_iff₀ (by norm_num)] at hmax
    linarith
  rw [div_div_div_cancel_right₀ (by norm_num)] at hlt ⊢
  -- in whole units the two sides differ by one at least
  have hint : a * 10 ^ 19 + 1 ≤ m * s := by
    rw [div_lt_div_iff₀ hs0 (by norm_num)] at hlt
    exact_mod_cast hlt
  have hrat : (a : ℚ) * 10 ^ 19 + 1 ≤ m * s := by exact_mod_cast hint
  have hunit : (1 : ℚ) / 10 ^ 58 ≤ 1 / (s * 10 ^ 19) :=
    one_div_le_one_div_of_le (by positivity) (by linarith)
  calc (a : ℚ) / s + 1 / 10 ^ 58 ≤ (a : ℚ) / s + 1 / (s * 10 ^ 19) := by linarith
    _ = ((a : ℚ) * 10 ^ 19 + 1) / (s * 10 ^ 19) := by field_simp
    _ ≤ (m : ℚ) * s / (s * 10 ^ 19) := div_le_div_of_nonneg_right hrat (by positivity)
    _ = (m : ℚ) / 10 ^ 19 := by field_simp

/-- The rounding to 64 digits does not carry a fraction over the bound. -/
theorem slackened_le_toSignificant_iff (hpos : 0 < supply) (h0 : 0 < threshold) (h2 : threshold ≤ 2) :
    slackened threshold ≤ toSignificant precision (weight / supply) ↔
      slackened threshold ≤ weight / supply := by
  have hb0 := slackened_pos h0
  have hb3 := slackened_lt h2
  constructor
  · intro h
    by_contra hlt
    push Not at hlt
    have hunit := add_unit_le hw hs hmax hpos hlt
    rcases le_total 0 (weight / supply) with hx | hx
    · have hsig := toSignificant_le (p := precision) hx
      unfold precision at hsig h
      linarith
    · have hneg := toSignificant_nonneg precision (neg_nonneg.mpr hx)
      rw [toSignificant_neg] at hneg
      linarith
  · intro h
    rcases lt_or_ge (weight / supply) 10 with hx | hx
    · refine le_toSignificant (onGrid_slackened threshold) ?_ h
      rw [abs_of_nonneg (hb0.le.trans h)]
      exact hx.trans (by norm_num [precision])
    · have hten := pow_le_toSignificant (p := precision) (k := 1) (by decide) (by linarith)
      linarith

/-- **The rounded test.** -/
theorem le_fraction_iff (h0 : 0 < threshold) (h2 : threshold ≤ 2) :
    threshold ≤ fraction weight supply ↔ slackened threshold ≤ share weight supply := by
  unfold fraction share
  split_ifs with hpos
  · rw [bcdiv, if_neg hpos.ne', format, ← slackened_le_toSignificant_iff hw hs hmax hpos h0 h2]
    have hceil : 0 < ⌈threshold * 10 ^ 18⌉ := Int.ceil_pos.mpr (mul_pos h0 (by norm_num))
    rw [slackened, ← le_toFixed_iff hceil]
    obtain ⟨k, hk⟩ := onGrid_iff.mp (onGrid_toFixed 18 (toSignificant precision (weight / supply)))
    rw [hk, div_le_div_iff_of_pos_right (by norm_num), Int.cast_le, Int.ceil_le,
      le_div_iff₀ (by norm_num)]
  · exact ⟨fun h => absurd h (not_le.mpr h0), fun h => absurd h (not_le.mpr (slackened_pos h0))⟩

omit hw hs hmax in
/-- Passing the rounded test means reaching the threshold, unless the fraction is just below it. -/
theorem passes_iff {x : ℚ} {test : Prop} (h : test ↔ slackened threshold ≤ x) :
    (test → threshold ≤ x) ↔ ¬JustBelow threshold x := by
  rw [h, JustBelow, not_and, not_lt]

end

/-! ### The weights are written at 18 decimals -/

/-- Every weight counted so far. -/
def Written (k : Counted) : Prop := OnGrid 18 k.totalCountedWeight ∧ ∀ w ∈ k.totals, OnGrid 18 w

theorem written_addPortion {k : Counted} (h : Written k) (portion : ℕ × ℚ) :
    Written (k.addPortion portion) := by
  refine ⟨h.1, fun w hw => ?_⟩
  obtain ⟨i, hi, rfl⟩ := List.mem_iff_getElem.mp hw
  simp only [Counted.addPortion, List.getElem_modify]
  split_ifs
  · exact onGrid_format _ 18
  · exact h.2 _ (List.getElem_mem _)

theorem written_countBallot (c : Count) {k : Counted} (h : Written k) (ballot : Address × List Pick) :
    Written (c.countBallot k ballot) := by
  unfold Count.countBallot
  split
  · exact h
  · split
    · exact h
    · next portions _ =>
      have hfold := List.foldlRecOn portions Counted.addPortion (motive := Written)
        (b := { k with qualifyingVoters := k.qualifyingVoters + (c.qualifies ballot.1).toNat }) h
        fun k hk p _ => written_addPortion hk p
      exact ⟨onGrid_format _ 18, hfold.2⟩

theorem written_countBallots (c : Count) : Written c.countBallots := by
  refine List.foldlRecOn _ _ (motive := Written) ⟨onGrid_zero 18, ?_⟩
    fun k hk b _ => written_countBallot c hk b
  intro w hw
  rw [List.eq_of_mem_replicate hw]
  exact onGrid_zero 18

section
variable (n : Node) (t : Tables) (poll : Poll) (block : ℕ)

theorem onGrid_supply : OnGrid 18 (tallyAt n t poll block).supply := by
  refine List.foldlRecOn _ _ (motive := OnGrid 18) (onGrid_zero 18) fun _ _ _ _ => ?_
  exact onGrid_format _ 18

theorem onGrid_leader : OnGrid 18 (tallyAt n t poll block).leader := by
  refine List.foldlRecOn _ _ (motive := OnGrid 18) (onGrid_zero 18) fun leader hl w hw => ?_
  split_ifs
  · exact (written_countBallots _).2 w hw
  · exact hl

/-! ### The two tests -/

/-- The counted weight as a part of the supply. -/
def turnout : ℚ :=
  share (tallyAt n t poll block).counted.totalCountedWeight (tallyAt n t poll block).supply

/-- The leading option's weight as a part of the supply. -/
def lead : ℚ := share (tallyAt n t poll block).leader (tallyAt n t poll block).supply

/-- The quorum, where the poll has one. -/
def QuorumMet : Prop := ∀ q ∈ poll.quorum, 0 < q → slackened q ≤ turnout n t poll block

/-- The number of voters, where the poll asks for one. -/
def VotersMet : Prop :=
  ∀ m ∈ poll.min_voters, 0 < m → m ≤ (tallyAt n t poll block).counted.qualifyingVoters

variable {n t poll block} (hmax : (tallyAt n t poll block).supply ≤ MAX_TOKEN_SUPPLY)
  (hquorum : ∀ q ∈ poll.quorum, q ≤ 2)
include hmax hquorum

theorem quorum_met_iff : (tallyAt n t poll block).outcome.quorum_met = true ↔ QuorumMet n t poll block := by
  have hgrid : OnGrid 18 (tallyAt n t poll block).counted.totalCountedWeight :=
    (written_countBallots _).1
  rw [QuorumMet, turnout]
  cases hq : poll.quorum with
  | none => simp [tallyAt, decideOutcome, hq]
  | some q =>
    by_cases hpos : 0 < q
    · have hiff := le_fraction_iff hgrid (onGrid_supply n t poll block) hmax hpos (hquorum q hq)
      simp only [Option.mem_some_iff, forall_eq', hpos, forall_const, ← hiff]
      simp [tallyAt, decideOutcome, hq, hpos]
    · simp [tallyAt, decideOutcome, hq, hpos]

theorem crosses_iff {threshold : ℚ} (h0 : 0 < threshold) (h2 : threshold ≤ 2) :
    (tallyAt n t poll block).crosses threshold = true ↔
      slackened threshold ≤ lead n t poll block ∧ QuorumMet n t poll block ∧ VotersMet n t poll block := by
  have hvoters : (tallyAt n t poll block).outcome.min_voters_met = true ↔ VotersMet n t poll block := by
    rw [VotersMet]
    cases hm : poll.min_voters with
    | none => simp [tallyAt, decideOutcome, hm]
    | some m => by_cases hpos : 0 < m <;> simp [tallyAt, decideOutcome, hm, hpos]
  rw [lead, ← le_fraction_iff (onGrid_leader n t poll block) (onGrid_supply n t poll block) hmax h0 h2,
    ← quorum_met_iff hmax hquorum, ← hvoters, Tally.crosses, Bool.and_eq_true, Bool.and_eq_true,
    decide_eq_true_iff, and_assoc]

end

/-- **The thresholds hold exactly** unless a fraction is just below them: a poll that meets its quorum
has the exact turnout for it iff the turnout does not lie in the last digit below the quorum, and a
poll that crosses its decide threshold has the exact share for it iff the share of the leading option
does not lie there while the other tests pass. -/
theorem thresholds_exact (n : Node) (t : Tables) (poll : Poll) (block : ℕ) (threshold : ℚ)
    (hmax : (tallyAt n t poll block).supply ≤ MAX_TOKEN_SUPPLY) (hquorum : ∀ q ∈ poll.quorum, q ≤ 2)
    (h0 : 0 < threshold) (h2 : threshold ≤ 2) :
    (((tallyAt n t poll block).outcome.quorum_met = true →
        ∀ q ∈ poll.quorum, 0 < q → q ≤ turnout n t poll block) ↔
      ∀ q ∈ poll.quorum, 0 < q → ¬JustBelow q (turnout n t poll block)) ∧
    (((tallyAt n t poll block).crosses threshold = true → threshold ≤ lead n t poll block) ↔
      (QuorumMet n t poll block → VotersMet n t poll block →
        ¬JustBelow threshold (lead n t poll block))) := by
  constructor
  · rw [quorum_met_iff hmax hquorum, QuorumMet]
    cases hq : poll.quorum with
    | none => simp
    | some q => 
      by_cases hpos : 0 < q
      · simpa [hpos] using passes_iff Iff.rfl
      · simp [hpos]
  · rw [crosses_iff hmax hquorum h0 h2, and_comm, and_imp, and_imp]
    exact imp_congr Iff.rfl (imp_congr Iff.rfl (passes_iff Iff.rfl))

/-! ### Sample polls -/

/-- One voter for option 0, and another holder. -/
def halves (voter other : ℚ) : Tables where
  polls := []
  votes := [⟨3, 1, 1, 0, none⟩]
  delegations := []
  credits := [⟨1, 1, 7, 1, voter⟩, ⟨2, 1, 7, 2, other⟩]
  debits := []

def halfPoll : Poll where
  action_index := 1
  block_index := 1
  tick := 7
  end_block := 9
  optionCount := 2
  tally_mode := .approval
  weight_mode := .balance
  min_vote_balance := none
  quorum := some (1 / 2)
  min_voters := none
  decide_threshold := some (1 / 2)
  poll_status := .open
  effective_close_block := none
  decided_early := false

def plainNode : Node where
  bcsqrt _ := 0
  exactSplit _ := true

theorem thresholds_exact_halves :
    (tallyAt plainNode (halves 60 (40 + 1 / 10 ^ 18)) halfPoll 5).crosses (1 / 2) = true ∧
      1 / 2 ≤ turnout plainNode (halves 60 (40 + 1 / 10 ^ 18)) halfPoll 5 ∧
      1 / 2 ≤ lead plainNode (halves 60 (40 + 1 / 10 ^ 18)) halfPoll 5 := by
  have h := thresholds_exact plainNode (halves 60 (40 + 1 / 10 ^ 18)) halfPoll 5 (1 / 2)
    (by decide +kernel) (by decide +kernel) (by decide +kernel) (by decide +kernel)
  have hcross : (tallyAt plainNode (halves 60 (40 + 1 / 10 ^ 18)) halfPoll 5).crosses (1 / 2) = true := by
    decide +kernel
  exact ⟨hcross, h.1.mpr (by decide +kernel) (by decide +kernel) (1 / 2) rfl (by decide +kernel),
    h.2.mpr (fun _ _ => by decide +kernel) hcross⟩

/-- In a supply of `10 ^ 20` a weight of one unit less than half meets the quorum of one half and
decides the poll. -/
theorem rounded_up_to_half :
    (tallyAt plainNode (halves (5 * 10 ^ 19 - 1 / 10 ^ 18) (5 * 10 ^ 19 + 1 / 10 ^ 18)) halfPoll
      5).supply = 10 ^ 20 ∧
    (tallyAt plainNode (halves (5 * 10 ^ 19 - 1 / 10 ^ 18) (5 * 10 ^ 19 + 1 / 10 ^ 18)) halfPoll
      5).counted.totalCountedWeight / 10 ^ 20 < 1 / 2 ∧
    (tallyAt plainNode (halves (5 * 10 ^ 19 - 1 / 10 ^ 18) (5 * 10 ^ 19 + 1 / 10 ^ 18)) halfPoll
      5).outcome.quorum_met = true ∧
    (tallyAt plainNode (halves (5 * 10 ^ 19 - 1 / 10 ^ 18) (5 * 10 ^ 19 + 1 / 10 ^ 18)) halfPoll
      5).leader / 10 ^ 20 < 1 / 2 ∧
    (tallyAt plainNode (halves (5 * 10 ^ 19 - 1 / 10 ^ 18) (5 * 10 ^ 19 + 1 / 10 ^ 18)) halfPoll
      5).crosses (1 / 2) = true := by
  decide +kernel

end XChainIndexer.Votes.Thresholds
