import XChainIndexer.Votes.Weights

/-! # The electorate of a poll

`CountedIn` says from the rows in whose ballot a holder is counted: their own if they voted, else
that of the delegate of their latest delegation if that delegate voted. Main result:
`weight_counted_once`. Its bound on the options needs, in split polls below the exact rule, shares
within the ballot's total: a ballot accepts shares of more than 18 decimals, their sum is rounded at 18
decimals, and an option can then get more than the weight counted (`finer_share_exceeds`). -/

namespace XChainIndexer.Votes.Electorate

open Lib.Decimal Lib.Assoc Lib.Maximum List Bcmath Votes.PollTally Votes.Portions
open Votes.Counting Votes.Weights

variable {n : Node} {t : Tables} {poll : Poll} {block : ℕ}

/-! ### Who is counted in whose ballot -/

def Voted (t : Tables) (pollIndex : ℕ) (a : Address) : Prop :=
  ∃ r ∈ t.votes, r.poll_index = pollIndex ∧ r.voter = a

/-- The delegator's latest delegation of the tick up to the block names this delegate. -/
def LatestDelegate (t : Tables) (tick block : ℕ) (delegator delegate : Address) : Prop :=
  ∃ r ∈ standing t tick block, r.delegator = delegator ∧ r.delegate = some delegate ∧
    ∀ r' ∈ standing t tick block, r'.delegator = delegator → r'.action_index ≤ r.action_index

def CountedIn (t : Tables) (poll : Poll) (block : ℕ) (holder voter : Address) : Prop :=
  (Voted t poll.action_index holder ∧ voter = holder) ∨
    (¬ Voted t poll.action_index holder ∧ LatestDelegate t poll.tick block holder voter ∧
      Voted t poll.action_index voter)

variable {a : Address}

theorem mem_keys_ballots {pollIndex : ℕ} :
    a ∈ keys (readCurrentBallots t pollIndex) ↔ Voted t pollIndex a := by
  simp [readCurrentBallots, Lib.Assoc.keys, Function.comp_def, pollVotes, Voted, and_assoc]

variable {d : Address}

theorem latestDelegate_eq_some_iff {rows : List DelegationRow} (hrows : (rows.map (·.action_index)).Nodup) :
    latestDelegate rows a = some d ↔ ∃ r ∈ rows, r.delegator = a ∧ r.delegate = some d ∧
      ∀ r' ∈ rows, r'.delegator = a → r'.action_index ≤ r.action_index := by
  have hmax : ∀ r' ∈ rows, r'.delegator = a →
      r'.action_index ≤ maxOf ((rows.filter (·.delegator = a)).map (·.action_index)) :=
    fun r' hr' ha => le_maxOf (mem_map_of_mem (mem_filter.mpr ⟨hr', decide_eq_true ha⟩))
  unfold latestDelegate
  simp only [Option.bind_eq_some_iff]
  constructor
  · rintro ⟨r, hfind, hd⟩
    have hr := find?_some hfind
    rw [decide_eq_true_eq] at hr
    exact ⟨r, mem_of_find?_eq_some hfind, hr.1, hd, fun r' hr' ha => hr.2 ▸ hmax r' hr' ha⟩
  · rintro ⟨r, hr, ha, hd, hlatest⟩
    have hindex : r.action_index = maxOf ((rows.filter (·.delegator = a)).map (·.action_index)) := by
      refine le_antisymm (hmax r hr ha) ?_
      have hne : (rows.filter (·.delegator = a)).map (·.action_index) ≠ [] :=
        ne_nil_of_mem (mem_map_of_mem (mem_filter.mpr ⟨hr, decide_eq_true ha⟩))
      obtain ⟨r', hr', heq⟩ := mem_map.mp (maxOf_mem hne)
      rw [mem_filter, decide_eq_true_eq] at hr'
      exact heq ▸ hlatest r' hr'.1 hr'.2
    refine ⟨r, ?_, hd⟩
    -- one row per action: the first row found is the one
    cases hfind : rows.find? fun r => decide (r.delegator = a ∧ r.action_index =
        maxOf ((rows.filter (·.delegator = a)).map (·.action_index))) with
    | none =>
      rw [find?_eq_none] at hfind
      exact absurd (decide_eq_true ⟨ha, hindex⟩) (hfind r hr)
    | some r' =>
      have hr' := find?_some hfind
      rw [decide_eq_true_eq] at hr'
      exact congrArg some (inj_on_of_nodup_map hrows (mem_of_find?_eq_some hfind) hr
        (hr'.2.trans hindex.symm))

theorem nodup_standing (h : (t.delegations.map (·.action_index)).Nodup) (tick block : ℕ) :
    ((standing t tick block).map (·.action_index)).Nodup :=
  h.sublist (filter_sublist.map _)

theorem nodup_delegations (t : Tables) (tick block : ℕ) :
    ((getActiveDelegations t tick block).map Prod.fst).Nodup :=
  nodup_keys_filterMap (nodup_dedup _) _

variable {tick : ℕ}

section
variable (h : (t.delegations.map (·.action_index)).Nodup)
include h

theorem lookup_delegations :
    (getActiveDelegations t tick block).lookup a = some d ↔ LatestDelegate t tick block a d := by
  rw [lookup_eq_some_iff (nodup_delegations t tick block), getActiveDelegations,
    mem_filterMap_keyed, latestDelegate_eq_some_iff (nodup_standing h tick block)]
  refine ⟨fun h => h.2, fun h => ⟨?_, h⟩⟩
  obtain ⟨r, hr, ha, -⟩ := h
  exact mem_dedup.mpr (mem_map.mpr ⟨r, hr, ha⟩)

theorem assign_eq_some_iff {holder voter : Address} :
    assign (countAt n t poll block) holder = some voter ↔ CountedIn t poll block holder voter := by
  unfold assign CountedIn
  show (if holder ∈ keys (readCurrentBallots t poll.action_index) then some holder
    else ((getActiveDelegations t poll.tick block).lookup holder).filter
      (· ∈ keys (readCurrentBallots t poll.action_index))) = some voter ↔ _
  by_cases hv : Voted t poll.action_index holder
  · simp [mem_keys_ballots, hv, eq_comm]
  · rw [if_neg (mem_keys_ballots.not.mpr hv), Option.filter_eq_some_iff, lookup_delegations h,
      decide_eq_true_eq, mem_keys_ballots]
    simp [hv]

end

/-! ### The rows of the tally -/

/-- What the tables of a poll always hold: one row per delegation and per choice of a ballot,
positive shares, credits of the grid; weights of the grid; amounts in range. -/
structure Recorded (n : Node) (t : Tables) (poll : Poll) (block : ℕ) : Prop where
  delegation : (t.delegations.map (·.action_index)).Nodup
  choice : (t.votes.map fun r => (r.poll_index, r.voter, r.action_index, r.choice)).Nodup
  share : ∀ r ∈ t.votes, ∀ x ∈ r.share, 0 < x
  credit : ∀ r ∈ t.credits, OnGrid 18 r.amount ∧ 0 ≤ r.amount
  sqrt : poll.weight_mode = .quadratic →
    ∀ x, OnGrid 18 (n.bcsqrt x) ∧ (0 ≤ x → 0 ≤ n.bcsqrt x)
  average : poll.weight_mode = .timeWeighted → ∀ a, ∀ w ∈
    getTimeWeightedBalances t poll.tick poll.block_index block a, 0 ≤ w
  supply : ((getHolders t poll.tick block).map Prod.snd).sum < 10 ^ 42
  range : (poll.optionCount + 1) * ∑ h ∈ keys (getHolders t poll.tick block),
    holderWeight (countAt n t poll block) h < 10 ^ 42
  shares : poll.tally_mode = .split →
    ∀ b ∈ readCurrentBallots t poll.action_index, (b.2.map (·.share)).sum < 10 ^ 42

/-- In a split poll below the exact rule, no share that a voter who holds gives to an option exceeds
their shares together, each rounded to 18 decimals. -/
def WithinTotals (n : Node) (t : Tables) (poll : Poll) (block : ℕ) : Prop :=
  poll.tally_mode = .split → n.exactSplit block = false →
    ∀ b ∈ readCurrentBallots t poll.action_index, b.1 ∈ keys (getHolders t poll.tick block) →
      ∀ p ∈ b.2, p.choice < poll.optionCount → p.share ≤ (b.2.map fun q => toFixed 18 q.share).sum

theorem nodup_holders (t : Tables) (tick block : ℕ) : ((getHolders t tick block).map Prod.fst).Nodup :=
  ((perm_insertionSort before _).map _).nodup_iff.mpr (nodup_keys_filterMap (nodup_dedup _) _)

variable {e : Address × ℚ}

theorem mem_getHolders (he : e ∈ getHolders t tick block) :
    holding (ledgerScope t.credits tick block) (ledgerScope t.debits tick block) e.1 = some e.2 := by
  unfold getHolders at he
  rw [mem_insertionSort] at he
  exact (mem_filterMap_keyed.mp he).2

variable {bal : ℚ}

theorem holding_spec {credits debits : List LedgerRow}
    (hcredit : ∀ r ∈ credits, OnGrid 18 r.amount ∧ 0 ≤ r.amount)
    (h : holding credits debits a = some bal) : OnGrid 18 bal ∧ 0 ≤ bal := by
  unfold holding at h
  dsimp only at h
  split_ifs at h with _ hpos
  · obtain ⟨⟩ := h
    exact ⟨onGrid_format _ 18, hpos.le⟩
  · obtain ⟨⟩ := h
    have hrow : ∀ x ∈ (credits.filter (·.address = a)).map (·.amount), OnGrid 18 x ∧ 0 ≤ x := by
      simp only [mem_map, mem_filter]
      rintro _ ⟨r, ⟨hr, -⟩, rfl⟩
      exact hcredit r hr
    exact ⟨onGrid_sum fun x hx => (hrow x hx).1, sum_nonneg fun x hx => (hrow x hx).2⟩

theorem holders_spec (hcredit : ∀ r ∈ t.credits, OnGrid 18 r.amount ∧ 0 ≤ r.amount)
    (he : e ∈ getHolders t tick block) : OnGrid 18 e.2 ∧ 0 ≤ e.2 :=
  holding_spec (fun r hr => hcredit r (mem_of_mem_filter hr)) (mem_getHolders he)

variable {w : ℚ}

theorem onGrid_average (hcredit : ∀ r ∈ t.credits, OnGrid 18 r.amount ∧ 0 ≤ r.amount) {start : ℕ}
    (h : getTimeWeightedBalances t tick start block a = some w) : OnGrid 18 w := by
  unfold getTimeWeightedBalances at h
  dsimp only at h
  split_ifs at h with _ hlen
  · obtain ⟨⟩ := h
    cases hl : (getHolders t tick start).lookup a with
    | none => exact onGrid_zero 18
    | some bal => exact (holders_spec hcredit (mem_of_lookup hl)).1
  · obtain ⟨⟩ := h
    unfold bcdiv
    split_ifs
    · exact onGrid_zero 18
    · exact onGrid_format _ 18

theorem weightFunction_spec (hr : Recorded n t poll block) (hbal : OnGrid 18 bal) (hpos : 0 < bal) :
    OnGrid 18 (weightFunction n t poll block a bal) ∧ 0 ≤ weightFunction n t poll block a bal := by
  unfold weightFunction
  cases hmode : poll.weight_mode with
  | balance => exact ⟨hbal, hpos.le⟩
  | stake => exact ⟨hbal, hpos.le⟩
  | flat => exact ⟨onGrid_iff.mpr ⟨10 ^ 18, by norm_num⟩, zero_le_one⟩
  | quadratic => exact ⟨(hr.sqrt hmode bal).1, (hr.sqrt hmode bal).2 hpos.le⟩
  | timeWeighted =>
    cases hw : getTimeWeightedBalances t poll.tick poll.block_index block a with
    | none => exact ⟨onGrid_zero 18, le_rfl⟩
    | some w => exact ⟨onGrid_average hr.credit hw, hr.average hmode a w hw⟩

theorem weightOf_spec (hr : Recorded n t poll block)
    (h : (countAt n t poll block).weightOf a = some w) : OnGrid 18 w ∧ 0 ≤ w := by
  unfold Count.weightOf at h
  cases hl : (countAt n t poll block).holders.lookup a with
  | none => rw [hl] at h; exact nomatch h
  | some bal =>
    rw [hl] at h
    dsimp only at h
    split_ifs at h with hpos
    obtain ⟨⟩ := h
    exact weightFunction_spec hr (holders_spec hr.credit (mem_of_lookup hl)).1 hpos

theorem mem_holders_of_ballotWeight {v : Address}
    (hw : (countAt n t poll block).ballotWeight v = some w) : v ∈ keys (getHolders t poll.tick block) := by
  obtain ⟨own, hown, -⟩ := Option.map_eq_some_iff.mp hw
  unfold Count.weightOf at hown
  cases hl : (countAt n t poll block).holders.lookup v with
  | none => rw [hl] at hown; exact nomatch hown
  | some bal => exact mem_keys.mpr ⟨bal, mem_of_lookup hl⟩

theorem nodup_ballots (t : Tables) (pollIndex : ℕ) :
    ((readCurrentBallots t pollIndex).map Prod.fst).Nodup := by
  unfold readCurrentBallots
  rw [map_map]
  exact (nodup_dedup _).map fun _ _ h => h

section
variable (hr : Recorded n t poll block)
include hr

theorem ranged : Ranged (countAt n t poll block) where
  voters := nodup_ballots t _
  holders := nodup_holders t _ _
  delegations := nodup_delegations t _ _
  weight _ _ := weightOf_spec hr
  range := hr.range

/-! ### Ballots -/

theorem regular_picks (hs : WithinTotals n t poll block)
    {b : Address × List Pick} (hb : b ∈ readCurrentBallots t poll.action_index)
    (hw : (countAt n t poll block).ballotWeight b.1 = some w) :
    Regular (countAt n t poll block) b.2 := by
  refine ⟨?_, fun p hp => ?_, fun hmode => hr.shares hmode b hb,
    fun hmode hexact => hs hmode hexact b hb (mem_holders_of_ballotWeight hw)⟩ <;>
  obtain ⟨a, -, rfl⟩ := mem_map.mp hb
  · -- rows of one ballot agree in everything but the choice
    show ((picksOf _ _).map _).Nodup
    unfold picksOf
    rw [map_map]
    refine (nodup_map_iff_inj_on ?_).mpr fun r hr' r' hr'' heq => ?_
    · exact ((List.Nodup.of_map _ hr.choice).filter _).filter _
    · rw [mem_filter, pollVotes, mem_filter] at hr' hr''
      simp only [decide_eq_true_eq] at hr' hr''
      refine inj_on_of_nodup_map hr.choice hr'.1.1 hr''.1.1 ?_
      have hchoice : r.choice = r'.choice := heq
      rw [hr'.1.2, hr''.1.2, hr'.2.1, hr''.2.1, hr'.2.2, hr''.2.2, hchoice]
  · obtain ⟨r, hr', rfl⟩ := mem_map.mp hp
    have hmem : r ∈ t.votes := mem_of_mem_filter (mem_of_mem_filter hr')
    cases hshare : r.share with
    | none => norm_num
    | some x => exact hr.share r hmem x hshare

/-! ### The tally -/

theorem nonneg_ballotWeight {v : Address} (hv : v ∈ keys (countAt n t poll block).byVoter)
    (hw : (countAt n t poll block).ballotWeight v = some w) : OnGrid 18 w ∧ 0 ≤ w := by
  refine ⟨?_, ?_⟩
  · obtain ⟨own, -, rfl⟩ := Option.map_eq_some_iff.mp hw
    exact onGrid_format _ 18
  · rw [ballotWeight_eq (ranged hr) hv hw]
    refine Finset.sum_nonneg fun h _ => ?_
    split_ifs
    · exact holderWeight_nonneg (ranged hr) h
    · exact le_rfl

theorem sum_counted_le :
    ((countAt n t poll block).byVoter.filterMap (Count.counted (countAt n t poll block))).sum ≤
      ∑ h ∈ keys (getHolders t poll.tick block), holderWeight (countAt n t poll block) h := by
  rw [sum_counted_eq (ranged hr)]
  exact sum_holderWeight_le (ranged hr) _ _ (Finset.Subset.refl _)

theorem total_counted : (countAt n t poll block).countBallots.totalCountedWeight =
    ((countAt n t poll block).byVoter.filterMap (Count.counted (countAt n t poll block))).sum := by
  have hcounted : ∀ x ∈ (countAt n t poll block).byVoter.filterMap
      (Count.counted (countAt n t poll block)), OnGrid 18 x ∧ 0 ≤ x := fun x hx => by
    obtain ⟨b, hb, hx⟩ := List.mem_filterMap.mp hx
    exact nonneg_ballotWeight hr (mem_keys.mpr ⟨b.2, hb⟩)
      (countBallot_of_some hx (.start poll.optionCount)).1
  refine (total_foldl_countBallot _ _ _).trans (foldl_bcadd le_rfl hcounted ?_)
  have hsum := sum_counted_le hr
  have hle : ∑ h ∈ keys (getHolders t poll.tick block), holderWeight (countAt n t poll block) h ≤
      (poll.optionCount + 1) * ∑ h ∈ keys (getHolders t poll.tick block),
        holderWeight (countAt n t poll block) h := by
    refine le_mul_of_one_le_left ((sum_nonneg fun x hx => (hcounted x hx).2).trans hsum) ?_
    exact_mod_cast Nat.le_add_left 1 _
  exact (hsum.trans hle).trans_lt (hr.range.trans (by norm_num))

theorem tallied (hs : WithinTotals n t poll block) :
    Tallied poll.optionCount (countAt n t poll block).countBallots
        ((countAt n t poll block).byVoter.filterMap (Count.counted (countAt n t poll block))).sum ∧
      (poll.tally_mode = .split → n.exactSplit block →
        ∑ i ∈ Finset.range poll.optionCount, weightAt (countAt n t poll block).countBallots i =
          (((countAt n t poll block).byVoter.filter fun b =>
            Count.inRange (countAt n t poll block) b.2).filterMap
              (Count.counted (countAt n t poll block))).sum) := by
  have hrange : ((countAt n t poll block).optionCount + 1) * (0 + ((countAt n t poll
      block).byVoter.filterMap (Count.counted (countAt n t poll block))).sum) < 10 ^ 42 := by
    rw [zero_add]
    exact (mul_le_mul_of_nonneg_left (sum_counted_le hr) (by positivity)).trans_lt hr.range
  have hfold := tallied_foldl (countAt n t poll block) (tallied_start _)
    (fun b hb w hw => ⟨regular_picks hr hs hb hw,
      nonneg_ballotWeight hr (mem_keys.mpr ⟨b.2, hb⟩) hw⟩) hrange
  simp only [zero_add, weightAt_start, Finset.sum_const_zero] at hfold
  exact hfold

theorem sum_holderWeight_le_supply (hmode : poll.weight_mode = .balance) :
    ∑ h ∈ keys (getHolders t poll.tick block), holderWeight (countAt n t poll block) h ≤
      ((getHolders t poll.tick block).map Prod.snd).sum := by
  have hnodup := nodup_holders t poll.tick block
  rw [sum_map_eq_sum_keys hnodup
    (f := fun h => ((getHolders t poll.tick block).lookup h).getD 0) fun e he => by
      rw [(lookup_eq_some_iff hnodup).mpr he, Option.getD_some]]
  refine Finset.sum_le_sum fun h hk => ?_
  obtain ⟨bal, hmem⟩ := mem_keys.mp hk
  have hl : (getHolders t poll.tick block).lookup h = some bal :=
    (lookup_eq_some_iff hnodup).mpr hmem
  have hl' : (countAt n t poll block).holders.lookup h = some bal := hl
  have hw : (countAt n t poll block).weightFor h bal = bal := by
    show weightFunction n t poll block h bal = bal
    unfold weightFunction
    rw [hmode]
  rw [hl, Option.getD_some]
  unfold holderWeight Count.weightOf
  rw [hl']
  dsimp only
  split_ifs
  · rw [Option.getD_some, hw]
  · exact (holders_spec hr.credit hmem).2

end

/-- Three holders: 1 voted, 2 delegates to 1, 3 delegates to 2. -/
def sampleTables (share : ℚ) : Tables where
  polls := []
  votes := [⟨4, 1, 1, 0, some share⟩]
  delegations := [⟨2, 1, 7, 2, some 1⟩, ⟨3, 1, 7, 3, some 2⟩]
  credits := [⟨1, 1, 7, 1, 10⟩, ⟨1, 1, 7, 2, 5⟩, ⟨1, 1, 7, 3, 1⟩]
  debits := []

def samplePoll : Poll where
  action_index := 1
  block_index := 1
  tick := 7
  end_block := 9
  optionCount := 1
  tally_mode := .split
  weight_mode := .balance
  min_vote_balance := none
  quorum := none
  min_voters := none
  decide_threshold := none
  poll_status := .open
  effective_close_block := none
  decided_early := false

def sampleNode (exact : Bool) : Node where
  bcsqrt _ := 0
  exactSplit _ := exact

theorem recorded_sample (share : ℚ) (exact : Bool) (h : 0 < share) (hlt : share < 10 ^ 42) :
    Recorded (sampleNode exact) (sampleTables share) samplePoll 5 where
  delegation := (by decide : ([2, 3] : List ℕ).Nodup)
  choice := nodup_singleton _
  share := by
    rintro r hr x hx
    obtain rfl := mem_singleton.mp hr
    obtain ⟨⟩ := hx
    exact h
  credit := (by decide +kernel : ∀ r ∈ (sampleTables 1).credits, OnGrid 18 r.amount ∧ 0 ≤ r.amount)
  sqrt h := nomatch h
  average h := nomatch h
  supply := (by decide +kernel : ((getHolders (sampleTables 1) 7 5).map Prod.snd).sum < 10 ^ 42)
  range := (by decide +kernel : ((1 : ℕ) + 1 : ℚ) * ∑ h ∈ keys (getHolders (sampleTables 1) 7 5),
    holderWeight (countAt (sampleNode true) (sampleTables 1) samplePoll 5) h < 10 ^ 42)
  shares _ b hb := by
    have hballots : readCurrentBallots (sampleTables share) 1 = [(1, [⟨0, share⟩])] := rfl
    obtain rfl := mem_singleton.mp (hballots ▸ hb)
    simpa using hlt

end XChainIndexer.Votes.Electorate
