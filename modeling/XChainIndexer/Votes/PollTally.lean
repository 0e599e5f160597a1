import XChainIndexer.Bcmath
import XChainIndexer.Lib.Maximum

/-! # The tally of a poll

`getPollTally` of `db/votes/poll_tally.js`: the current ballots of a poll are weighted by the
holdings of their voters at the measure block, with the weight of holders who did not vote folded
one hop into the ballot of their delegate, and added up per option. `decideOutcome` compares the
counted weight with the supply, and `crosses` is the test by which `utility/vote_passes.js` decides
an armed poll early.

Addresses, ticks and polls are their numbers, an amount is its value, and a ballot's share is the
value of its text. -/

namespace XChainIndexer.Votes.PollTally

open Bcmath Lib.Maximum

abbrev Address := ℕ

/-! ### The tables a tally reads -/

/-- A row of `votes`: one choice of one ballot. -/
structure VoteRow where
  action_index : ℕ
  poll_index : ℕ
  voter : Address
  choice : ℕ
  share : Option ℚ

/-- A row of `vote_delegations`; no delegate is a cleared delegation. -/
structure DelegationRow where
  action_index : ℕ
  block_index : ℕ
  tick : ℕ
  delegator : Address
  delegate : Option Address
  deriving DecidableEq

/-- A row of `credits` or `debits`, with the block of its action. -/
structure LedgerRow where
  action_index : ℕ
  block_index : ℕ
  tick : ℕ
  address : Address
  amount : ℚ

inductive TallyMode
  | approval
  | split

inductive WeightMode
  | balance
  | stake
  | flat
  | quadratic
  | timeWeighted
  deriving DecidableEq

inductive PollStatus
  | open
  | finalized
  | failedQuorum
  deriving DecidableEq

/-- A row of `polls`; of the stored options only their number is read. -/
structure Poll where
  action_index : ℕ
  block_index : ℕ
  tick : ℕ
  end_block : ℕ
  optionCount : ℕ
  tally_mode : TallyMode
  weight_mode : WeightMode
  min_vote_balance : Option ℚ
  quorum : Option ℚ
  min_voters : Option ℕ
  decide_threshold : Option ℚ
  poll_status : PollStatus
  effective_close_block : Option ℕ
  decided_early : Bool

structure Tables where
  polls : List Poll
  votes : List VoteRow
  delegations : List DelegationRow
  credits : List LedgerRow
  debits : List LedgerRow

/-- What a node brings to a tally: the square root of the bignumber library at 18 decimals, and the
blocks from which the exact split rule is active. -/
structure Node where
  bcsqrt : ℚ → ℚ
  exactSplit : ℕ → Bool

/-! ### Holders -/

/-- The rows of a tick up to a block that name an address, added up exactly. -/
def sumAt (rows : List LedgerRow) (address : Address) : ℚ :=
  ((rows.filter (·.address = address)).map (·.amount)).sum

def ledgerScope (rows : List LedgerRow) (tick block : ℕ) : List LedgerRow :=
  rows.filter fun r => r.tick = tick ∧ r.block_index ≤ block

/-- What an address holds: its credits as they are if it has no debit, else the difference, and no
entry unless that is positive. -/
def holding (credits debits : List LedgerRow) (address : Address) : Option ℚ :=
  if debits.any (·.address = address) then
    let balance := bcsub (sumAt credits address) (sumAt debits address) 18
    if 0 < balance then some balance else none
  else some (sumAt credits address)

/-- Biggest first, equal balances by address. -/
def before (a b : Address × ℚ) : Prop := b.2 < a.2 ∨ (a.2 = b.2 ∧ a.1 ≤ b.1)

instance : DecidableRel before := fun _ _ => inferInstanceAs (Decidable (_ ∨ _))

def getHolders (t : Tables) (tick block : ℕ) : List (Address × ℚ) :=
  let credits := ledgerScope t.credits tick block
  let debits := ledgerScope t.debits tick block
  ((((credits ++ debits).map (·.address)).dedup).filterMap fun a =>
    (holding credits debits a).map (a, ·)).insertionSort before

/-! ### Average balances -/

/-- The signed changes of an address after `startBlock` and up to `endBlock`, oldest block first. -/
def changes (t : Tables) (tick startBlock endBlock : ℕ) (address : Address) : List (ℕ × ℚ) :=
  let inWindow := fun r : LedgerRow =>
    decide (r.tick = tick ∧ startBlock < r.block_index ∧ r.block_index ≤ endBlock ∧
      r.address = address)
  ((t.credits.filter inWindow).map (fun r => (r.block_index, r.amount)) ++
    (t.debits.filter inWindow).map fun r => (r.block_index, bcmul r.amount (-1) 18)).insertionSort
      fun a b => a.1 ≤ b.1

structure Segment where
  bal : ℚ
  prevBlock : ℕ
  integral : ℚ

/-- The blocks since the last change at the balance held over them. -/
def Segment.upTo (s : Segment) (block : ℕ) : ℚ :=
  if s.prevBlock < block then
    bcadd s.integral (bcmul s.bal ((block : ℚ) - s.prevBlock) 18) 18
  else s.integral

def Segment.change (s : Segment) (event : ℕ × ℚ) : Segment :=
  { bal := bcadd s.bal event.2 18, prevBlock := event.1, integral := s.upTo event.1 }

/-- The average balance of an address over a window of blocks. -/
def getTimeWeightedBalances (t : Tables) (tick startBlock endBlock : ℕ) (address : Address) :
    Option ℚ :=
  let startBal := (getHolders t tick startBlock).lookup address
  let events := changes t tick startBlock endBlock address
  if startBal.isNone ∧ events = [] then none
  else if endBlock ≤ startBlock then some (startBal.getD 0)
  else
    let last := events.foldl Segment.change ⟨startBal.getD 0, startBlock, 0⟩
    some (bcdiv (last.upTo endBlock) ((endBlock : ℚ) - startBlock) 18)

/-! ### Ballots and delegations -/

structure Pick where
  choice : ℕ
  share : ℚ
  deriving DecidableEq

/-- The latest action under which the voter cast a ballot. -/
def currentAction (rows : List VoteRow) (voter : Address) : ℕ :=
  maxOf ((rows.filter (·.voter = voter)).map (·.action_index))

/-- The rows of the voter's current ballot. -/
def picksOf (rows : List VoteRow) (voter : Address) : List Pick :=
  (rows.filter fun r => r.voter = voter ∧ r.action_index = currentAction rows voter).map
    fun r => ⟨r.choice, r.share.getD 1⟩

def pollVotes (t : Tables) (pollIndex : ℕ) : List VoteRow :=
  t.votes.filter (·.poll_index = pollIndex)

def readCurrentBallots (t : Tables) (pollIndex : ℕ) : List (Address × List Pick) :=
  (((pollVotes t pollIndex).map (·.voter)).dedup).map fun a => (a, picksOf (pollVotes t pollIndex) a)

/-- The delegations of a tick up to a block. -/
def standing (t : Tables) (tick block : ℕ) : List DelegationRow :=
  t.delegations.filter fun r => r.tick = tick ∧ r.block_index ≤ block

def latestDelegate (rows : List DelegationRow) (delegator : Address) : Option Address :=
  let latest := maxOf ((rows.filter (·.delegator = delegator)).map (·.action_index))
  (rows.find? fun r => r.delegator = delegator ∧ r.action_index = latest).bind (·.delegate)

def getActiveDelegations (t : Tables) (tick block : ℕ) : List (Address × Address) :=
  let rows := standing t tick block
  ((rows.map (·.delegator)).dedup).filterMap fun a => (latestDelegate rows a).map (a, ·)

/-! ### Weights -/

def weightFunction (n : Node) (t : Tables) (poll : Poll) (measureBlock : ℕ) (address : Address)
    (closeBal : ℚ) : ℚ :=
  match poll.weight_mode with
  | .flat => 1
  | .quadratic => n.bcsqrt closeBal
  | .timeWeighted =>
      (getTimeWeightedBalances t poll.tick poll.block_index measureBlock address).getD 0
  | .balance => closeBal
  | .stake => closeBal

/-- What the counting of the ballots reads. -/
structure Count where
  byVoter : List (Address × List Pick)
  holders : List (Address × ℚ)
  delegations : List (Address × Address)
  weightFor : Address → ℚ → ℚ
  minVoteBal : ℚ
  tally_mode : TallyMode
  optionCount : ℕ
  exactSplit : Bool

/-- Whoever still holds counts, with their weight. -/
def Count.weightOf (c : Count) (address : Address) : Option ℚ :=
  match c.holders.lookup address with
  | none => none
  | some bal => if 0 < bal then some (c.weightFor address bal) else none

/-- The weight a delegator lends: none of a delegator who voted, of an idle delegate's, or of a
delegator who no longer holds. -/
def Count.lends (c : Count) (delegation : Address × Address) : Option ℚ :=
  if (c.byVoter.lookup delegation.1).isSome then none
  else if (c.byVoter.lookup delegation.2).isNone then none
  else c.weightOf delegation.1

/-- The weight delegated to an address. -/
def Count.inbound (c : Count) (delegate : Address) : ℚ :=
  ((c.delegations.filter (·.2 = delegate)).filterMap c.lends).foldl (fun sum w => bcadd sum w 18) 0

/-! ### Portions -/

def sumShares (picks : List Pick) : ℚ := picks.foldl (fun sum p => bcadd sum p.share 18) 0

/-- Whether the remainder goes to the pick rather than to the best one so far. -/
def Pick.beats (p best : Pick) : Bool :=
  decide (best.share < p.share ∨ (¬ p.share < best.share ∧ p.choice < best.choice))

/-- The position of the pick the remainder goes to. -/
def topPick : List Pick → ℕ → Option (ℕ × Pick) → Option ℕ
  | [], _, top => top.map (·.1)
  | p :: ps, i, none => topPick ps (i + 1) (some (i, p))
  | p :: ps, i, some (j, best) => topPick ps (i + 1) (if p.beats best then some (i, p) else some (j, best))

/-- Portions rounded down, with the remainder added to the largest share. -/
def exactSplitPortions (weight : ℚ) (picks : List Pick) (sumShares : ℚ) : List ℚ :=
  let portions := picks.map fun p => bcmuldivfloor weight p.share sumShares 18
  let given := portions.foldl (fun sum w => bcadd sum w 18) 0
  match topPick picks 0 none with
  | none => portions
  | some top => portions.modify top fun w => bcadd w (bcsub weight given 18) 18

/-- Portions each rounded half up on its own. -/
def roundedPortions (weight : ℚ) (picks : List Pick) (sumShares : ℚ) : List ℚ :=
  picks.map fun p => bcmul weight (bcdiv p.share sumShares 18) 18

/-- The portions of the in-range picks under the rule active. -/
def Count.split (c : Count) (weight : ℚ) (picks : List Pick) (sumShares : ℚ) : List ℚ :=
  if c.exactSplit then exactSplitPortions weight picks sumShares
  else roundedPortions weight picks sumShares

/-- The weight each in-range choice of a ballot gets, or none for a ballot that is not counted. -/
def Count.portions (c : Count) (weight : ℚ) (picks : List Pick) : Option (List (ℕ × ℚ)) :=
  let inRange := picks.filter (·.choice < c.optionCount)
  match c.tally_mode with
  | .approval => some (inRange.map fun p => (p.choice, weight))
  | .split =>
    if 0 < sumShares picks then
      some ((inRange.map (·.choice)).zip (c.split weight inRange (sumShares picks)))
    else none

/-! ### Counting -/

structure Counted where
  totals : List ℚ
  optionVoters : List ℕ
  totalCountedWeight : ℚ
  qualifyingVoters : ℕ

def Counted.start (optionCount : ℕ) : Counted :=
  ⟨List.replicate optionCount 0, List.replicate optionCount 0, 0, 0⟩

def Counted.addPortion (k : Counted) (portion : ℕ × ℚ) : Counted :=
  { k with
    totals := k.totals.modify portion.1 (bcadd · portion.2 18)
    optionVoters := k.optionVoters.modify portion.1 (· + 1) }

/-- The voter's own weight with what is delegated to them. -/
def Count.ballotWeight (c : Count) (address : Address) : Option ℚ :=
  (c.weightOf address).map fun own => bcadd own (c.inbound address) 18

def Count.qualifies (c : Count) (address : Address) : Bool :=
  (c.holders.lookup address).any fun bal => c.minVoteBal ≤ bal

def Count.countBallot (c : Count) (k : Counted) (ballot : Address × List Pick) : Counted :=
  match c.ballotWeight ballot.1 with
  | none => k
  | some weight =>
    let k := { k with qualifyingVoters := k.qualifyingVoters + (c.qualifies ballot.1).toNat }
    match c.portions weight ballot.2 with
    | none => k
    | some portions =>
      let k := portions.foldl Counted.addPortion k
      { k with totalCountedWeight := bcadd k.totalCountedWeight weight 18 }

def Count.countBallots (c : Count) : Counted :=
  c.byVoter.foldl c.countBallot (.start c.optionCount)

/-! ### The outcome -/

structure Outcome where
  winning_option : Option ℕ
  quorum_met : Bool
  min_voters_met : Bool

/-- The first option of the highest weight above zero. -/
def winningOption : List ℚ → ℕ → ℚ → Option ℕ → Option ℕ
  | [], _, _, winner => winner
  | w :: ws, i, best, winner =>
    if best < w then winningOption ws (i + 1) w (some i) else winningOption ws (i + 1) best winner

/-- A weight as a fraction of the supply, at 18 decimals. -/
def fraction (weight supply : ℚ) : ℚ := if 0 < supply then bcdiv weight supply 18 else 0

def decideOutcome (poll : Poll) (counted : Counted) (supply : ℚ) : Outcome where
  winning_option := winningOption counted.totals 0 0 none
  quorum_met :=
    match poll.quorum with
    | none => true
    | some quorum =>
      if 0 < quorum then decide (quorum ≤ fraction counted.totalCountedWeight supply) else true
  min_voters_met :=
    match poll.min_voters with
    | none => true
    | some minVoters => if 0 < minVoters then decide (minVoters ≤ counted.qualifyingVoters) else true

structure Tally where
  counted : Counted
  supply : ℚ
  outcome : Outcome

def supplyOf (holders : List (Address × ℚ)) : ℚ :=
  holders.foldl (fun sum h => bcadd sum h.2 18) 0

/-- What the tally of a poll at a block counts. -/
def countAt (n : Node) (t : Tables) (poll : Poll) (measureBlock : ℕ) : Count where
  byVoter := readCurrentBallots t poll.action_index
  holders := getHolders t poll.tick measureBlock
  delegations := getActiveDelegations t poll.tick measureBlock
  weightFor := weightFunction n t poll measureBlock
  minVoteBal := poll.min_vote_balance.getD 0
  tally_mode := poll.tally_mode
  optionCount := poll.optionCount
  exactSplit := n.exactSplit measureBlock

def tallyAt (n : Node) (t : Tables) (poll : Poll) (measureBlock : ℕ) : Tally :=
  let c := countAt n t poll measureBlock
  let supply := supplyOf c.holders
  { counted := c.countBallots, supply, outcome := decideOutcome poll c.countBallots supply }

def getPoll (t : Tables) (pollIndex : ℕ) : Option Poll :=
  t.polls.find? (·.action_index = pollIndex)

def getPollTally (n : Node) (t : Tables) (pollIndex measureBlock : ℕ) : Option Tally :=
  (getPoll t pollIndex).map fun poll => tallyAt n t poll (min measureBlock poll.end_block)

def Tally.leader (tally : Tally) : ℚ :=
  tally.counted.totals.foldl (fun leader w => if leader < w then w else leader) 0

/-- The early-decide test of `evaluateArmedPoll`. -/
def Tally.crosses (tally : Tally) (threshold : ℚ) : Bool :=
  decide (threshold ≤ fraction tally.leader tally.supply) && tally.outcome.quorum_met &&
    tally.outcome.min_voters_met

end XChainIndexer.Votes.PollTally
