import XChainIndexer.Tokens.Numerals

/-! # Betting feeds

The BET handler (`actions/bet/`) and BET_EXPIRE: an oracle opens a feed with a number of outcomes,
others stake an amount of the feed's tick on one of them, and the feed ends once, by the oracle's
resolve or cancel or by its expiry. A resolved feed pays the fee and the winners out of the stakes
(`settleWinningPool`); every other end refunds the open bets (`refundOpenBets`).

Checks that read nothing of the feeds (lists, sleeping, memo, fees, balances) are one answer, `other`.
The `credits` and `escrows` rows carry the feed, and a credit to a bettor the bet, it is for. -/

namespace XChainIndexer.Bets.Feeds

open IndexTables Tokens.Numerals Bcmath

/-! ### Rows -/

inductive FeedStatus
  | open
  | closed
  | resolved
  | resolvedVoid
  | cancelled
  | expired
  | invalid
  deriving DecidableEq

inductive BetStatus
  | open
  | won
  | lost
  | refunded
  | invalid
  deriving DecidableEq

/-- A row of `bet_feeds`; `outcomes` is the number of labels. -/
structure Feed where
  action_index : ℕ
  source : ℕ
  tick : ℕ
  outcomes : ℕ
  fee : Option Text
  deadline : ℕ
  expire_at : ℕ
  min_amount : Option Text
  feed_status : FeedStatus

/-- A row of `bets`. -/
structure Bet where
  action_index : ℕ
  feed : ℕ
  source : ℕ
  outcome : ℕ
  amount : Text
  bet_status : BetStatus

/-- A credit or escrow record. -/
structure Entry where
  feed : ℕ
  bet : Option ℕ
  tick : ℕ
  amount : ℚ
  address : ℕ

structure State where
  next : ℕ
  feeds : List Feed
  bets : List Bet
  credits : List Entry
  escrows : List Entry

/-- The readings of texts, the decimals of the ticks, and whether the representability rule for
amounts is active at a block time. -/
structure Ctx where
  js : Js
  decimals : ℕ → ℕ
  decimals_le : ∀ tick, decimals tick ≤ 18
  representability : ℕ → Bool

def maxBetsPerFeed : ℕ := 10000

/-- `MAX_FEED_FEE`, percent of the pot. -/
def maxFeedFee : ℚ := 10

def getBetFeedInfo (s : State) (feed : ℕ) : Option Feed := s.feeds.find? (·.action_index = feed)

def getOpenBetsByFeed (s : State) (feed : ℕ) : List Bet :=
  s.bets.filter fun b => b.feed = feed ∧ b.bet_status = .open

/-- The amount a stored text denotes. -/
def value (c : Ctx) (b : Bet) : ℚ := c.js.bcnum b.amount

/-! ### Checks -/

/-- `/^\d+(\.\d{1,2})?$/`. -/
def isFeeFormat (t : Text) : Bool :=
  isPlainDecimal t && decide (((splitPoint t).2.getD []).length ≤ 2)

def validateFeedTerms (c : Ctx) (fee : Option Text) : Option String :=
  match fee with
  | none => none
  | some t =>
    if !isFeeFormat t then some "invalid: FEE (format)"
    else if c.js.bcnum t < 0 ∨ maxFeedFee < c.js.bcnum t then some "invalid: FEE (range)"
    else if 11 < t.length then some "invalid: FEE (length)"
    else none

/-- Cancel and resolve: an existing feed of the source that is still live. -/
def validateFeedState (source : ℕ) : Option Feed → Option String
  | none => some "invalid: FEED_ACTION_INDEX (unknown)"
  | some f =>
    if source ≠ f.source then some "invalid: SOURCE (not owner)"
    else if f.feed_status ≠ .open ∧ f.feed_status ≠ .closed then
      some "invalid: FEED_ACTION_INDEX (feed not open)"
    else none

def validatePlaceBet (c : Ctx) (s : State) (blockTime source outcome : ℕ) (amount : Text) :
    Option Feed → Option String
  | none => some "invalid: FEED_ACTION_INDEX (unknown)"
  | some f =>
    if f.feed_status ≠ .open then some "invalid: FEED_ACTION_INDEX (feed not open)"
    else if ¬ blockTime < f.deadline then some "invalid: FEED_ACTION_INDEX (closed)"
    else if source = f.source then some "invalid: SOURCE (oracle may not bet own feed)"
    else if f.outcomes ≤ outcome then some "invalid: OUTCOME (range)"
    else if !isValidAmountFormat c.js (c.representability blockTime) (some (c.decimals f.tick)) amount
      then some "invalid: AMOUNT (format)"
    else if ¬ 0 < c.js.bcnum amount then some "invalid: AMOUNT (must be positive)"
    else if f.min_amount.any fun m => c.js.bcnum amount < c.js.bcnum m then
      some "invalid: AMOUNT (below feed minimum)"
    else if maxBetsPerFeed ≤ (getOpenBetsByFeed s f.action_index).length then
      some "invalid: FEED_ACTION_INDEX (feed full)"
    else none

def validateResolve (blockTime outcome : ℕ) (f : Feed) : Option String :=
  if blockTime < f.deadline then some "invalid: FEED_ACTION_INDEX (not closed)"
  else if ¬ blockTime < f.expire_at then some "invalid: FEED_ACTION_INDEX (refund window expired)"
  else if f.outcomes ≤ outcome then some "invalid: OUTCOME (range)"
  else none

/-! ### Terminal paths -/

/-- The bets and the feed as an ending leaves them, with the records it pushes. -/
structure Ending where
  status : FeedStatus
  flip : Bet → BetStatus
  credits : List Entry
  escrows : List Entry

def releases (c : Ctx) (f : Feed) (openBets : List Bet) : List Entry :=
  openBets.map fun b => ⟨f.action_index, some b.action_index, f.tick, bcsub 0 (value c b) 64, b.source⟩

def refundOpenBets (c : Ctx) (f : Feed) (openBets : List Bet) (terminal : FeedStatus) : Ending where
  status := terminal
  flip _ := .refunded
  credits := openBets.map fun b => ⟨f.action_index, some b.action_index, f.tick, value c b, b.source⟩
  escrows := releases c f openBets

/-- A sum of stakes at the tick's decimals. -/
def pool (c : Ctx) (d : ℕ) (bets : List Bet) : ℚ :=
  bets.foldl (fun sum b => bcadd sum (value c b) d) 0

def oracleFee (c : Ctx) (f : Feed) (d : ℕ) (total : ℚ) : ℚ :=
  bcmulfloor total (bcdiv ((f.fee.map c.js.bcnum).getD 0) 100 4) d

/-- The winners' credits, floored pro rata; one that floors to zero is no record. -/
def payouts (c : Ctx) (f : Feed) (d : ℕ) (pot w : ℚ) (winners : List Bet) : List Entry :=
  (winners.map fun b => (⟨f.action_index, some b.action_index, f.tick,
    bcmuldivfloor (value c b) pot w d, b.source⟩ : Entry)).filter fun e => 0 < e.amount

/-- Winners share the pot pro rata, the oracle gets the fee and the dust. -/
def settleWinningPool (c : Ctx) (f : Feed) (d winning : ℕ) (openBets : List Bet) (total w : ℚ) :
    Ending :=
  let fee := oracleFee c f d total
  let pot := bcsub total fee d
  let paidOut := payouts c f d pot w (openBets.filter (·.outcome = winning))
  let paid := paidOut.foldl (fun sum e => bcadd sum e.amount d) 0
  let oracleCredit := bcadd fee (bcsub pot paid d) d
  { status := .resolved
    flip := fun b => if b.outcome = winning then .won else .lost
    credits := paidOut ++
      if 0 < oracleCredit then [⟨f.action_index, none, f.tick, oracleCredit, f.source⟩] else []
    escrows := releases c f openBets }

/-- Settlement of a resolved feed; a bet outside the feed's outcomes halts the node. -/
def settleFeed (c : Ctx) (f : Feed) (winning : ℕ) (openBets : List Bet) : Option Ending :=
  let d := c.decimals f.tick
  if openBets.all fun b => b.outcome < f.outcomes then
    let total := pool c d openBets
    let w := pool c d (openBets.filter (·.outcome = winning))
    if 0 < w then some (settleWinningPool c f d winning openBets total w)
    else some (refundOpenBets c f openBets .resolvedVoid)
  else none

/-- The rows and records of an ending written. -/
def State.finish (s : State) (f : Feed) (e : Ending) : State where
  next := s.next + 1
  feeds := s.feeds.map fun g =>
    if g.action_index = f.action_index then { g with feed_status := e.status } else g
  bets := s.bets.map fun b =>
    if b.feed = f.action_index ∧ b.bet_status = .open then { b with bet_status := e.flip b } else b
  credits := s.credits ++ e.credits
  escrows := s.escrows ++ e.escrows

/-! ### Actions -/

inductive Event
  | create (source tick outcomes : ℕ) (fee : Option Text) (deadline expireAt : ℕ)
      (minAmount : Option Text) (other : Option String)
  | place (blockTime source feed outcome : ℕ) (amount : Text) (other : Option String)
  | cancel (source feed : ℕ) (other : Option String)
  | resolve (blockTime source feed outcome : ℕ) (other : Option String)
  | latch (feed : ℕ)
  | expire (feed : ℕ)

/-- The first error of two phases. -/
def orElse (error : Option String) (next : Option String) : Option String :=
  match error with
  | none => next
  | some e => some e

/-- A placed bet: its row, and its stake moved to escrow if it is valid. -/
def placeBet (c : Ctx) (s : State) (blockTime source feed outcome : ℕ) (amount : Text)
    (other : Option String) : State :=
  let error := orElse (validatePlaceBet c s blockTime source outcome amount (getBetFeedInfo s feed))
    other
  match getBetFeedInfo s feed, error with
  | some f, none =>
    { s with
      next := s.next + 1
      bets := s.bets ++ [⟨s.next, feed, source, outcome, amount, .open⟩]
      escrows := s.escrows ++ [⟨feed, some s.next, f.tick, c.js.bcnum amount, source⟩] }
  | _, _ =>
    { s with
      next := s.next + 1
      bets := s.bets ++ [⟨s.next, feed, source, outcome, amount, .invalid⟩] }

/-- One action or pass on the feeds; `none` is the settlement's halt. -/
def step (c : Ctx) (s : State) : Event → Option State
  | .create source tick outcomes fee deadline expireAt minAmount other =>
    let status := if (orElse (validateFeedTerms c fee) other).isNone then .open else .invalid
    some { s with
      next := s.next + 1
      feeds := s.feeds ++ [⟨s.next, source, tick, outcomes, fee, deadline, expireAt, minAmount,
        status⟩] }
  | .place blockTime source feed outcome amount other =>
    some (placeBet c s blockTime source feed outcome amount other)
  | .cancel source feed other =>
    match getBetFeedInfo s feed, orElse (validateFeedState source (getBetFeedInfo s feed)) other with
    | some f, none =>
      some (s.finish f (refundOpenBets c f (getOpenBetsByFeed s f.action_index) .cancelled))
    | _, _ => some { s with next := s.next + 1 }
  | .resolve blockTime source feed outcome other =>
    match getBetFeedInfo s feed with
    | none => some { s with next := s.next + 1 }
    | some f =>
      if (orElse (validateFeedState source (some f))
          (orElse (validateResolve blockTime outcome f) other)).isNone then
        (settleFeed c f outcome (getOpenBetsByFeed s f.action_index)).map (s.finish f)
      else some { s with next := s.next + 1 }
  | .latch feed =>
    some { s with feeds := s.feeds.map fun g =>
      if g.action_index = feed ∧ g.feed_status = .open then { g with feed_status := .closed } else g }
  | .expire feed =>
    match getBetFeedInfo s feed with
    | none => some s
    | some f =>
      if f.feed_status = .open ∨ f.feed_status = .closed then
        some (s.finish f (refundOpenBets c f (getOpenBetsByFeed s f.action_index) .expired))
      else some s

def init : State := ⟨1, [], [], [], []⟩

end XChainIndexer.Bets.Feeds
