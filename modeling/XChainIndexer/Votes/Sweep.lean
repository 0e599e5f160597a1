import XChainIndexer.Votes.PollTally

/-! # The vote sweep and its watermark cache

`processVoteFinalizations` of `utility/vote_passes.js`, run once per block attempt: polls whose
window has closed are finalized, then every armed poll is tallied at the block and finalized if it
crosses its threshold. A node keeps in memory, per poll, the fingerprint of the input rows at which
the poll was last tallied without deciding, and skips the tally while the fingerprint stays the same
(`evaluateArmedPoll`). `evaluateFull` is the sweep of a node that keeps no such cache.

A block is what its actions and passes write, as functions of the tables they run on. An attempt may
abort: the tables are rolled back, the cache is not. A committed rollback clears the cache, and so
does a restart. -/

namespace XChainIndexer.Votes.Sweep

open Lib.Maximum Votes.PollTally

/-! ### Writing rows -/

inductive Write
  | poll (row : Poll)
  | vote (row : VoteRow)
  | delegation (row : DelegationRow)
  | credit (row : LedgerRow)
  | debit (row : LedgerRow)

/-- A ledger row replaces the one of its action, tick and address. -/
def createLedgerChangeRecord (rows : List LedgerRow) (r : LedgerRow) : List LedgerRow :=
  if rows.any fun q => q.action_index = r.action_index ∧ q.tick = r.tick ∧ q.address = r.address then
    rows.map fun q =>
      if q.action_index = r.action_index ∧ q.tick = r.tick ∧ q.address = r.address then r else q
  else rows ++ [r]

/-- The row written; the index of a poll is its key. -/
def Write.apply (t : Tables) : Write → Tables
  | .poll row =>
    if t.polls.any (·.action_index = row.action_index) then t
    else { t with polls := t.polls ++ [row] }
  | .vote row => { t with votes := t.votes ++ [row] }
  | .delegation row => { t with delegations := t.delegations ++ [row] }
  | .credit row => { t with credits := createLedgerChangeRecord t.credits row }
  | .debit row => { t with debits := createLedgerChangeRecord t.debits row }

def applyAll (t : Tables) (writes : List Write) : Tables := writes.foldl Write.apply t

/-- What a block writes: its actions, the finalization of a poll (deposit and callback), and the
passes after the vote sweep. -/
structure Block where
  actions : Tables → List Write
  finalized : ℕ → Tables → List Write
  after : Tables → List Write

/-! ### Finalizing a poll -/

def Poll.close (poll : Poll) (tally : Tally) (closeBlock : ℕ) (early : Bool) : Poll :=
  { poll with
    poll_status := if tally.outcome.quorum_met && tally.outcome.min_voters_met then .finalized
      else .failedQuorum
    effective_close_block := some closeBlock
    decided_early := early }

/-- VOTE v2: a poll that is still open is closed with its tally. -/
def finalizePoll (n : Node) (b : Block) (t : Tables) (pollIndex closeBlock : ℕ) (early : Bool) :
    Tables :=
  match getPoll t pollIndex with
  | none => t
  | some poll =>
    if poll.poll_status = .open then
      let tally := tallyAt n t poll (min closeBlock poll.end_block)
      let closed := { t with polls := t.polls.map fun p =>
        if p.action_index = pollIndex then Poll.close p tally closeBlock early else p }
      applyAll closed (b.finalized pollIndex closed)
    else t

/-! ### The sweep -/

/-- The fingerprint of a poll's input rows, with the split rule active at the block. -/
structure Fingerprint where
  v : ℕ
  d : ℕ
  l : ℕ
  exact : Bool
  deriving DecidableEq

def getPollTallyInputWatermark (n : Node) (t : Tables) (poll : Poll) (height : ℕ) : Fingerprint where
  v := maxOf ((pollVotes t poll.action_index).map (·.action_index))
  d := maxOf ((t.delegations.filter (·.tick = poll.tick)).map (·.action_index))
  l := max (maxOf ((t.credits.filter (·.tick = poll.tick)).map (·.action_index)))
    (maxOf ((t.debits.filter (·.tick = poll.tick)).map (·.action_index)))
  exact := n.exactSplit height

/-- Whether the poll's tally at the block crosses its threshold and passes the gates. -/
def decides (n : Node) (t : Tables) (poll : Poll) (height : ℕ) : Bool :=
  (getPollTally n t poll.action_index height).any fun tally =>
    tally.crosses (poll.decide_threshold.getD 0)

abbrev Cache := ℕ → Option Fingerprint

def evaluateArmedPoll (n : Node) (b : Block) (height : ℕ) (s : Tables × Cache) (poll : Poll) :
    Tables × Cache :=
  let watermark := getPollTallyInputWatermark n s.1 poll height
  if poll.weight_mode ≠ .timeWeighted ∧ s.2 poll.action_index = some watermark then s
  else if decides n s.1 poll height then
    (finalizePoll n b s.1 poll.action_index height true, Function.update s.2 poll.action_index none)
  else if poll.weight_mode ≠ .timeWeighted then
    (s.1, Function.update s.2 poll.action_index (some watermark))
  else s

def evaluateFull (n : Node) (b : Block) (height : ℕ) (t : Tables) (poll : Poll) : Tables :=
  if decides n t poll height then finalizePoll n b t poll.action_index height true else t

def getDuePolls (t : Tables) (height : ℕ) : List Poll :=
  (t.polls.filter fun p => p.poll_status = .open ∧ p.end_block ≤ height).insertionSort
    fun p q => p.action_index ≤ q.action_index

def getArmedPolls (t : Tables) (height : ℕ) : List Poll :=
  (t.polls.filter fun p => p.poll_status = .open ∧ p.decide_threshold.isSome ∧
    height < p.end_block).insertionSort fun p q => p.action_index ≤ q.action_index

/-- The tables when the armed polls are read: the block's actions are written and the polls that are
due have closed. -/
def swept (n : Node) (b : Block) (height : ℕ) (t : Tables) : Tables :=
  let work := applyAll t (b.actions t)
  (getDuePolls work height).foldl
    (fun t p => finalizePoll n b t p.action_index p.end_block false) work

/-! ### Attempts -/

/-- How a block attempt ends; one that aborts does so after evaluating some of the armed polls. -/
inductive Outcome
  | commits
  | aborts (evaluated : ℕ)

inductive Event
  | attempt (block : Block) (outcome : Outcome)
  | rollback (tables : Tables) (height : ℕ)
  | restart

/-- A node that skips unchanged tallies. -/
structure State where
  tables : Tables
  height : ℕ
  cache : Cache

/-- The cached sweep over the first armed polls. -/
def sweepCached (n : Node) (b : Block) (height : ℕ) (t : Tables) (cache : Cache) (polls : List Poll) :
    Tables × Cache :=
  polls.foldl (evaluateArmedPoll n b height) (t, cache)

def step (n : Node) (s : State) : Event → State
  | .attempt b outcome =>
    let height := s.height + 1
    let work := swept n b height s.tables
    let armed := getArmedPolls work height
    match outcome with
    | .commits =>
      let done := sweepCached n b height work s.cache armed
      ⟨applyAll done.1 (b.after done.1), height, done.2⟩
    | .aborts evaluated =>
      { s with cache := (sweepCached n b height work s.cache (armed.take evaluated)).2 }
  | .rollback tables height => ⟨tables, height, fun _ => none⟩
  | .restart => { s with cache := fun _ => none }

/-- A node that tallies every armed poll at every block. -/
structure FullState where
  tables : Tables
  height : ℕ

def stepFull (n : Node) (s : FullState) : Event → FullState
  | .attempt b .commits =>
    let height := s.height + 1
    let work := swept n b height s.tables
    let done := (getArmedPolls work height).foldl (evaluateFull n b height) work
    ⟨applyAll done (b.after done), height⟩
  | .attempt _ (.aborts _) => s
  | .rollback tables height => ⟨tables, height⟩
  | .restart => s

end XChainIndexer.Votes.Sweep
