import Mathlib.Tactic

/-! # The block loop and the decoder

The decoder follows the chain in its own database. A reorg removes its blocks from some height on and
writes its REORG events in the same transaction. The indexer polls: a pass reads the processed-reorg
cursor, the unprocessed events and the tips, rolls back to the deepest event, records every event, and
then applies block after block (`XChainIndexer/block_poll.js`, `catchUpToDecoder`).

Every read of the decoder database is a step of its own, so a reorg may land between any two of them.
The block times go through the two single-entry memos of `decoderDb` (`getBlockTime`,
`getRawBlockTime`); a rollback clears them, a crash loses them. Heights are counted from the
decoder's first block, and a tip is the number of blocks. -/

namespace XChainIndexer.BlockPoll.Step

/-! ### The decoder's chain -/

structure Block (T : Type) where
  txs : T
  /-- The block's own stamp. -/
  time : ℕ
deriving DecidableEq

/-- A REORG event: its id and the lowest block it orphans. -/
structure Reorg where
  id : ℕ
  blockIndex : ℕ

structure Config where
  firstBlock : ℕ
  /-- `REORG_RECHECK_BLOCKS`. -/
  reorgRecheckBlocks : ℕ
  /-- The network takes its protocol time from the median-time-past. -/
  mtpActive : Bool
  /-- The maturity-horizon barrier reads the time of an older block first. -/
  horizonActive : ℕ → Bool

/-- `ANCHOR_REWARD_MIRROR_MATURITY`. -/
def mirrorMaturity : ℕ := 144

def medianTimeSpan : ℕ := 11

/-- The median of the previous block times, newest first. -/
def medianTimePast (previous : List ℕ) : Option ℕ :=
  let times := ((previous.take medianTimeSpan).filter (0 < ·)).insertionSort (· ≤ ·)
  times[times.length / 2]?

/-- Never ahead of the block's own stamp. -/
def protocolTime (c : Config) (raw : ℕ) (previous : List ℕ) : ℕ :=
  if c.mtpActive then
    match medianTimePast previous with
    | some mtp => min mtp raw
    | none => raw
  else raw

section chain

variable {T : Type}

/-- `SELECT block_time from blocks where block_index=?`. -/
def rawTimeAt (chain : List (Block T)) (height : ℕ) : Option ℕ := chain[height]?.map Block.time

/-- The times of the blocks below, newest first. -/
def getPreviousBlockTimes (chain : List (Block T)) (height : ℕ) : List ℕ :=
  ((chain.take height).map Block.time).reverse.take medianTimeSpan

/-- The protocol time of a stored block. -/
def protocolTimeAt (c : Config) (chain : List (Block T)) (height : ℕ) : Option ℕ :=
  (rawTimeAt chain height).map fun raw => protocolTime c raw (getPreviousBlockTimes chain height)

/-- What a block is processed from. -/
structure Input (T : Type) where
  txs : T
  blockTime : ℕ
  rawBlockTime : ℕ
deriving DecidableEq

def inputAt (c : Config) (chain : List (Block T)) (height : ℕ) : Option (Input T) :=
  chain[height]?.map fun b =>
    ⟨b.txs, protocolTime c b.time (getPreviousBlockTimes chain height), b.time⟩

/-- The blocks a fresh indexer applies. -/
def freshBlocks (c : Config) (chain : List (Block T)) : List (Input T) :=
  (List.range chain.length).filterMap (inputAt c chain)

end chain

/-! ### A pass -/

/-- The memos of `decoderDb`: a height and its time. -/
structure Memo where
  raw : Option (ℕ × ℕ)
  protocol : Option (ℕ × ℕ)

/-- The reads of `readBlockInputs`. `keep` marks the one whose result the block is processed with. -/
inductive Read
  | transactions
  | blockTime (height : ℕ) (keep : Bool)
  /-- `protocolTimeForStoredBlock`: the raw time, and the times below it. -/
  | storedTime (height : ℕ) (keep : Bool)
  | previousTimes (height : ℕ) (raw : Option ℕ) (keep : Bool)
  | rawBlockTime (height : ℕ)

/-- The block being read. -/
structure Attempt (T : Type) where
  txs : Option T
  blockTime : Option ℕ
  rawBlockTime : Option ℕ
  todo : List Read

/-- Where a pass stands. The cursor, the tips and the pending events are those it read. -/
inductive Phase (T : Type)
  | idle
  | cursorRead (cursor : Option ℕ)
  | eventsRead (cursor : Option ℕ) (pending : List Reorg)
  | tipRead (cursor : Option ℕ) (pending : List Reorg) (lastDecoder : ℕ)
  | marking (todo : List Reorg) (lastDecoder : ℕ)
  | catchUp (cursor : Option ℕ) (last lastDecoder : ℕ)
  | parsing (cursor : Option ℕ) (last lastDecoder : ℕ) (attempt : Attempt T)
  | applied (cursor : Option ℕ) (last : ℕ)

structure State (T : Type) where
  chain : List (Block T)
  events : List Reorg
  nextEventId : ℕ
  committed : List (Input T)
  /-- The decoder event id of the newest REORG marker. -/
  cursor : Option ℕ
  memo : Memo
  phase : Phase T

inductive Event (T : Type)
  /-- The decoder appends a block. -/
  | decoderBlock (block : Block T)
  /-- The decoder removes the blocks from a height on and writes events for them. -/
  | decoderReorg (height : ℕ) (blockIndexes : List ℕ)
  /-- An event of another code takes an id. -/
  | decoderEvent
  | readCursor
  | readEvents
  | readTip
  /-- The rollback, when the indexer is past the deepest event. -/
  | applyReorgs
  | createReorg
  | startCatchUp
  /-- The head of the catch-up loop. -/
  | nextBlock
  | read
  | commit
  | refreshTip
  /-- A deferred or failed block, the end of a pass, an outage that is ridden out. -/
  | stop
  | crash
deriving DecidableEq

section steps

variable {T : Type}

def getReorgsSince (events : List Reorg) : Option ℕ → List Reorg
  | none => events
  | some afterId => events.filter (afterId < ·.id)

def minReorgBlock (pending : List Reorg) : Option ℕ := (pending.map Reorg.blockIndex).min?

/-- The first reads of a block. -/
def startRead (c : Config) (height : ℕ) : Attempt T where
  txs := none
  blockTime := none
  rawBlockTime := none
  todo := [.transactions, .blockTime height false] ++
    (if c.horizonActive height ∧ mirrorMaturity ≤ height then
      [.blockTime (height - mirrorMaturity) false] else []) ++
    [.blockTime height true, .rawBlockTime height]

/-- `getRawBlockTime`: the memo, or the row. -/
def getRawBlockTime (chain : List (Block T)) (memo : Memo) (height : ℕ) : Memo × Option ℕ :=
  match memo.raw with
  | some (h, t) => if h = height then (memo, some t) else fresh
  | none => fresh
where
  fresh : Memo × Option ℕ :=
    match rawTimeAt chain height with
    | some t => ({ memo with raw := some (height, t) }, some t)
    | none => (memo, none)

/-- Record the time of a block if it is the one asked for. -/
def Attempt.keepTime (a : Attempt T) (keep : Bool) (time : Option ℕ) : Attempt T :=
  if keep then { a with blockTime := time } else a

/-- One read of the block at a height. -/
def readStep [Inhabited T] (c : Config) (chain : List (Block T)) (height : ℕ) (memo : Memo)
    (a : Attempt T) : Option (Memo × Attempt T) :=
  match a.todo with
  | [] => none
  | .transactions :: todo =>
    some (memo, { a with txs := some ((chain[height]?.map Block.txs).getD default), todo })
  | .blockTime h keep :: todo =>
    match memo.protocol with
    | some (h', t) =>
      if h' = h then some (memo, { a.keepTime keep (some t) with todo })
      else some (memo, { a with todo := .storedTime h keep :: todo })
    | none => some (memo, { a with todo := .storedTime h keep :: todo })
  | .storedTime h keep :: todo =>
    let r := getRawBlockTime chain memo h
    some (r.1, { a with todo := .previousTimes h r.2 keep :: todo })
  | .previousTimes h raw keep :: todo =>
    let time := raw.map fun t => protocolTime c t (getPreviousBlockTimes chain h)
    let memo := match time with
      | some t => { memo with protocol := some (h, t) }
      | none => memo
    some (memo, { a.keepTime keep time with todo })
  | .rawBlockTime h :: todo =>
    let r := getRawBlockTime chain memo h
    some (r.1, { a with rawBlockTime := r.2, todo })

/-- The block is processed once all is read and both times are usable. -/
def Attempt.input (a : Attempt T) : Option (Input T) :=
  match a.todo, a.txs, a.blockTime, a.rawBlockTime with
  | [], some txs, some t, some raw => if 0 < t ∧ 0 < raw then some ⟨txs, t, raw⟩ else none
  | _, _, _, _ => none

/-- The mid-catch-up check is due at this block. -/
def Config.recheckDue (c : Config) (last : ℕ) : Bool :=
  (((c.firstBlock + last : ℕ) : ℤ) - 1) % (c.reorgRecheckBlocks : ℤ) = 0

/-- The ids of new events. -/
def newReorgs (nextId : ℕ) (blockIndexes : List ℕ) : List Reorg :=
  blockIndexes.mapIdx fun i b => ⟨nextId + i, b⟩

def step [Inhabited T] (c : Config) (s : State T) : Event T → Option (State T)
  | .decoderBlock block => some { s with chain := s.chain ++ [block] }
  | .decoderReorg height blockIndexes =>
    if height ∈ blockIndexes ∧ ∀ b ∈ blockIndexes, height ≤ b then
      some { s with
        chain := s.chain.take height
        events := s.events ++ newReorgs s.nextEventId blockIndexes
        nextEventId := s.nextEventId + blockIndexes.length }
    else none
  | .decoderEvent => some { s with nextEventId := s.nextEventId + 1 }
  | .readCursor =>
    match s.phase with
    | .idle => some { s with phase := .cursorRead s.cursor }
    | _ => none
  | .readEvents =>
    match s.phase with
    | .cursorRead cursor => some { s with phase := .eventsRead cursor (getReorgsSince s.events cursor) }
    | _ => none
  | .readTip =>
    match s.phase with
    | .eventsRead cursor pending => some { s with phase := .tipRead cursor pending s.chain.length }
    | _ => none
  | .applyReorgs =>
    match s.phase with
    | .tipRead cursor pending lastDecoder =>
      match minReorgBlock pending with
      | none => some { s with phase := .catchUp cursor s.committed.length lastDecoder }
      | some block =>
        if block < s.committed.length then
          some { s with
            committed := s.committed.take block
            memo := ⟨none, none⟩
            phase := .marking pending lastDecoder }
        else some { s with phase := .marking pending lastDecoder }
    | _ => none
  | .createReorg =>
    match s.phase with
    | .marking (reorg :: todo) lastDecoder =>
      some { s with cursor := some reorg.id, phase := .marking todo lastDecoder }
    | _ => none
  | .startCatchUp =>
    match s.phase with
    | .marking [] lastDecoder =>
      some { s with phase := .catchUp s.cursor s.committed.length lastDecoder }
    | _ => none
  | .nextBlock =>
    match s.phase with
    | .catchUp cursor last lastDecoder =>
      if last < lastDecoder then
        if c.recheckDue last ∧ getReorgsSince s.events cursor ≠ [] then some { s with phase := .idle }
        else some { s with phase := .parsing cursor last lastDecoder (startRead c last) }
      else some { s with phase := .idle }
    | _ => none
  | .read =>
    match s.phase with
    | .parsing cursor last lastDecoder attempt =>
      (readStep c s.chain last s.memo attempt).map fun r =>
        { s with memo := r.1, phase := .parsing cursor last lastDecoder r.2 }
    | _ => none
  | .commit =>
    match s.phase with
    | .parsing cursor last _ attempt => attempt.input.map fun input =>
      { s with committed := s.committed ++ [input], phase := .applied cursor (last + 1) }
    | _ => none
  | .refreshTip =>
    match s.phase with
    | .applied cursor last => some { s with phase := .catchUp cursor last s.chain.length }
    | _ => none
  | .stop => some { s with phase := .idle }
  | .crash => some { s with memo := ⟨none, none⟩, phase := .idle }

/-- An empty indexer before a decoder's first block. -/
def init : State T where
  chain := []
  events := []
  nextEventId := 1
  committed := []
  cursor := none
  memo := ⟨none, none⟩
  phase := .idle

end steps

end XChainIndexer.BlockPoll.Step
