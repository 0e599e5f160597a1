import XChainIndexer.IndexReplay

/-! # A BATCH and its sub-commands

A BATCH carries a list of sub-commands in one text. It is judged as a whole (`actions/batch/validate.js`)
before the first of them runs, and if it is valid they are dispatched in the order of the list
(`actions/batch/index.js`). The checks read the text, and for the cap on MINTs the index of tickers as it
stands before the batch (`actions/batch/mint_cap.js`); the handlers that the sub-commands reach are
arbitrary programs on the index tables (`IndexReplay.Proc`), and the contracts that they run emit actions
that go to the same handlers.

How the runtime folds case, trims and reads numbers is a parameter (`Runtime`), and so are the verdicts of
the checks that have nothing to do with the list: whether the source sleeps and whether it can pay. -/

namespace XChainIndexer.Batch.Commands

open IndexTables IndexReplay

/-- The functions of the runtime on texts. -/
structure Runtime where
  toUpperCase : Text → Text
  toUpperCase_letters : ∀ t, (∀ ch ∈ t, 'A' ≤ ch ∧ ch ≤ 'Z') → toUpperCase t = t
  trim : Text → Text
  isNumeric : Text → Bool
  /-- `getFormatVersion` of any other text than `0` and the empty one. -/
  readVersion : Text → Option ℤ

/-- The activations a BATCH is judged under. -/
structure Gates where
  /-- `BATCH_SUBACTION_NORMALIZATION`. -/
  normalize : Bool
  /-- `BATCH_ISSUANCE_LIMITS`. -/
  limitsActive : Bool
  /-- `BATCH_COST_WEIGHTING`. -/
  weightsActive : Bool
  /-- `ACTION_ADMISSION_DISPATCHED_ONLY`. -/
  dispatchedOnly : Bool

/-- What a BATCH is judged by, besides its text and the index tables. -/
structure Host extends Runtime where
  rules : Rules
  blockIndex : ℕ
  gates : Gates
  /-- `protocolChanges.isEnabled` at this block. -/
  isEnabled : Text → Bool
  /-- The names of the protocol changes are all upper case. -/
  isEnabled_upper : ∀ name, isEnabled name = true → toUpperCase name = name
  airdropLegWeightActive : Bool
  airdropLegCount : List Text → ℕ
  /-- The SOURCE is not sleeping. -/
  isActionAllowed : Bool
  isGasProvablyUnaffordable : List Text → Bool

/-! ### Reading one sub-command -/

section read
variable (r : Runtime)

def dispatchedActions : List Text :=
  ["ADDRESS", "AIRDROP", "BATCH", "BET", "BET_EXPIRE", "BROADCAST", "CALLBACK", "COINPAY", "COINPAY_EXPIRE",
    "DESTROY", "DISPENSER", "DISPENSER_CLOSE", "DISPENSER_EXPIRE", "DISPENSE", "DIVIDEND", "FILE", "ISSUE",
    "LIST", "LINK", "MINT", "MESSAGE", "ORDER", "ORDER_EXPIRE", "ORDER_MATCH", "SLEEP", "SEND", "SWAP",
    "SWAP_EXPIRE", "SWAP_MATCH", "CROSS_SETTLE", "SWEEP", "UNKNOWN", "DEPLOY", "EXECUTE", "DEPOSIT",
    "WITHDRAW", "VOTE", "STAKE", "UNSTAKE", "DELEGATE", "COLLECT", "SLASH", "PRICE", "ATTEST", "ANCHOR",
    "XCALL", "XEXEC", "XBRIDGE", "NODEPROOF", "ROLLCALL"].map String.toList

def actionAliases : List (Text × Text) :=
  [("TRANSFER".toList, "SEND".toList), ("ADDR".toList, "ADDRESS".toList), ("DROP".toList, "AIRDROP".toList),
    ("CAST".toList, "BROADCAST".toList), ("MSG".toList, "MESSAGE".toList)]

def mint : Text := "MINT".toList

def batch : Text := "BATCH".toList

def issue : Text := "ISSUE".toList

/-- The counting bucket of an ISSUE of a child, no name of an action. -/
def childIssueKey : Text := "ISSUE.CHILD".toList

/-- The first parameter is a TICK, not a VERSION; a parameter that is not there reads `undefined`. -/
def isLegacyActionFormat : List Text → Bool
  | [] => true
  | version :: _ => 2 < (version.map utf16Units).sum || !r.isNumeric version

def dealias (action : Text) : Text :=
  actionAliases.foldl (fun action a => if action = a.1 then a.2 else action) action

def normalizeSubAction (action : Text) (params : List Text) : Text × List Text :=
  let action := dealias action
  if action ∈ [issue, mint, "SEND".toList] && isLegacyActionFormat r params then
    (action, ['0'] :: params)
  else (action, params)

/-- `getFormatVersion`; a parameter that is missing or empty is version 0. -/
def getFormatVersion : Option Text → Option ℤ
  | none => some 0
  | some version => if version = [] || version = ['0'] then some 0 else r.readVersion version

/-- The ACTION as it stands in the text. -/
def wireAction (command : Text) : Text := (command.splitOn '|').headD []

def wireParams (command : Text) : List Text := (command.splitOn '|').drop 1

/-- The ACTION that the scans of the list see. -/
def scanAction (normalize : Bool) (command : Text) : Text :=
  if normalize then dealias (wireAction command) else wireAction command

/-- The parameters as the dispatch will hand them on. -/
def scanParams (normalize : Bool) (action command : Text) : List Text :=
  if normalize then (normalizeSubAction r action (wireParams command)).2 else wireParams command

/-- Only an ISSUE of a dotted TICK that is no `^id` counts under another name. -/
def classifyLimitAction (normalize : Bool) (action command : Text) : Text :=
  if action ≠ issue then action
  else
    let tick := (scanParams r normalize action command)[1]?.getD []
    if tick.head? = some '^' then action
    else if '.' ∈ tick then childIssueKey
    else action

/-- The TICK that the handler will parse, empty if there is none. -/
def subCommandTick (normalize : Bool) (action command : Text) : Text :=
  ((scanParams r normalize action command)[1]?.map r.trim).getD []

end read

/-! ### The checks of the whole list -/

section checks
variable (h : Host)

def commandWeights : List (Text × ℕ) :=
  [("AIRDROP".toList, 25), ("DIVIDEND".toList, 25), ("DEPLOY".toList, 30), ("EXECUTE".toList, 30),
    ("XEXEC".toList, 30)]

def subCommandWeight (action command : Text) : ℕ :=
  match commandWeights.lookup action with
  | none => 1
  | some weight =>
    -- a carrier of a chunk weighs what a row weighs
    if action = "DEPLOY".toList && getFormatVersion h.toRuntime (wireParams command).head? = some 4 then 1
    else if action = "AIRDROP".toList && h.airdropLegWeightActive then
      weight * h.airdropLegCount (wireParams command)
    else weight

def batchWeight (commands : List Text) : ℕ :=
  (commands.map fun command =>
    subCommandWeight h (scanAction h.gates.normalize command) command).sum

def commandLimit : ℕ := 250

def weightBudget : ℕ := 250

/-- The first error stands. -/
def firstError (error : Option String) (check : Option String) : Option String := error <|> check

/-- `replace` of a text that is not empty: the first occurrence goes. -/
def removeFirst (pattern : Text) : Text → Text
  | [] => []
  | c :: t => if pattern.isPrefixOf (c :: t) then (c :: t).drop pattern.length
    else c :: removeFirst pattern t

/-- The text of the FORMAT. -/
def formatText : Option ℤ → Text
  | none => "null".toList
  | some format => (toString format).toList

/-- The commands; the first one still has the head of the BATCH, which is stripped. -/
def readCommands (format : Option ℤ) (txData : Text) : List Text :=
  (txData.splitOn ';').modifyHead (removeFirst ("BATCH|".toList ++ formatText format ++ ['|']))

def formatError (format : Option ℤ) : Option String :=
  if format = some 0 then none else some "invalid: VERSION (unknown)"

def commandCapError (commands : List Text) : Option String :=
  if h.gates.limitsActive then
    if (if h.gates.weightsActive then weightBudget else commandLimit) < commands.length then
      some "invalid: COMMAND (limit)"
    else if h.gates.weightsActive && weightBudget < batchWeight h commands then
      some "invalid: COMMAND (limit)"
    else none
  else none

/-- The name under which a sub-command counts. -/
def tallyAction (command : Text) : Text :=
  let action := scanAction h.gates.normalize command
  if h.gates.limitsActive then classifyLimitAction h.toRuntime h.gates.normalize action command else action

/-- The TICKs of the MINTs, in the order of the list. -/
def mintTicks (commands : List Text) : List Text :=
  (commands.filter fun command => tallyAction h command = mint).map
    (subCommandTick h.toRuntime h.gates.normalize mint)

def activationError (commands : List Text) : Option String :=
  commands.foldl (fun error command =>
    let action := scanAction h.gates.normalize command
    firstError error <|
      if h.gates.dispatchedOnly && action ≠ [] && action ∉ dispatchedActions then
        some "invalid: ACTION (unknown)"
      else if h.isEnabled action = false then some "invalid: ACTION (unknown)"
      else none) none

def ctx (suppress : Bool) : Ctx := h.rules.ctx h.blockIndex suppress

/-- What a MINT is counted under: the id of its TICK, or the bucket of all that have none. -/
def mintKey (names : Names) (tick : Text) : Option ℕ :=
  if tick = [] then none else getTickerId (ctx h true) names tick

/-- The counts of the loop and the largest one so far. -/
def countMint (counts : (Option ℕ → ℕ) × ℕ) (key : Option ℕ) : (Option ℕ → ℕ) × ℕ :=
  let count := counts.1 key + 1
  (Function.update counts.1 key count, max counts.2 count)

def maxMintsPerDistinctTick (names : Names) (ticks : List Text) : ℕ :=
  ((ticks.map (mintKey h names)).foldl countMint (fun _ => 0, 0)).2

/-- `actionLimits`, from the activation of the limits on with those of `gatedActionLimits`. -/
def actionLimits (limitsActive : Bool) : List (Text × ℕ) :=
  [(batch, 0), (mint, 1), (issue, 1)] ++ if limitsActive then [("DEPLOY".toList, 1)] else []

/-- The error of one action of the tally. -/
def capError (names : Names) (commands : List Text) (action : Text) : Option String :=
  let count := if h.gates.limitsActive && action = mint then
      maxMintsPerDistinctTick h names (mintTicks h commands)
    else (commands.map (tallyAction h)).count action
  match (actionLimits h.gates.limitsActive).lookup action with
  | none => none
  | some limit => if limit < count then some ("invalid: " ++ String.ofList action ++ " (limit)") else none

def actionCapError (names : Names) (commands : List Text) : Option String :=
  ((commands.map (tallyAction h)).eraseDups).foldl
    (fun error action => firstError error (capError h names commands action)) none

def sleepError : Option String :=
  if h.isActionAllowed then none else some "invalid: SOURCE (sleeping)"

def gasError (commands : List Text) : Option String :=
  if h.gates.limitsActive && h.isGasProvablyUnaffordable commands then
    some "invalid: GAS (insufficient)"
  else none

/-- The commands of a BATCH and the first error, in the order of the checks. -/
def checkBatch (names : Names) (format : Option ℤ) (txData : Text) (error : Option String) :
    List Text × Option String :=
  let commands := readCommands format txData
  (commands, firstError (firstError (firstError (firstError (firstError (firstError error
    (formatError format)) (commandCapError h commands)) (activationError h commands))
    (actionCapError h names commands)) (sleepError h)) (gasError h commands))

end checks

/-! ### The dispatch -/

structure SubCommand where
  action : Text
  params : List Text

def prepareSubCommand (h : Host) (command : Text) : SubCommand :=
  let action := h.toUpperCase (wireAction command)
  if h.gates.normalize then
    let sub := normalizeSubAction h.toRuntime action (wireParams command)
    ⟨sub.1, sub.2⟩
  else ⟨action, wireParams command⟩

/-- The TICK under which a MINT looks its token up. -/
def mintTick (h : Host) (sub : SubCommand) : Option Text :=
  if sub.action = mint && getFormatVersion h.toRuntime sub.params.head? = some 0 then
    (sub.params[1]?.map h.trim).filter (· ≠ [])
  else none

/-- The index tables and the rest of the database, with the tokens of the MINTs that ran. -/
structure State (W : Type) where
  names : Names
  world : W
  /-- By the MINTs among the sub-commands. -/
  minted : List ℕ
  /-- By the MINTs that contracts emitted. -/
  emitted : List ℕ

/-- What an action does, and what the contracts that it runs emit, those they call among them
(`actions/execute/emission.js`). -/
structure Actions (W : Type) where
  handler : SubCommand → Option ℕ → W → Proc W
  emits : SubCommand → W → List SubCommand

variable {W : Type}

/-- `getTokenInfo` of a MINT, which interns a TICK that is new. -/
def mintToken (h : Host) (names : Names) (sub : SubCommand) : Names × Option ℕ :=
  match mintTick h sub with
  | none => (names, none)
  | some tick => createTicker (ctx h false) names tick

/-- One action. A MINT looks its token up first; then the handler runs to its end, with savepoints of its
own. -/
def runAction (h : Host) (actions : Actions W) (names : Names) (world : W) (sub : SubCommand) :
    Option ((Names × W) × Option ℕ) :=
  let token := mintToken h names sub
  (exec h.rules h.blockIndex ⟨token.1, []⟩ (actions.handler sub token.2 world)).map (·, token.2)

/-- An emitted action goes to the handler that a sub-command goes to. -/
def dispatchEmission (h : Host) (actions : Actions W) (s : State W) (sub : SubCommand) :
    Option (State W) :=
  (runAction h actions s.names s.world sub).map fun r =>
    { s with names := r.1.1, world := r.1.2, emitted := s.emitted ++ r.2.toList }

def dispatch (h : Host) (actions : Actions W) (s : State W) (command : Text) : Option (State W) :=
  let sub := prepareSubCommand h command
  (runAction h actions s.names s.world sub).bind fun r =>
    (actions.emits sub r.1.2).foldlM (dispatchEmission h actions)
      ⟨r.1.1, r.1.2, s.minted ++ r.2.toList, s.emitted⟩

def dispatchSubCommands (h : Host) (actions : Actions W) (s : State W) (commands : List Text) :
    Option (State W) :=
  commands.foldlM (dispatch h actions) s

/-- `parse` of a BATCH: `none` when a handler fails. -/
def parse (h : Host) (actions : Actions W) (names : Names) (world : W) (format : Option ℤ) (txData : Text)
    (error : Option String) : Option (State W × Option String) :=
  let checked := checkBatch h names format txData error
  match checked.2 with
  | some status => some (⟨names, world, [], []⟩, some status)
  | none => (dispatchSubCommands h actions ⟨names, world, [], []⟩ checked.1).map (·, none)

end XChainIndexer.Batch.Commands
