import XChainIndexer.SnapshotProof.Encoding
import XChainIndexer.Quorum.Stake

/-! # Judging a mirrored capability row

`consensus/capability_snapshot_proof`: a row of the hub's capability snapshots is judged by a proof that
the hub returns. The proof carries a checkpoint, which a quorum of the pinned validators has to have
signed (`consensus/snapshot_checkpoint/canonical.js`, `consensus/stake_weighted_quorum.js`), and the path
of the key's stake to the state root of that checkpoint (`proof_binding.js`). The outcome of the quorum
check is kept in a memo of 64 entries (`verify.js`), and the trust set is taken from the operator's pins
(`trust_set.js`, `trust_pin.js`, `mirror_judgement.js`).

A response is any JSON value. `Value` keeps what the code can see of a field: a safe integer, a text, or
something else of which only the conversions to a text, a truth value and bytes matter. -/

namespace XChainIndexer.SnapshotProof.Verify

open IndexTables Lib.MerklePath Lib.Digits SnapshotProof.Encoding

/-! ### Values of a response -/

inductive Value
  | undefined
  | null
  /-- A safe integer. -/
  | int (n : ℤ)
  | str (t : Text)
  /-- Any other value; a conversion that throws is `none`. -/
  | other (text : Option Text) (truthy : Bool) (bytes : Option Bytes)
deriving DecidableEq

namespace Value

/-- `String(v)`. -/
def text : Value → Option Text
  | undefined => some "undefined".toList
  | null => some "null".toList
  | int n => some (toString n).toList
  | str t => some t
  | other text _ _ => text

/-- The text of an element in `join`. -/
def joinText : Value → Option Text
  | undefined => some []
  | null => some []
  | v => v.text

def truthy : Value → Bool
  | undefined => false
  | null => false
  | int n => n ≠ 0
  | str t => t ≠ []
  | other _ truthy _ => truthy

def toBuf : Value → Option Bytes
  | str t => some (fromHex t)
  | other _ _ bytes => bytes
  | _ => none

end Value

/-- The number of a value that `sameBlock` and `blockMatches` accept. -/
def Value.block : Value → Option ℕ
  | .int n => if 0 ≤ n then some n.toNat else none
  | .str t => if isDigits t then some (decimal t) else none
  | _ => none

def sameBlock (left right : Value) : Bool := left.block.isSome && left.block = right.block

/-! ### Rows, responses and pins -/

structure Row where
  snapshot_block : ℕ
  capability : Text
  signing_pubkey : Text
  source : Text
  amount : Text

structure Checkpoint where
  chain : Value
  network : Value
  block_index : Value
  block_hash : Value
  state_root : Value
  state_root_version : Value
  /-- The JSON text of the field, `none` when it is undefined. -/
  validator_signatures : Option Text

structure RawSubRoots where
  balances_root : Value
  stakes_root : Value
  ownership_root : Value
  tokens_root : Value
  contract_state_root : Value

structure Member where
  pubkey : Value
  leaf_value : Value
  /-- `none` when it is not an array. -/
  siblings : Option (List Value)
  /-- The source and the weight, `none` when it is not an object. -/
  committed : Option (Value × Value)

structure Proof where
  block_index : Value
  sub_roots : Option RawSubRoots
  members : Option (List Member)

structure Response where
  snapshot_block : Value
  capability : Value
  checkpoint : Option Checkpoint
  proof : Option Proof

structure SigRow where
  pubkey : Value
  sig : Value

structure Validator where
  pubkey : Text
  source : Text
  weight : Text
deriving DecidableEq

structure TrustSet where
  validators : List Validator
  truncated : Bool
deriving DecidableEq

/-- The values of the operator's three variables for a network. -/
structure Pins where
  pin : Option Text
  next : Option Text
  start : Option Text

/-- A node: its runtime, the signature scheme and its configuration. -/
structure Node extends Runtime where
  toUpperCase : Text → Text
  /-- `ed25519.verify(message, sig, pubkey)`. -/
  verify : Text → Text → Text → Bool
  /-- `signatureRows` of a carrier with the JSON text. -/
  signatureRows : Text → Option (List SigRow)
  /-- `stateRootVersion(block, network, 'BTC')`; `none` when it throws. -/
  stateRootVersion : Value → Text → Option ℤ
  /-- `SNAPSHOT_BURIAL_ACTIVATION`. -/
  burial : Text → Option ℕ
  parsePinnedSet : Text → Except Text (List Validator)

inductive Verdict
  | verified
  | refused
  | held
deriving DecidableEq

structure Judgement where
  verdict : Verdict
  reason : Text
deriving DecidableEq

def held (reason : String) : Judgement := ⟨.held, reason.toList⟩

def refused (reason : String) : Judgement := ⟨.refused, reason.toList⟩

/-! ### The signed checkpoint -/

/-- `CANONICAL_REORG_BUFFER`. -/
def reorgBuffer : ℕ := 6

/-- `buriedSnapshotBlock`. -/
def snapshotCheckpointBlock (nd : Node) (snapshotBlock : ℕ) (network : Text) : ℕ :=
  match nd.burial network with
  | none => snapshotBlock
  | some threshold => if threshold ≤ snapshotBlock then snapshotBlock - reorgBuffer else snapshotBlock

/-- The text that the validators sign. -/
def checkpointText (network : Text) (block : ℤ) (hash root version : Text) : Text :=
  List.intercalate ['|'] ["XSNAPCKPT".toList, "BTC".toList, network, (toString block).toList, hash, root,
    version]

/-- `snapshotCheckpointCanonical`, `none` where it throws. -/
def snapshotCheckpointCanonical (nd : Node) (cp : Checkpoint) : Option Text :=
  match cp.block_index, cp.block_hash, cp.state_root with
  | .int block, .str hash, .str root =>
    if cp.chain = .str "BTC".toList ∧ isHexText 64 hash ∧ isHexText nd.hexWidth root then do
      let network ← cp.network.joinText
      let version ← cp.state_root_version.text
      return checkpointText network block (nd.toLowerCase hash) (nd.toLowerCase root) version
    else none
  | _, _, _ => none

/-- `/^(?:\d+\.?\d*|\.\d+)$/`. -/
def isDecimal (t : Text) : Bool :=
  let intPart := t.takeWhile Char.isDigit
  match t.dropWhile Char.isDigit with
  | [] => intPart ≠ []
  | c :: frac => c = '.' && frac.all Char.isDigit && (decide (intPart ≠ []) || decide (frac ≠ []))

/-- A decimal with at most one of the signs before it. -/
def isSigned (signs : List Char) (t : Text) : Bool :=
  match t with
  | [] => isDecimal []
  | c :: rest => if c ∈ signs then isDecimal rest else isDecimal t

def validTrustSet (nd : Node) (trust : TrustSet) : Bool :=
  decide (trust.validators ≠ []) && !trust.truncated &&
    (trust.validators.all fun v => isHexText 64 v.pubkey && decide (nd.trim v.source ≠ []) &&
      isSigned ['+'] (nd.trim v.weight)) &&
    decide (trust.validators.map fun v => nd.toLowerCase v.pubkey).Nodup

structure Sig where
  pubkey : Text
  sig : Text

/-- A signature row in its shape; the inner `none` is a row that is passed over, the outer one a row
that the loop throws on. -/
def readSig (row : SigRow) : Option (Option Sig) := do
  let pubkey ← row.pubkey.text
  if isHexText 64 pubkey then
    let sig ← row.sig.text
    if isHexText 128 sig then
      match row.pubkey, row.sig with
      | .str p, .str s => return some ⟨p, s⟩
      | .str _, _ => return none
      | _, _ => none
    else return none
  else return none

/-- The trusted keys whose signature verifies, each once. -/
def countSigners (nd : Node) (trusted : List Text) (canonical : Text) : List Text → List Sig → List Text
  | signers, [] => signers
  | signers, s :: sigs =>
    let pubkey := nd.toLowerCase s.pubkey
    if pubkey ∈ trusted ∧ pubkey ∉ signers ∧ nd.verify canonical s.sig s.pubkey then
      countSigners nd trusted canonical (signers ++ [pubkey]) sigs
    else countSigners nd trusted canonical signers sigs

/-! ### The quorum -/

def Validator.toRow (v : Validator) : Quorum.Stake.Validator := ⟨v.pubkey, some v.source, some v.weight⟩

def meetsStakeThreshold (nd : Node) (trust : TrustSet) (signers : List Text) : Bool :=
  Quorum.Stake.meetsStakeThreshold ⟨nd.trim, nd.toLowerCase⟩
    ⟨trust.truncated, trust.validators.map fun v => some v.toRow⟩ signers

/-- `snapshotCheckpointQuorum`, `none` where it throws. -/
def snapshotCheckpointQuorum (nd : Node) (cp : Checkpoint) (trust : TrustSet) : Option Bool :=
  if validTrustSet nd trust then
    match cp.validator_signatures.bind nd.signatureRows with
    | none => some false
    | some rows => do
      let canonical ← snapshotCheckpointCanonical nd cp
      let sigs ← rows.mapM readSig
      let trusted := trust.validators.map fun v => nd.toLowerCase v.pubkey
      return meetsStakeThreshold nd trust (countSigners nd trusted canonical [] (sigs.filterMap id))
  else some false

/-! ### The memo of checked checkpoints -/

structure Validation where
  quorum : Bool
  firstUseSet : Option (List Text)

/-- The signed text, the signatures' JSON text, the mode and the trust set. -/
abbrev Key := Text × Option Text × Bool × Option TrustSet

abbrev Memo := List (Key × Validation)

/-- `CHECKPOINT_VALIDATION_MEMO_CAP`. -/
def memoCap : ℕ := 64

/-- The signers of a checkpoint on first use: one that does not verify voids it. -/
def firstUseSigners (nd : Node) (cp : Checkpoint) : Option (List Text) := do
  let rows ← cp.validator_signatures.bind nd.signatureRows
  let canonical ← snapshotCheckpointCanonical nd cp
  let sigs ← rows.mapM fun row => match row.pubkey, row.sig with
    | .str p, .str s => if nd.verify canonical s p then some p else none
    | _, _ => none
  if rows = [] then none else some (sigs.map nd.toLowerCase)

def checkpointValidationKey (nd : Node) (cp : Checkpoint) (trust : Option TrustSet) (firstUse : Bool) :
    Option Key :=
  (snapshotCheckpointCanonical nd cp).map fun canonical =>
    (canonical, cp.validator_signatures, firstUse, trust)

/-- The validation that is computed on a miss. -/
def validate (nd : Node) (cp : Checkpoint) (trust : Option TrustSet) (firstUse : Bool) : Validation :=
  match trust with
  | some trust => ⟨(snapshotCheckpointQuorum nd cp trust).getD false, none⟩
  | none =>
    let firstUseSet := if firstUse then firstUseSigners nd cp else none
    ⟨firstUseSet.isSome, firstUseSet⟩

/-- Keep a validation, the oldest ones making room. -/
def rememberCheckpointValidation (memo : Memo) (key : Key) (v : Validation) : Memo :=
  let memo := memo ++ [(key, v)]
  memo.drop (memo.length - memoCap)

def checkpointValidation (nd : Node) (memo : Memo) (cp : Checkpoint) (trust : Option TrustSet)
    (firstUse : Bool) : Validation × Memo :=
  let firstUse := trust.isNone && firstUse
  match checkpointValidationKey nd cp trust firstUse with
  | none => (validate nd cp trust firstUse, memo)
  | some key =>
    match memo.lookup key with
    | some hit => (hit, memo.filter (·.1 ≠ key) ++ [(key, hit)])
    | none =>
      let v := validate nd cp trust firstUse
      (v, rememberCheckpointValidation memo key v)

/-! ### The stake proof -/

def stampedVersion : Value → Option ℤ
  | .int n => some n
  | .str t => if isDigits t then some (decimal t) else none
  | _ => none

def findMember (nd : Node) (members : List Member) (signingPubkey : Text) : Option Member :=
  members.find? fun m => match m.pubkey with
    | .str p => nd.toLowerCase p = nd.toLowerCase signingPubkey
    | _ => false

/-- A sub-root as `stateRoot` reads it. -/
def readRoot (v : Value) : Option (Option Bytes) := if v.truthy then v.toBuf.map some else some none

def readSubRoots (r : RawSubRoots) : Option SubRoots := do
  return ⟨← readRoot r.balances_root, ← readRoot r.stakes_root, ← readRoot r.ownership_root,
    ← readRoot r.tokens_root, ← readRoot r.contract_state_root⟩

/-- The node that a proof starts from. -/
def leafNode (rt : Runtime) (leaf : Value) : Option Bytes :=
  if leaf = .null ∨ leaf = .undefined then some (empty rt.hash emptyInput 0) else leaf.toBuf

/-- `verifySmtProof`, `none` where it throws. -/
def verifySmtProof (rt : Runtime) (root : Text) (key : Bytes) (leaf : Value)
    (siblings : Option (List Value)) : Option Bool :=
  match siblings with
  | none => some false
  | some siblings =>
    if siblings.length ≠ rt.depth then some false
    else do
      let leaf ← leafNode rt leaf
      let siblings ← siblings.mapM Value.toBuf
      return toHex (climb rt.hash leaf (bits (rt.hash.digest key)) siblings) = root

/-- The value is the hex text, in either case. -/
def sameHex (nd : Node) (hex : Text) : Value → Bool
  | .str t => nd.toLowerCase hex = nd.toLowerCase t
  | _ => false

/-- `judgeCapabilityStakeProof` from the member on, for a stakes root that the checkpoint binds. -/
def judgeMember (nd : Node) (row : Row) (stakesRoot : Text) (m : Member) : Judgement :=
  match (stakeKeyInput row.signing_pubkey row.capability).bind fun key =>
      verifySmtProof nd.toRuntime (nd.toLowerCase stakesRoot) key m.leaf_value m.siblings with
  | none => held "capability stake member proof is malformed"
  | some false => held "capability stake member proof is invalid"
  | some true =>
    if m.leaf_value = .null then refused "signing key is not a capability stake member"
    else
      match m.committed with
      | some (.str source, .str weight) =>
        match memberLeafInput nd.toRuntime source weight with
        | none => held "capability stake member commitment is malformed"
        | some leaf =>
          if sameHex nd (toHex (nd.hash.digest leaf)) m.leaf_value then
            if source ≠ row.source then held "multi-source key cannot bind this snapshot row"
            else
              match canonicalAmount nd.toRuntime weight, canonicalAmount nd.toRuntime row.amount with
              | some committedAmount, some rowAmount =>
                if committedAmount ≠ rowAmount then
                  refused "capability stake amount does not match snapshot row"
                else ⟨.verified, "capability stake proof matches snapshot row".toList⟩
              | _, _ => held "capability stake amount is malformed"
          else held "capability stake member commitment does not match leaf"
      | _ => held "capability stake member commitment is missing"

def judgeCapabilityStakeProof (nd : Node) (network : Text) (row : Row) (cp : Checkpoint)
    (proof : Option Proof) : Judgement :=
  match proof with
  | none => held "capability stake proof is missing"
  | some proof =>
    if !sameBlock proof.block_index cp.block_index then
      held "capability stake proof block does not match checkpoint"
    else
      match nd.stateRootVersion cp.block_index network with
      | none => held "checkpoint state root version cannot be derived"
      | some expectedVersion =>
        if stampedVersion cp.state_root_version ≠ some expectedVersion then
          held "checkpoint state root version does not match derived version"
        else
          match proof.sub_roots with
          | none => held "capability stake proof sub-roots are malformed"
          | some raw =>
            match raw.stakes_root, readSubRoots raw with
            | .str stakesRoot, some subRoots =>
              if !isHexText nd.hexWidth stakesRoot then
                held "capability stake proof sub-roots are malformed"
              else if !sameHex nd (toHex (stateRoot nd.toRuntime subRoots)) cp.state_root then
                held "capability stake proof sub-roots do not match checkpoint"
              else
                match proof.members with
                | none => held "capability stake proof members are malformed"
                | some members =>
                  match findMember nd members row.signing_pubkey with
                  | none => held "capability stake proof has no matching member"
                  | some m => judgeMember nd row stakesRoot m
            | _, _ => held "capability stake proof sub-roots are malformed"

/-- The exception for a hub on regtest that seeded its own key. -/
def isRegtestSeededSigner (nd : Node) (row : Row) (network : Text) (signers : Option (List Text))
    (judged : Judgement) : Bool :=
  match signers with
  | none => false
  | some signers =>
    let pubkey := nd.toLowerCase row.signing_pubkey
    network = "regtest".toList && judged = refused "signing key is not a capability stake member" &&
      nd.toLowerCase row.source = "seed:".toList ++ pubkey &&
      (canonicalAmount nd.toRuntime row.amount).isSome &&
      canonicalAmount nd.toRuntime row.amount = canonicalAmount nd.toRuntime ['1'] &&
      decide (pubkey ∈ signers)

/-- The checkpoint is that of the network at the block. -/
def checkpointAt (network : Text) (block : ℕ) (cp : Checkpoint) : Bool :=
  cp.chain = .str "BTC".toList && cp.network = .str network && sameBlock cp.block_index (.int block)

/-- What is left to judge once the checkpoint's validation is known. -/
def judgeValidated (nd : Node) (row : Row) (network : Text) (cp : Checkpoint) (proof : Option Proof)
    (validation : Validation) : Judgement :=
  if !validation.quorum then held "snapshot checkpoint does not have a valid quorum"
  else
    let judged := judgeCapabilityStakeProof nd network row cp proof
    if isRegtestSeededSigner nd row network validation.firstUseSet judged then
      ⟨.verified, "regtest seeded validator signed the snapshot checkpoint".toList⟩
    else judged

def verifyCapabilitySnapshotProof (nd : Node) (memo : Memo) (row : Row) (response : Option Response)
    (trust : Option TrustSet) (network : Text) (firstUse : Bool) : Judgement × Memo :=
  match response with
  | none => (held "capability snapshot proof response is missing", memo)
  | some response =>
    if !(sameBlock response.snapshot_block (.int row.snapshot_block) &&
        response.capability = .str row.capability) then
      (held "capability snapshot proof response is for another snapshot", memo)
    else
      match response.checkpoint.filter
          (checkpointAt network (snapshotCheckpointBlock nd row.snapshot_block network)) with
      | none => (held "snapshot checkpoint is for another chain, network, or block", memo)
      | some cp =>
        let (validation, memo) := checkpointValidation nd memo cp trust firstUse
        (judgeValidated nd row network cp response.proof validation, memo)

/-! ### The trust set and the mirror's judgement -/

def present (nd : Node) : Option Text → Option Text
  | none => none
  | some raw => if nd.trim raw = [] then none else some raw

/-- `Number.MAX_SAFE_INTEGER`. -/
def maxSafe : ℕ := 2 ^ 53 - 1

/-- The variable that holds the pin for a snapshot and its value, or an error. -/
def selectTrustPinRaw (nd : Node) (network : Text) (snapshotBlock : ℕ) (pins : Pins) :
    Except Text (Text × Option Text) :=
  let pin := "CHECKPOINT_VALIDATORS_BTC_".toList ++ nd.toUpperCase network
  match present nd pins.next with
  | none => .ok (pin, present nd pins.pin)
  | some next =>
    let error := pin ++ "_FROM must be a decimal safe integer".toList
    match pins.start with
    | none => .error error
    | some start =>
      if isDigits start && decide (decimal start ≤ maxSafe) then
        if decimal start ≤ snapshotBlock then .ok (pin ++ "_NEXT".toList, some next)
        else .ok (pin, present nd pins.pin)
      else .error error

/-- The trust set, `none` on first use. -/
def resolveTrustSet (nd : Node) (network : Text) (snapshotBlock : ℕ) (pins : Pins) :
    Except Text (Option TrustSet) :=
  match selectTrustPinRaw nd network snapshotBlock pins with
  | .error reason => .error reason
  | .ok (name, none) =>
    if network = "regtest".toList then .ok none else .error (name ++ " is not configured".toList)
  | .ok (name, some raw) =>
    match nd.parsePinnedSet raw with
    | .error reason => .error (name ++ ' ' :: reason)
    | .ok validators => .ok (some ⟨validators, false⟩)

/-- A mirrored row to judge: the network, its pins, the row, and what the hub returned, or why it
returned nothing. -/
structure Call where
  network : Text
  pins : Pins
  row : Row
  response : Except Text (Option Response)

def judgeMirroredCapabilityRow (nd : Node) (memo : Memo) (c : Call) : Judgement × Memo :=
  match c.response with
  | .error reason => (⟨.held, reason⟩, memo)
  | .ok none => (held "proof response is missing", memo)
  | .ok (some response) =>
    match resolveTrustSet nd c.network c.row.snapshot_block c.pins with
    | .error reason => (⟨.held, reason⟩, memo)
    | .ok trust =>
      verifyCapabilitySnapshotProof nd memo c.row (some response) trust c.network trust.isNone

def memoAfter (nd : Node) (calls : List Call) : Memo :=
  calls.foldl (fun memo c => (judgeMirroredCapabilityRow nd memo c).2) []

end XChainIndexer.SnapshotProof.Verify
