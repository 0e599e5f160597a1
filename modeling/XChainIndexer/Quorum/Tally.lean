import XChainIndexer.IndexTables

/-! # The count quorum

A message is accepted when enough members of a validator set signed it. The sites that check this walk
the signature list in the same way and differ in how they screen a signature and in where the number of
validators comes from: the bridge settle pass (`consensus/bridge_settle/quorum.js`), the results of
cross-chain calls (`actions/xcall/index.js`), price batches (`actions/price/batch_signatures.js`) and
retractions (`hub/hub_db_sync/retractions.js`). -/

namespace XChainIndexer.Quorum.Tally

open IndexTables

/-! ### The walk over the signatures -/

structure Sig where
  pubkey : Text
  sig : Text
deriving DecidableEq

/-- What the sites take from the runtime and from the signature scheme. -/
structure Crypto where
  toLowerCase : Text → Text
  /-- `ed25519.verify(message, sig, pubkey)`. -/
  verify : Text → Text → Text → Bool

/-- Both texts of a signature in lower case. -/
def Crypto.read (k : Crypto) (s : Sig) : Sig := ⟨k.toLowerCase s.pubkey, k.toLowerCase s.sig⟩

/-- The signers that count. A key that counted is not counted again; with `verifyFirst` a rejected
signature leaves its key open for a later one. -/
def tally (accepts : Sig → Bool) (verifyFirst : Bool) : List Text → List Text → List Sig → List Text
  | _, signers, [] => signers
  | seen, signers, s :: sigs =>
    if s.pubkey ∈ seen then tally accepts verifyFirst seen signers sigs
    else if accepts s then
      tally accepts verifyFirst (s.pubkey :: seen) (signers ++ [s.pubkey]) sigs
    else tally accepts verifyFirst (if verifyFirst then seen else s.pubkey :: seen) signers sigs

/-- The count rule: one of one, else the larger of `2 f + 1` and a majority. -/
def quorum (n : ℕ) : ℕ := if n ≤ 1 then 1 else max (2 * ((n - 1) / 3) + 1) ((n + 2) / 2)

/-- `/^[0-9a-f]{n}$/`. -/
def isHex (n : ℕ) (t : Text) : Bool :=
  t.length = n && t.all fun ch => ('0' ≤ ch && ch ≤ '9') || ('a' ≤ ch && ch ≤ 'f')

/-! ### The sites -/

def snapPubkeys (k : Crypto) (validators : List Text) : List Text := validators.map k.toLowerCase

/-- A signature in the shape of one, by a member, that verifies. -/
def acceptsShaped (k : Crypto) (validators : List Text) (message : Text) (s : Sig) : Bool :=
  isHex 64 s.pubkey && isHex 128 s.sig && decide (s.pubkey ∈ snapPubkeys k validators) &&
    k.verify message s.sig s.pubkey

/-- `verifyQuorum` of the bridge settle pass. -/
def verifyQuorum (k : Crypto) (validators : List Text) (message : Text) (sigs : List Sig) : Bool :=
  decide (validators ≠ []) && decide (quorum validators.length ≤
    (tally (acceptsShaped k validators message) true [] [] (sigs.map k.read)).length)

/-- `verifyResultQuorum` of the cross-chain calls. -/
def verifyResultQuorum (k : Crypto) (validators : List Text) (message : Text) (sigs : List Sig) : Bool :=
  decide (validators ≠ []) && decide (quorum validators.length ≤
    (tally (acceptsShaped k validators message) true [] [] (sigs.map k.read)).length)

/-- `getActiveCapabilityCount`: the distinct keys of the set. -/
def getActiveCapabilityCount (k : Crypto) (validators : List Text) : ℕ :=
  (snapPubkeys k validators).dedup.length

/-- `tallyQualifiedSigners` and `checkBatchQuorum` of a price batch, whose signatures were parsed in
their shape and in lower case. -/
def checkBatchQuorum (k : Crypto) (verifyFirst : Bool) (validators : List Text) (message : Text)
    (sigs : List Sig) : Bool :=
  let accepts (s : Sig) := decide (s.pubkey ∈ snapPubkeys k validators) &&
    k.verify message s.sig s.pubkey
  quorum (getActiveCapabilityCount k validators) ≤
    (tally accepts verifyFirst [] [] (sigs.map k.read)).length

def verifyRetractionSignatures (k : Crypto) (validators : List Text) (message : Text)
    (sigs : List Sig) : Bool :=
  let accepts (s : Sig) := decide (s.pubkey ≠ []) && decide (s.pubkey ∈ snapPubkeys k validators) &&
    k.verify message s.sig s.pubkey
  decide (sigs ≠ []) && decide (validators ≠ []) && decide (quorum validators.length ≤
    (tally accepts true [] [] (sigs.map k.read)).length)

inductive Site
  | bridge
  | xcall
  | price (verifyFirst : Bool)
  | retraction

/-- The signature list reaches the site's quorum. -/
def Site.reached (k : Crypto) (validators : List Text) (message : Text) (sigs : List Sig) : Site → Bool
  | .bridge => verifyQuorum k validators message sigs
  | .xcall => verifyResultQuorum k validators message sigs
  | .price verifyFirst => checkBatchQuorum k verifyFirst validators message sigs
  | .retraction => verifyRetractionSignatures k validators message sigs

/-- The number of validators the site takes its quorum from. -/
def Site.count (k : Crypto) (validators : List Text) : Site → ℕ
  | .price _ => getActiveCapabilityCount k validators
  | _ => validators.length

end XChainIndexer.Quorum.Tally
