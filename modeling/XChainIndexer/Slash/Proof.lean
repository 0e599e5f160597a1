import Mathlib.Data.Char
import XChainIndexer.IndexTables

/-! # The equivocation header

Every engine signs its canonical texts behind a header with a key, the engine's tag with a round and a view
(`consensus/equivocation_header.js`). A SLASH carries two texts signed by one key, which must have the same
header and differ behind it; `proof_wire.js` reads the header off the texts. -/

namespace XChainIndexer.Slash.Proof

open IndexTables

/-! ### The header -/

inductive EngineTag
  | dex | xcall | attest | oracle | oracleBatch | checkpoint | config | nodeproof | rollcall | bridge
  | policy | listShare
deriving DecidableEq

/-- `ENGINE_TAGS`. -/
def EngineTag.text : EngineTag → Text
  | .dex => "XDEX".toList
  | .xcall => "XCALL".toList
  | .attest => "XATTEST".toList
  | .oracle => "XORACLE".toList
  | .oracleBatch => "XORACLEB".toList
  | .checkpoint => "XCHECKPOINT".toList
  | .config => "XCONFIG".toList
  | .nodeproof => "XNODEPROOF".toList
  | .rollcall => "XROLLCALL".toList
  | .bridge => "XBRIDGE".toList
  | .policy => "XPOLICY".toList
  | .listShare => "XLISTSHARE".toList

def EngineTag.all : List EngineTag :=
  [.dex, .xcall, .attest, .oracle, .oracleBatch, .checkpoint, .config, .nodeproof, .rollcall, .bridge,
    .policy, .listShare]

def EngineTag.ofText (t : Text) : Option EngineTag := EngineTag.all.find? fun tag => tag.text = t

def equivMark : Text := "EQUIV|".toList

def equivKey (engineTag roundId view : Text) : Text := engineTag ++ '|' :: roundId ++ '|' :: view

def equivPrefix (key : Text) : Text := equivMark ++ key ++ ['|', '|']

def buildEquivCanonical (engineTag roundId view content : Text) : Text :=
  equivPrefix (equivKey engineTag roundId view) ++ content

/-! ### Reading two messages -/

/-- A text before and after its first `||`. -/
def boundary : Text → Option (Text × Text)
  | [] => none
  | [_] => none
  | a :: b :: t =>
    if a = '|' && b = '|' then some ([], t) else (boundary (b :: t)).map fun p => (a :: p.1, p.2)

structure Key where
  equivKey : Text
  engineTag : Text
  roundId : Text
  view : Text
  contentA : Text
  contentB : Text

/-- The first segment of a key is the tag and the last one the view. -/
def splitKey (key : Text) : Option (Text × Text × Text) :=
  let rest := (key.dropWhile (· ≠ '|')).drop 1
  if '|' ∈ rest then
    some (key.takeWhile (· ≠ '|'), ((rest.reverse.dropWhile (· ≠ '|')).drop 1).reverse,
      (rest.reverse.takeWhile (· ≠ '|')).reverse)
  else none

/-- The text up to the first `||`, if it begins with the mark of the header. -/
def headerOf (msg : Text) : Option Text :=
  if equivMark.isPrefixOf msg then (boundary msg).map Prod.fst else none

def deriveEquivKey (msgA msgB : Text) : Except String Key :=
  match headerOf msgA with
  | none => .error "invalid: MSG_A has no EQUIV header"
  | some header =>
    let pre := header ++ ['|', '|']
    if !pre.isPrefixOf msgB then .error "invalid: EQUIV header/key mismatch"
    else if msgA = msgB then .error "invalid: identical messages (not equivocation)"
    else
      let key := header.drop equivMark.length
      match splitKey key with
      | none => .error "invalid: EQUIV_KEY (format)"
      | some (engineTag, roundId, view) =>
        .ok ⟨key, engineTag, roundId, view, msgA.drop pre.length, msgB.drop pre.length⟩

end XChainIndexer.Slash.Proof
