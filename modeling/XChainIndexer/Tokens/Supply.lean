import XChainIndexer.Tokens.Books
import XChainIndexer.Tokens.Issues

/-! # The supply of a token

What raises and lowers the supply of a tick: an ISSUE that names `MINT_SUPPLY` (`actions/issue`), MINT
(`actions/mint`) and DESTROY (`actions/destroy`). Each handler reads the supply, the caps and, for MINT,
what the source has minted so far from the tables (`getTokenSupply`, `getSelfMintedAmount`) as they are
before its own rows.

The books are those of one tick, from its first ISSUE on; no part of them is in escrow, and no fee is
paid in it. The rules that read nothing of these tables are answers of the environment. MINT is the one
of the flag day `MINT_SELF_MINTED_ONLY`. -/

namespace XChainIndexer.Tokens.Supply

open IndexTables Bcmath Tokens.Numerals Tokens.Issues Tokens.Books

/-- A valid row of `mints`. -/
structure MintRow where
  source : Text
  amount : Option Text

/-- The tables, as far as they are about the tick. -/
structure State where
  token : Token
  ledger : List (Entry Text)
  mints : List MintRow

def init : State := ⟨Token.none, [], []⟩

/-- The rules in force at an action. -/
structure Block where
  gates : Gates
  ledgerAmountPrecisionActive : Bool

/-- Nothing is in escrow, so the third sum is zero. -/
def getTokenSupply (s : State) : ℚ :=
  bcadd (bcsub (sumOf true s.ledger) (sumOf false s.ledger) 18) 0
    (getTokenDecimalPrecision s.token.rows)

/-- The sum runs over the source's valid mints, at the decimals of the token row. -/
def getSelfMintedAmount (js : Js) (s : State) (source : Text) : ℚ :=
  (s.mints.filter fun r => r.source = source).foldl
    (fun total r => bcadd total (amount js r.amount) ((s.token.decimals.getD 0).toNat)) 0

/-- The amount of a ledger row, as the writer rounds it. -/
def written (b : Block) (rows : List Row) (amount : ℚ) : ℚ :=
  bcadd amount 0 (if b.ledgerAmountPrecisionActive then 18 else getTokenDecimalPrecision rows)

/-- New supply is credited to the source, and moved on if an address is named for it. -/
def mintedRows (source : Text) (destination : Option Text) (amount : ℚ) : List (Entry Text) :=
  match destination.filter (· ≠ source) with
  | none => [⟨true, source, amount⟩]
  | some a => [⟨true, source, amount⟩, ⟨false, source, amount⟩, ⟨true, a, amount⟩]

/-! ### ISSUE -/

def issue (js : Js) (b : Block) (s : State) (i : Issue) : Option State :=
  match verdict js b.gates (getTokenInfo js s.token.rows) (getTokenSupply s) i with
  | some _ => some s
  | none =>
    (issueToken js b.gates (getTokenSupply s) s.token i).map fun token =>
      { s with
        token
        ledger := match i.mintSupply with
          | none => s.ledger
          | some t =>
            s.ledger ++ mintedRows i.source i.transferSupply (written b token.rows (js.bcnum t)) }

/-! ### MINT -/

structure Mint where
  source : Text
  amount : Option Text
  destination : Option Text
  /-- The verdict of the rules before the token's. -/
  earlyError : Option String
  /-- The verdict of the destination, sleep and memo rules. -/
  formatError : Option String
  /-- The verdict of the allow and block lists. -/
  listError : Option String
  /-- The verdict of the mint window and of the controller. -/
  lateError : Option String

/-- `supply` and `minted` are what the reads answer. -/
def mintChecks (js : Js) (g : Gates) (info : Option Info) (supply minted : ℚ) (m : Mint) : List Check :=
  answered m.earlyError ++
  match info with
  | none => [⟨true, "invalid: TICK (unknown)"⟩]
  | some info =>
    let scale := (info.decimals.getD 0).toNat
    let mint := amount js m.amount
    let maxMint := amount js (info.field .maxMint)
    let cap := amount js (info.field .maxSupply)
    let addressMax := amount js (info.field .mintAddressMax)
    let uncappedSupply := decide (cap ≤ 0) && g.uncappedMaxSupplyZero
    [⟨info.lock .mint = some (lockText true), "invalid: LOCK_MINT"⟩,
      formatCheck js g "AMOUNT" info.decimals m.amount] ++
    answered m.formatError ++
    [⟨decide (0 < maxMint) && decide (maxMint < mint), "invalid: AMOUNT > MAX_MINT"⟩,
      ⟨!uncappedSupply && decide (bcadd cap 0 scale < bcadd supply mint scale),
        "invalid: mint exceeds MAX_SUPPLY"⟩,
      ⟨g.tokenSupplyRepresentation && decide (bcadd maxTokenSupply 0 scale < bcadd supply mint scale),
        "invalid: mint exceeds MAX_TOKEN_SUPPLY"⟩] ++
    answered m.listError ++
    [⟨decide (0 < addressMax) && decide (addressMax < bcadd minted mint scale),
      "invalid: mint exceeds MINT_ADDRESS_MAX"⟩] ++
    answered m.lateError

def mintVerdict (js : Js) (g : Gates) (s : State) (m : Mint) : Option String :=
  firstError (mintChecks js g (getTokenInfo js s.token.rows) (getTokenSupply s)
    (getSelfMintedAmount js s m.source) m)

def mint (js : Js) (b : Block) (s : State) (m : Mint) : State :=
  match mintVerdict js b.gates s m with
  | some _ => s
  | none =>
    { s with
      ledger := match m.amount with
        | none => s.ledger
        | some t => s.ledger ++ mintedRows m.source m.destination (written b s.token.rows (js.bcnum t))
      mints := s.mints ++ [⟨m.source, m.amount.filter js.isNumeric⟩] }

/-! ### DESTROY -/

/-- One leg of a DESTROY: the amounts that were merged into it, and the verdicts of the other rules
before and after its own. A leg that was merged from several has amounts that all pass the format. -/
structure Leg where
  amounts : List Text
  earlyError : Option String
  lateError : Option String

/-- `consolidateLegs`: the amounts of a leg, added at the tick's decimals. -/
def legAmount (js : Js) (decimals : Option ℤ) : List Text → ℚ
  | [] => 0
  | t :: ts => ts.foldl (fun sum t => bcadd (js.bcnum t) sum ((decimals.getD 0).toNat)) (js.bcnum t)

/-- The format of a single text, and of a sum, which is a number of the tick's grid already. -/
def legFormat (js : Js) (g : Gates) (decimals : Option ℤ) (amounts : List Text) : Bool :=
  match amounts with
  | [] => true
  | [t] => isValidAmountFormat js g.amountRepresentability decimals t
  | ts => ts.all (fun t => isValidAmountMergeFormat js g.amountRepresentability decimals t) &&
      (!g.amountRepresentability || decide (legAmount js decimals ts < 10 ^ amountMaxIntegerDigits))

def legChecks (js : Js) (g : Gates) (info : Option Info) (balance : ℚ) (leg : Leg) : List Check :=
  answered leg.earlyError ++
  match info with
  | none => [⟨true, "invalid: TICK (unknown)"⟩]
  | some info =>
    [⟨!legFormat js g info.decimals leg.amounts, "invalid: AMOUNT (format)"⟩,
      ⟨decide (balance < legAmount js info.decimals leg.amounts), "invalid: insufficient funds"⟩] ++
    answered leg.lateError

/-- The books, and the balance of the source that the legs share. -/
structure Burn where
  ledger : List (Entry Text)
  balance : ℚ

def burnLeg (js : Js) (b : Block) (rows : List Row) (source : Text) (s : Burn) (leg : Leg) : Burn :=
  match firstError (legChecks js b.gates (getTokenInfo js rows) s.balance leg) with
  | some _ => s
  | none =>
    let burned := legAmount js (foldRows js rows).decimals leg.amounts
    { ledger := s.ledger ++ [⟨false, source, written b rows burned⟩]
      balance := bcsub s.balance burned 18 }

def destroy (js : Js) (b : Block) (s : State) (source : Text) (legs : List Leg) : State :=
  { s with ledger := (legs.foldl (burnLeg js b s.token.rows source)
      ⟨s.ledger, getAddressBalance s.ledger source⟩).ledger }

/-! ### Runs -/

inductive Action
  | issue (i : Issue)
  | mint (m : Mint)
  | destroy (source : Text) (legs : List Leg)

def act (js : Js) (s : State) : Block × Action → Option State
  | (b, .issue i) => issue js b s i
  | (b, .mint m) => some (mint js b s m)
  | (b, .destroy source legs) => some (destroy js b s source legs)

end XChainIndexer.Tokens.Supply
