import XChainIndexer.Bcmath

/-! # The order book

The tables the order handlers share: `orders` with the latest status of each, `order_matches`,
`coinpay_obligations`, the escrow and credit rows, and the ownership escrow gate of `tokens`. An
escrow row carries the order whose GIVE side it moves; the ledger keys it by tick and address only.
A same-chain book is modelled: both coins of every order are the local one.

The remaining amounts of an order are not stored. `getOrderAmountsRemaining` derives them from the
opening amounts and the order's match rows, as `db/orders/order_info.js` does. -/

namespace XChainIndexer.Orders.Tables

open Bcmath

/-- One side of an offer: native coin (a `NULL` tick), a token amount, or a token's ownership. -/
inductive Side
  | coin (amount : ℚ)
  | token (tick : ℕ) (amount : ℚ)
  | ownership (tick : ℕ)
deriving DecidableEq

def Side.tick : Side → Option ℕ
  | .coin _ => none
  | .token t _ => some t
  | .ownership t => some t

/-- The opening amount of a side; ownership counts as `1`. -/
def Side.amount : Side → ℚ
  | .coin a => a
  | .token _ a => a
  | .ownership _ => 1

def Side.isOwnership : Side → Bool
  | .ownership _ => true
  | _ => false

inductive OrderStatus
  | opened
  | cancelling
  | expiring
  | complete
  | cancelled
  | expired
deriving DecidableEq

/-- A row of `orders`, with its edits applied and its latest status. -/
structure Order where
  index : ℕ
  source : ℕ
  getAddress : ℕ
  give : Side
  get : Side
  expiration : ℕ
  allowList : Option ℕ
  blockList : Option ℕ
  status : OrderStatus
  /-- The DESTINATION of the SWEEP that put the order into `cancelling`. -/
  sweptTo : Option ℕ
deriving DecidableEq

inductive MatchStatus
  | valid
  | pendingCoinpay
deriving DecidableEq

/-- A row of `order_matches`. The amounts are those the taker (`getActionIndex`) gives and gets;
`giveActionIndex` is the maker. -/
structure OrderMatch where
  index : ℕ
  giveActionIndex : ℕ
  getActionIndex : ℕ
  giveAmount : ℚ
  getAmount : ℚ
  status : MatchStatus

inductive CoinpayStatus
  | pending
  | fulfilled
  | expired
deriving DecidableEq

/-- A row of `coinpay_obligations` with its latest status; the index is that of its match. -/
structure Obligation where
  index : ℕ
  coinAmount : ℚ
  expiration : ℕ
  status : CoinpayStatus

/-- An escrow or credit row, with the order whose GIVE side it moves. -/
structure Entry where
  order : ℕ
  address : ℕ
  amount : ℚ

structure Book where
  orders : List Order
  matched : List OrderMatch
  obligations : List Obligation
  escrows : List Entry
  credits : List Entry
  /-- `tokens.escrow_action_index`. -/
  gate : ℕ → Option ℕ
  nextIndex : ℕ

/-- The decimals of the ticks: `DECIMALS`, which the handlers check amounts against, and
`getTokenDecimalPrecision`, which the ledger rounds to. That the first is at most the second is an
assumption on the ISSUEs of the ticks: one that takes `DECIMALS` from `8` to `18` breaks it. -/
structure Scales where
  decimals : ℕ → ℕ
  precision : ℕ → ℕ
  decimals_le : ∀ t, decimals t ≤ precision t
  precision_le : ∀ t, precision t ≤ 18

/-- The rules in force at a block and what the handlers read there besides the book. -/
structure Block where
  time : ℕ
  matchOriginOpen : Bool
  equalPriceOldestFirst : Bool
  sameTokenRefusal : Bool
  nativeReciprocity : Bool
  priceCross : Bool
  expireTokenAmount : Bool
  settlementBounds : Bool
  ledgerAmountPrecision : Bool
  scales : Scales
  coinpayExpiration : ℕ
  /-- The allow and block lists of both orders and both tokens admit the pair (taker, maker). -/
  listAllowed : Order → Order → Bool

def coinDecimals : ℕ := 8

def Scales.decimalsOf (sc : Scales) : Option ℕ → ℕ
  | some t => sc.decimals t
  | none => coinDecimals

/-- The scale `createLedgerChangeRecord` quantizes an amount of the tick at. -/
def Block.writeScale (blk : Block) (tick : ℕ) : ℕ :=
  if blk.ledgerAmountPrecision then 18 else blk.scales.precision tick

/-! ### Reading an order -/

structure Remaining where
  give : ℚ
  get : ℚ
deriving DecidableEq

/-- What is left after giving and getting these amounts. -/
def Remaining.after (r : Remaining) (give get : ℚ) : Remaining where
  give := bcsub r.give give 64
  get := bcsub r.get get 64

/-- Nothing left to get or nothing left to give. -/
def Remaining.finished (r : Remaining) : Bool := r.get ≤ 0 || r.give ≤ 0

def OrderMatch.involves (m : OrderMatch) (idx : ℕ) : Bool :=
  m.giveActionIndex = idx || m.getActionIndex = idx

def OrderMatch.gives (m : OrderMatch) (idx : ℕ) : ℚ :=
  if m.getActionIndex = idx then m.giveAmount else m.getAmount

def OrderMatch.gets (m : OrderMatch) (idx : ℕ) : ℚ :=
  if m.getActionIndex = idx then m.getAmount else m.giveAmount

def subtractMatch (idx : ℕ) (r : Remaining) (m : OrderMatch) : Remaining :=
  r.after (m.gives idx) (m.gets idx)

/-- The opening amounts less every match row, pending ones included. -/
def getOrderAmountsRemaining (b : Book) (o : Order) : Remaining :=
  (b.matched.filter fun m => m.involves o.index).foldl (subtractMatch o.index)
    ⟨o.give.amount, o.get.amount⟩

/-- `getPrice`: a quotient at 64 decimals. -/
def getPrice (numerator denominator : ℚ) : ℚ := bcdiv numerator denominator 64

/-- An order as `getOrderInfo` returns it. -/
structure OrderInfo where
  order : Order
  remaining : Remaining
deriving DecidableEq

/-- `GET_AMOUNT / GIVE_AMOUNT`. -/
def Order.givePrice (o : Order) : ℚ := getPrice o.get.amount o.give.amount

/-- `GIVE_AMOUNT / GET_AMOUNT`. -/
def Order.getPrice (o : Order) : ℚ := Tables.getPrice o.give.amount o.get.amount

/-- The next action index is used. -/
abbrev Book.bump (b : Book) : Book := { b with nextIndex := b.nextIndex + 1 }

def Book.find (b : Book) (idx : ℕ) : Option Order := b.orders.find? fun o => o.index = idx

def getOrderInfo (b : Book) (idx : ℕ) : Option OrderInfo :=
  (b.find idx).map fun o => ⟨o, getOrderAmountsRemaining b o⟩

def Book.findMatch (b : Book) (idx : ℕ) : Option OrderMatch := b.matched.find? fun m => m.index = idx

def Book.findObligation (b : Book) (idx : ℕ) : Option Obligation :=
  b.obligations.find? fun ob => ob.index = idx

def Book.pending (b : Book) (m : OrderMatch) : Bool :=
  b.obligations.any fun ob => ob.index = m.index && ob.status = .pending

def getPendingCoinpayObligationsByOrder (b : Book) (idx : ℕ) : List OrderMatch :=
  b.matched.filter fun m => m.involves idx && b.pending m

/-! ### Writing -/

def updateOrder (b : Book) (idx : ℕ) (f : Order → Order) : Book :=
  { b with orders := b.orders.map fun o => if o.index = idx then f o else o }

def createOrderStatus (b : Book) (idx : ℕ) (status : OrderStatus) : Book :=
  updateOrder b idx fun o => { o with status }

/-- The `cancelling` status, with the DESTINATION when a SWEEP wrote it. -/
def Order.cancelling (sweptTo : Option ℕ) (o : Order) : Order :=
  { o with status := .cancelling, sweptTo }

def createCoinpayStatus (b : Book) (idx : ℕ) (status : CoinpayStatus) : Book :=
  { b with obligations := b.obligations.map fun ob =>
      if ob.index = idx then { ob with status } else ob }

def updateOrderMatchStatus (b : Book) (idx : ℕ) (status : MatchStatus) : Book :=
  { b with matched := b.matched.map fun m => if m.index = idx then { m with status } else m }

def setTokenEscrow (b : Book) (tick idx : ℕ) : Book :=
  { b with gate := fun t => if t = tick then some idx else b.gate t }

def clearTokenEscrow (b : Book) (tick : ℕ) : Book :=
  { b with gate := fun t => if t = tick then none else b.gate t }

/-- `transferTokenOwnership` clears the gate; the owner is not part of the book. -/
def transferTokenOwnership (b : Book) (tick : ℕ) : Book := clearTokenEscrow b tick

def lock (blk : Block) (b : Book) (o : Order) (tick : ℕ) (amount : ℚ) : Book :=
  { b with escrows := b.escrows ++ [⟨o.index, o.source, bcadd amount 0 (blk.writeScale tick)⟩] }

/-- Release an amount of an order's GIVE tick to an address: the negated amount goes to the escrow
rows, the amount to the credits. `decimals` is where the negation is rounded. -/
def release (blk : Block) (b : Book) (o : Order) (tick : ℕ) (amount : ℚ) (decimals dest : ℕ) : Book :=
  { b with
    escrows := b.escrows ++
      [⟨o.index, o.source, bcadd (bcsub 0 amount decimals) 0 (blk.writeScale tick)⟩]
    credits := b.credits ++ [⟨o.index, dest, bcadd amount 0 (blk.writeScale tick)⟩] }

/-- Hand out an amount of an order's GIVE side: ownership opens the gate, a token is released, coin
is not held. -/
def giveOut (blk : Block) (b : Book) (o : Order) (amount : ℚ) (decimals : ℕ → ℕ) (dest : ℕ) : Book :=
  match o.give with
  | .ownership t => transferTokenOwnership b t
  | .token t _ => release blk b o t amount (decimals t) dest
  | .coin _ => b

end XChainIndexer.Orders.Tables
