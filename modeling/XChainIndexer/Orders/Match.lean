import XChainIndexer.Orders.Tables

/-! # ORDER_MATCH

A pass over the candidates of one order (`actions/order_match/*.js`). `beginMatch` loads the order
and the open orders that take its other side; `fillMatch` runs the gates on one candidate, sizes the
fill and settles it. The taker's remaining amounts are carried from one candidate to the next, the
candidates' are those read when the pass began. -/

namespace XChainIndexer.Orders.Match

open Bcmath Orders.Tables

/-! ### The candidates -/

/-- The conditions of `ORDER_MATCH_CANDIDATES_SQL` on an order `o2` for the order `o1`. -/
def isCandidate (o1 o2 : Order) : Bool :=
  o1.give.tick = o2.get.tick &&
  (o1.get.tick = o2.give.tick || o1.get.tick = none || o2.give.tick = none) &&
  o2.source ≠ o1.source && o2.status = .opened

/-- `sortPriceActionIndex`: the best `GET_PRICE` first, then the newest or the oldest order. -/
def priceBefore (oldestFirst : Bool) (a b : OrderInfo) : Prop :=
  b.order.getPrice < a.order.getPrice ∨ (a.order.getPrice = b.order.getPrice ∧
    if oldestFirst then a.order.index ≤ b.order.index else b.order.index ≤ a.order.index)

instance (oldestFirst : Bool) (a b : OrderInfo) : Decidable (priceBefore oldestFirst a b) := by
  unfold priceBefore; infer_instance

def findOrderMatches (blk : Block) (b : Book) (o : Order) : List OrderInfo :=
  ((b.orders.filter (isCandidate o)).map fun c => ⟨c, getOrderAmountsRemaining b c⟩).insertionSort
    (priceBefore blk.equalPriceOldestFirst)

/-- Ownership sides pair with ownership sides only. -/
def ownershipMirrors (o m : Order) : Bool :=
  m.give.isOwnership = o.get.isOwnership && m.get.isOwnership = o.give.isOwnership

/-- A pass in progress: the taker as it was read, what it has left, the candidates to come. -/
structure Pass where
  taker : Order
  remaining : Remaining
  candidates : List OrderInfo
deriving DecidableEq

def beginMatch (blk : Block) (b : Book) (idx : ℕ) : Option Pass :=
  match getOrderInfo b idx with
  | none => none
  | some info =>
    if blk.matchOriginOpen && info.order.status ≠ .opened then none
    else some ⟨info.order, info.remaining,
      (findOrderMatches blk b info.order).filter fun m => ownershipMirrors info.order m.order⟩

/-! ### The gates on a candidate -/

/-- On the token-for-token path both legs mirror exactly. -/
def isTokenReciprocal (o m : Order) : Bool :=
  match o.give.tick, o.get.tick, m.give.tick, m.get.tick with
  | some a, some c, some d, some e => a = e && c = d
  | _, _, _, _ => true

def anyNullTick (o m : Order) : Bool :=
  o.give.tick = none || o.get.tick = none || m.give.tick = none || m.get.tick = none

/-- Both legs mirror, a native side facing a native side. -/
def legsMirror (o m : Order) : Bool :=
  o.give.tick = m.get.tick && o.get.tick = m.give.tick

def isNativeReciprocal (blk : Block) (o m : Order) : Bool :=
  !(anyNullTick o m && blk.nativeReciprocity) || legsMirror o m

/-- Both sides have something left and the prices do not miss each other. Below the price-cross
activation the comparison runs the other way. -/
def hasFillRoom (blk : Block) (o : Order) (r : Remaining) (m : OrderInfo) : Bool :=
  0 < m.remaining.give && 0 < r.give && 0 < m.remaining.get && 0 < r.get &&
  if blk.priceCross then o.givePrice ≤ m.order.getPrice else m.order.getPrice ≤ o.givePrice

/-! ### The fill -/

structure Fill where
  giveAmount : ℚ
  getAmount : ℚ

def maxGive (r : Remaining) (m : OrderInfo) : ℚ :=
  if m.remaining.get < r.give then m.remaining.get else r.give

def maxGet (r : Remaining) (m : OrderInfo) : ℚ :=
  if m.remaining.give < r.get then m.remaining.give else r.get

def computeFillAmounts (blk : Block) (o : Order) (r : Remaining) (m : OrderInfo) : Fill :=
  let giveFromGet := bcmul (maxGet r m) o.getPrice 64
  let (giveAmount, getAmount) :=
    if maxGive r m < giveFromGet then (maxGive r m, bcmul (maxGive r m) o.givePrice 64)
    else (giveFromGet, maxGet r m)
  { giveAmount := bcround giveAmount (blk.scales.decimalsOf o.give.tick)
    getAmount := bcround getAmount (blk.scales.decimalsOf o.get.tick) }

def isNonZeroFill (f : Fill) : Bool := 0 < f.giveAmount && 0 < f.getAmount

/-- An ownership order is filled once and in full. -/
def isOwnershipFillExact (o m : Order) (f : Fill) : Bool :=
  if o.give.isOwnership || o.get.isOwnership || m.give.isOwnership || m.get.isOwnership then
    f.giveAmount = o.give.amount && f.getAmount = o.get.amount
  else true

/-- Every gate `fillMatch` runs on a candidate, the fill amounts included. -/
def admits (blk : Block) (o : Order) (r : Remaining) (m : OrderInfo) : Bool :=
  !(blk.sameTokenRefusal && o.give.tick ≠ none && o.give.tick = o.get.tick) &&
  isTokenReciprocal o m.order && isNativeReciprocal blk o m.order && hasFillRoom blk o r m &&
  isNonZeroFill (computeFillAmounts blk o r m) &&
  isOwnershipFillExact o m.order (computeFillAmounts blk o r m) && blk.listAllowed o m.order

/-- The native coin amount of an obligation, from the side that pays it. -/
def nativeCoinAmount (o m : Order) (f : Fill) : ℚ :=
  if o.give.tick = none then f.giveAmount
  else if m.give.tick = none then f.getAmount
  else if o.get.tick = none then f.getAmount
  else f.giveAmount

/-- `settleOrderGiveSide`: one GIVE side of an instant settlement. Its escrow row too is written under
the recipient. -/
def settleOrderGiveSide (blk : Block) (b : Book) (o : Order) (amount : ℚ) (dest : ℕ) : Book :=
  giveOut blk b { o with source := dest } amount blk.scales.decimals dest

/-- The row `recordFill` writes. -/
def matchRow (idx : ℕ) (o m : Order) (f : Fill) : OrderMatch where
  index := idx
  giveActionIndex := m.index
  getActionIndex := o.index
  giveAmount := f.giveAmount
  getAmount := f.getAmount
  status := if anyNullTick o m then .pendingCoinpay else .valid

def coinpayObligation (blk : Block) (idx : ℕ) (o m : Order) (f : Fill) : Obligation where
  index := idx
  coinAmount := nativeCoinAmount o m f
  expiration := blk.time + blk.coinpayExpiration
  status := .pending

/-- An order with a side used up is complete. -/
def completeIf (b : Book) (idx : ℕ) (r : Remaining) : Book :=
  if r.finished then createOrderStatus b idx .complete else b

/-- `settleFill`: a native pair opens an obligation, a token pair settles both GIVE sides and
completes the orders that have a side used up. -/
def settleFill (blk : Block) (b : Book) (o : Order) (r : Remaining) (m : OrderInfo) (f : Fill) :
    Book :=
  let idx := b.nextIndex
  let b := { b with nextIndex := idx + 1 }
  let row := matchRow idx o m.order f
  if anyNullTick o m.order then
    { b with
      matched := b.matched ++ [row]
      obligations := b.obligations ++ [coinpayObligation blk idx o m.order f] }
  else
    let b := settleOrderGiveSide blk b o f.giveAmount m.order.getAddress
    let b := settleOrderGiveSide blk b m.order f.getAmount o.getAddress
    let b := { b with matched := b.matched ++ [row] }
    let b := completeIf b o.index (r.after f.giveAmount f.getAmount)
    completeIf b m.order.index (m.remaining.after f.getAmount f.giveAmount)

def fillMatch (blk : Block) (b : Book) (o : Order) (r : Remaining) (m : OrderInfo) :
    Book × Remaining :=
  if admits blk o r m then
    let f := computeFillAmounts blk o r m
    (settleFill blk b o r m f, r.after f.giveAmount f.getAmount)
  else (b, r)

/-- The next candidate; the pass stops when a running side of the taker is used up. -/
def nextMatch (blk : Block) (b : Book) (p : Pass) : Book × Option Pass :=
  match p.candidates with
  | [] => (b, none)
  | m :: ms =>
    if p.remaining.give ≤ 0 || p.remaining.get ≤ 0 then (b, none)
    else
      let (b', r) := fillMatch blk b p.taker p.remaining m
      (b', some ⟨p.taker, r, ms⟩)

end XChainIndexer.Orders.Match
