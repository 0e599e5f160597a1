import XChainIndexer.Orders.Match
import XChainIndexer.Lib.Run

/-! # The order actions as a step function

ORDER create, cancel and edit (`actions/order/*.js`), the passes of ORDER_MATCH, COINPAY
(`actions/coinpay/*.js`), COINPAY_EXPIRE (`actions/coinpay_expire.js`), ORDER_EXPIRE
(`actions/order_expire/*.js`) and the order part of SWEEP (`actions/sweep/settle.js`). An event the
handler refuses is `none`; checks that read nothing of the book (balances, fees, lists, sleep,
guards) are not modelled, so every accepted action is among the events. A handler runs to its end
before the next one starts: while a match pass is open only `nextMatch` is accepted. -/

namespace XChainIndexer.Orders.Step

open Orders.Tables Orders.Match

/-! ### ORDER -/

structure OrderSpec where
  source : ℕ
  getAddress : ℕ
  give : Side
  get : Side
  expiration : ℕ
  allowList : Option ℕ
  blockList : Option ℕ

/-- The checks of a create that read the sides and the ownership gate. -/
def OrderSpec.accepted (blk : Block) (b : Book) (sp : OrderSpec) : Bool :=
  !(sp.give.tick = none && sp.get.tick = none) &&
  !(blk.sameTokenRefusal && sp.give.tick = sp.get.tick) &&
  (sp.get.isOwnership || 0 < sp.get.amount) && 0 ≤ sp.give.amount &&
  (match sp.give with
    | .ownership t => b.gate t = none
    | _ => true) && blk.time < sp.expiration

def OrderSpec.row (sp : OrderSpec) (idx : ℕ) : Order where
  index := idx
  source := sp.source
  getAddress := sp.getAddress
  give := sp.give
  get := sp.get
  expiration := sp.expiration
  allowList := sp.allowList
  blockList := sp.blockList
  status := .opened
  sweptTo := none

/-- `escrowOrRelease` of a create. -/
def createOrder (blk : Block) (b : Book) (sp : OrderSpec) : Book :=
  let idx := b.nextIndex
  let b := { b with orders := b.orders ++ [sp.row idx], nextIndex := idx + 1 }
  match sp.give with
  | .ownership t => setTokenEscrow b t idx
  | .token t a => lock blk b (sp.row idx) t a
  | .coin _ => b

/-- A close by its owner, by expiry or by a SWEEP: with obligations pending the order is parked,
else it hands back what is left of its GIVE side and gets the status `closed`. -/
def closeOrder (blk : Block) (b : Book) (info : OrderInfo) (dest : ℕ) (park : Order → Order)
    (closed : OrderStatus) : Book :=
  if getPendingCoinpayObligationsByOrder b info.order.index ≠ [] then
    updateOrder b info.order.index park
  else
    createOrderStatus (giveOut blk b info.order info.remaining.give (fun _ => 64) dest)
      info.order.index closed

/-- ORDER format 1. -/
def cancelOrder (blk : Block) (b : Book) (info : OrderInfo) : Book :=
  closeOrder blk { b with nextIndex := b.nextIndex + 1 } info info.order.source
    (Order.cancelling none) .cancelled

/-- ORDER format 2: a later non-null field replaces the order's. -/
def editOrder (b : Book) (idx : ℕ) (expiration allowList blockList : Option ℕ) : Book :=
  updateOrder { b with nextIndex := b.nextIndex + 1 } idx fun o =>
    { o with
      expiration := expiration.getD o.expiration
      allowList := allowList.or o.allowList
      blockList := blockList.or o.blockList }

/-! ### ORDER_EXPIRE and SWEEP -/

def orderExpire (blk : Block) (b : Book) (info : OrderInfo) : Book :=
  closeOrder blk { b with nextIndex := b.nextIndex + 1 } info info.order.source
    (fun o => { o with status := .expiring }) .expired

/-- One order of `cancelSweptOrders`. -/
def sweepOrder (blk : Block) (destination : ℕ) (b : Book) (idx : ℕ) : Book :=
  match getOrderInfo b idx with
  | none => b
  | some info =>
    closeOrder blk b info destination (Order.cancelling (some destination)) .cancelled

/-- `cancelSweptOrders`. The orders were listed as open before the guards of the SWEEP ran; what they
are by now is read again. -/
def sweepOrders (blk : Block) (b : Book) (destination : ℕ) (orders : List ℕ) : Book :=
  orders.foldl (sweepOrder blk destination) { b with nextIndex := b.nextIndex + 1 }

/-! ### COINPAY and COINPAY_EXPIRE -/

/-- The token seller and the coin offerer of a match. Below the activation only the maker's GIVE
side is looked at; from it on an ambiguous pair has no roles. -/
def resolveOrderRoles (blk : Block) (b : Book) (m : OrderMatch) : Option (OrderInfo × OrderInfo) :=
  match getOrderInfo b m.giveActionIndex, getOrderInfo b m.getActionIndex with
  | some giveOrder, some getOrder =>
    let giveIsCoin := giveOrder.order.give.tick = none
    let getIsCoin := getOrder.order.give.tick = none
    if blk.nativeReciprocity then
      if giveIsCoin ∧ ¬ getIsCoin then some (getOrder, giveOrder)
      else if getIsCoin ∧ ¬ giveIsCoin then some (giveOrder, getOrder)
      else none
    else if giveIsCoin then some (getOrder, giveOrder)
    else some (giveOrder, getOrder)
  | _, _ => none

/-- Where a seller's residual escrow goes. -/
def refundTo (seller : Order) : ℕ :=
  if seller.status = .cancelling then seller.sweptTo.getD seller.source else seller.source

/-- The status a parked seller is closed with, once nothing is pending on it. -/
def finalStatus (b : Book) (seller : Order) : Option OrderStatus :=
  if getPendingCoinpayObligationsByOrder b seller.index ≠ [] then none
  else match seller.status with
    | .cancelling => some .cancelled
    | .expiring => some .expired
    | _ => none

/-- A parked seller that is closed hands back what it still has to give. -/
def finalizeSeller (blk : Block) (b : Book) (seller : OrderInfo) : Book :=
  match finalStatus b seller.order with
  | none => b
  | some final =>
    let b := createOrderStatus b seller.order.index final
    match seller.order.give with
    | .token t _ =>
      if 0 < seller.remaining.give then
        release blk b seller.order t seller.remaining.give 64 (refundTo seller.order)
      else b
    | _ => b

/-- `finalizeOrders`: an order with a side used up is complete, whatever is left of the other. -/
def completeIfFinished (b : Book) (info : OrderInfo) : Book :=
  completeIf b info.order.index info.remaining

/-- The token leg of a match goes to the buyer. -/
def releaseSoldToken (blk : Block) (b : Book) (m : OrderMatch) (seller : Order) (dest : ℕ) : Book :=
  giveOut blk b seller (m.gives seller.index) (fun _ => 64) dest

/-- `settleTrade` of a COINPAY on the match `m`. -/
def coinpay (blk : Block) (b : Book) (m : OrderMatch) : Book :=
  let b := { b with nextIndex := b.nextIndex + 1 }
  match resolveOrderRoles blk b m with
  | none => b
  | some (seller, buyer) =>
    let b := releaseSoldToken blk b m seller.order buyer.order.getAddress
    let b := createCoinpayStatus b m.index .fulfilled
    let b := updateOrderMatchStatus b m.index .valid
    let b := completeIfFinished b seller
    let b := completeIfFinished b buyer
    finalizeSeller blk b seller

/-- The token leg, or below the activation the obligation's coin amount. -/
def deriveReleaseAmount (blk : Block) (m : OrderMatch) (ob : Obligation) (seller : Order) : ℚ :=
  if blk.expireTokenAmount then m.gives seller.index else ob.coinAmount

/-- The seller, or the DESTINATION of the SWEEP that parked it, gets the amount back; an ownership
gate opens either way. -/
def releaseSellerEscrow (blk : Block) (b : Book) (seller : Order) (amount : ℚ) : Book :=
  giveOut blk b seller amount (fun _ => 64) (refundTo seller)

def coinpayExpire (blk : Block) (b : Book) (m : OrderMatch) (ob : Obligation) : Book :=
  match resolveOrderRoles blk b m with
  | none => b
  | some (seller, _) =>
    let b := { b with nextIndex := b.nextIndex + 1 }
    let b := releaseSellerEscrow blk b seller.order (deriveReleaseAmount blk m ob seller.order)
    let b := createCoinpayStatus b m.index .expired
    finalizeSeller blk b seller

/-! ### The step function -/

structure State where
  book : Book
  pass : Option Pass

inductive Event
  | create (spec : OrderSpec)
  | cancel (source idx : ℕ)
  | edit (source idx : ℕ) (expiration allowList blockList : Option ℕ)
  | beginMatch (idx : ℕ)
  | nextMatch
  | coinpay (idx : ℕ)
  | coinpayExpire (idx : ℕ)
  | orderExpire (idx : ℕ)
  | sweep (source destination : ℕ) (orders : List ℕ)

/-- The obligation is past its expiration, or at it from the activation on. -/
def obligationDue (blk : Block) (ob : Obligation) : Bool :=
  if blk.settlementBounds then ob.expiration ≤ blk.time else ob.expiration < blk.time

/-- The handler of an event, on a book no match pass is open on. -/
def handle (blk : Block) (b : Book) : Event → Option State
  | .create sp => if sp.accepted blk b then some ⟨createOrder blk b sp, none⟩ else none
  | .cancel source idx =>
    match getOrderInfo b idx with
    | some info =>
      if info.order.source = source ∧ info.order.status = .opened then
        some ⟨cancelOrder blk b info, none⟩
      else none
    | none => none
  | .edit source idx expiration allowList blockList =>
    match b.find idx with
    | some o =>
      if o.source = source ∧ o.status = .opened then
        some ⟨editOrder b idx expiration allowList blockList, none⟩
      else none
    | none => none
  | .beginMatch idx => (beginMatch blk b idx).map fun p => ⟨b, some p⟩
  | .nextMatch => none
  | .coinpay idx =>
    match b.findMatch idx, b.findObligation idx with
    | some m, some ob =>
      if ob.status = .pending ∧ blk.time < ob.expiration then some ⟨coinpay blk b m, none⟩
      else none
    | _, _ => none
  | .coinpayExpire idx =>
    match b.findMatch idx, b.findObligation idx with
    | some m, some ob =>
      if ob.status = .pending ∧ obligationDue blk ob then some ⟨coinpayExpire blk b m ob, none⟩
      else none
    | _, _ => none
  | .orderExpire idx =>
    match getOrderInfo b idx with
    | some info =>
      if info.order.status = .opened ∧ info.order.expiration < blk.time then
        some ⟨orderExpire blk b info, none⟩
      else none
    | none => none
  | .sweep source destination orders =>
    if orders.Nodup ∧ ∀ idx ∈ orders, (b.find idx).any fun o => o.source = source then
      some ⟨sweepOrders blk b destination orders, none⟩
    else none

def step (s : State) (e : Block × Event) : Option State :=
  match s.pass with
  | none => handle e.1 s.book e.2
  | some p =>
    match e.2 with
    | .nextMatch => let (b, p) := nextMatch e.1 s.book p; some ⟨b, p⟩
    | _ => none

def init : State where
  book := { orders := [], matched := [], obligations := [], escrows := [], credits := []
            gate := fun _ => none, nextIndex := 1 }
  pass := none

end XChainIndexer.Orders.Step
