import XChainIndexer.Orders.Step

/-! # Offers of a token's ownership

A token's ownership is offered by an ORDER, a SWAP or a DISPENSER, and all three share one gate,
`tokens.escrow_action_index`. Beside the order book of `Orders.Step` this models the swaps
(`actions/swap/*.js`, `swap_match/*.js`, `swap_expire/*.js`), the orders whose GET side is on another
chain, the settlement of these and of such swaps (`actions/cross_settle/*.js`) and the dispensers that
give ownership
(`actions/dispenser/*.js`, `dispense/settle.js`, `dispenser_close/*.js`, `dispenser_expire/*.js`), with
the whole of a SWEEP. A dispenser that gives a balance never touches the gate and is left out. -/

namespace XChainIndexer.Ownership.Offers

open Orders Orders.Tables Orders.Match Orders.Step

/-! ### The tables -/

/-- A row of `swaps` with its latest status: the columns of an order, and the chain of the GET side
when it is another one. A cross-chain ORDER is such a row too, as no local match reads it and it is
cancelled, edited, expired and swept like a swap, but for the amount that is handed back. -/
structure Swap extends Order where
  getChain : Option ℕ
  /-- GIVE_REMAINING of a cross-chain ORDER; `none` for a SWAP. -/
  remaining : Option ℚ

inductive DispenserStatus
  | opened
  | cancelling
  | cancelled
  | empty
  | expired
deriving DecidableEq

/-- A row of `dispensers` that gives ownership, with its edits applied and its latest status. -/
structure Dispenser where
  index : ℕ
  source : ℕ
  getAddress : ℕ
  tick : ℕ
  expiration : ℕ
  status : DispenserStatus

structure State where
  orders : Step.State
  swaps : List Swap
  dispensers : List Dispenser

/-- The rules in force at a block. Below the activation of `dispenseCancelling` a dispenser that is
being cancelled is not matched any more. -/
structure Rules extends Block where
  dispenseCancelling : Bool

def State.withBook (s : State) (b : Book) : State := { s with orders := { s.orders with book := b } }

def State.book (s : State) : Book := s.orders.book

def State.findSwap (s : State) (idx : ℕ) : Option Swap := s.swaps.find? fun x => x.index = idx

def State.findDispenser (s : State) (idx : ℕ) : Option Dispenser :=
  s.dispensers.find? fun d => d.index = idx

def State.bump (s : State) : State := s.withBook { s.book with nextIndex := s.book.nextIndex + 1 }

def createSwapStatus (s : State) (idx : ℕ) (status : OrderStatus) : State :=
  { s with swaps := s.swaps.map fun x =>
      if x.index = idx then { x with toOrder := { x.toOrder with status } } else x }

def createDispenserStatus (s : State) (idx : ℕ) (status : DispenserStatus) : State :=
  { s with dispensers := s.dispensers.map fun d => if d.index = idx then { d with status } else d }

/-! ### SWAP -/

/-- The checks of a SWAP create that read its sides and the ownership gate. -/
def swapAccepted (rules : Rules) (b : Book) (sp : OrderSpec) (getChain : Option ℕ) : Bool :=
  sp.give.tick ≠ none && (getChain ≠ none || sp.get.tick ≠ none) &&
  !(rules.sameTokenRefusal && getChain = none && sp.give.tick = sp.get.tick) &&
  (match sp.give with
    | .ownership t => b.gate t = none
    | _ => true) && rules.time < sp.expiration

/-- The checks of a cross-chain ORDER create; the other chain judges the GET side. -/
def crossOrderAccepted (rules : Rules) (b : Book) (sp : OrderSpec) : Bool :=
  !(sp.give.tick = none && sp.get.tick = none) && 0 ≤ sp.give.amount &&
  (match sp.give with
    | .ownership t => b.gate t = none
    | _ => true) && rules.time < sp.expiration

/-- `escrowOrRelease` of a create. -/
def createSwap (rules : Rules) (s : State) (sp : OrderSpec) (getChain : Option ℕ) (remaining : Option ℚ) :
    State :=
  let row := sp.row s.book.nextIndex
  let s := { s.bump with swaps := s.swaps ++ [{ row with getChain, remaining }] }
  match sp.give with
  | .ownership t => s.withBook (setTokenEscrow s.book t row.index)
  | .token t a => s.withBook (lock rules.toBlock s.book row t a)
  | .coin _ => s

/-- What a close hands back. -/
def Swap.rest (x : Swap) : ℚ := x.remaining.getD x.give.amount

/-- A swap hands out its GIVE side and gets a terminal status. -/
def closeSwap (rules : Rules) (s : State) (x : Swap) (amount : ℚ) (dest : ℕ) (status : OrderStatus) :
    State :=
  createSwapStatus (s.withBook (giveOut rules.toBlock s.book x.toOrder amount (fun _ => 64) dest))
    x.index status

/-- SWAP format 1. -/
def cancelSwap (rules : Rules) (s : State) (x : Swap) : State :=
  closeSwap rules s.bump x x.rest x.source .cancelled

/-- SWAP format 2: a later non-null field replaces the swap's. -/
def editSwap (s : State) (idx : ℕ) (expiration allowList blockList : Option ℕ) : State :=
  { s.bump with swaps := s.swaps.map fun x =>
      if x.index = idx then
        { x with
          expiration := expiration.getD x.expiration
          allowList := allowList.or x.allowList
          blockList := blockList.or x.blockList }
      else x }

def swapExpire (rules : Rules) (s : State) (x : Swap) : State :=
  closeSwap rules s.bump x x.rest x.source .expired

/-! ### SWAP_MATCH -/

/-- The amount column of a side, `NULL` for ownership. -/
def storedAmount : Side → Option ℚ
  | .ownership _ => none
  | .coin a => some a
  | .token _ a => some a

/-- The conditions of `swapMatchesSql` on a swap `m` for the swap `x`. -/
def isSwapCandidate (x m : Swap) : Bool :=
  x.getChain = none && m.getChain = none && x.give.tick ≠ none && x.get.tick ≠ none &&
  x.give.tick = m.get.tick && x.get.tick = m.give.tick &&
  storedAmount x.give = storedAmount m.get && storedAmount x.get = storedAmount m.give &&
  m.source ≠ x.source && m.status = .opened

/-- The oldest candidate whose ownership flags mirror and that reciprocity and the lists admit. -/
def findSwapMatch (rules : Rules) (s : State) (x : Swap) : Option Swap :=
  if rules.sameTokenRefusal && x.give.tick = x.get.tick then none
  else s.swaps.find? fun m =>
    isSwapCandidate x m && ownershipMirrors x.toOrder m.toOrder &&
      isTokenReciprocal x.toOrder m.toOrder && rules.listAllowed x.toOrder m.toOrder

/-- Both GIVE sides move and both swaps are complete. -/
def settleSwapMatch (rules : Rules) (s : State) (x m : Swap) : State :=
  let s := closeSwap rules s.bump x m.get.amount m.getAddress .complete
  closeSwap rules s m x.get.amount x.getAddress .complete

/-- A match is looked for with the swap as it is stored; from the activation on it must be open. -/
def swapMatch (rules : Rules) (s : State) (x : Swap) : State :=
  if rules.matchOriginOpen && x.status ≠ .opened then s
  else match findSwapMatch rules s x with
    | some m => settleSwapMatch rules s x m
    | none => s

/-! ### CROSS_SETTLE -/

/-- The local leg of a cross-chain match: what it says the offer gives, and where it goes. -/
structure CrossLeg where
  give : Side
  payout : ℕ

/-- The leg names the tick and the ownership flag the offer gives. -/
def CrossLeg.namesOffer (leg : CrossLeg) (x : Swap) : Bool :=
  leg.give.tick = x.give.tick && leg.give.isOwnership = x.give.isOwnership

/-- `clampSwapReleaseToEscrow`, and `clampFillToEscrow` of an ORDER. -/
def crossAmount (rules : Rules) (leg : CrossLeg) (x : Swap) : ℚ :=
  match x.remaining with
  | none =>
    if rules.settlementBounds && x.give.amount < leg.give.amount then x.give.amount else leg.give.amount
  | some left => if !leg.give.isOwnership && left < leg.give.amount then left else leg.give.amount

/-- An ORDER with nothing left to give is not settled. -/
def exhausted (leg : CrossLeg) (x : Swap) : Bool := !leg.give.isOwnership && x.remaining.any (· ≤ 0)

/-- `recordCrossChainOrderFill`. -/
def recordFill (s : State) (idx : ℕ) (remaining : ℚ) : State :=
  { s with swaps := s.swaps.map fun x => if x.index = idx then { x with remaining } else x }

/-- What a settlement leaves of the offer: a SWAP is complete, an ORDER if the leg was of ownership or
nothing is left to give. -/
def settleOffer (s : State) (x : Swap) (leg : CrossLeg) (amount : ℚ) : State :=
  match x.remaining with
  | none => createSwapStatus s x.index .complete
  | some left =>
    let left := Bcmath.bcsub left amount 64
    let s := recordFill s x.index left
    if leg.give.isOwnership || left ≤ 0 then createSwapStatus s x.index .complete else s

/-- `settleSwapLeg` and `settleOrderLeg`. Below the activation of the bounds the leg is taken at its
word. -/
def crossSettle (rules : Rules) (s : State) (x : Swap) (leg : CrossLeg) : State :=
  if x.status ≠ .opened || (rules.settlementBounds && !leg.namesOffer x) || exhausted leg x then s.bump
  else
    let offer := { x.toOrder with give := leg.give }
    let amount := crossAmount rules leg x
    let s := s.bump
    settleOffer (s.withBook (giveOut rules.toBlock s.book offer amount (fun _ => 64) leg.payout)) x leg amount

/-! ### DISPENSER -/

/-- A create of a dispenser that gives ownership. -/
def createDispenser (s : State) (source getAddress tick expiration : ℕ) : State :=
  let idx := s.book.nextIndex
  let row : Dispenser := ⟨idx, source, getAddress, tick, expiration, .opened⟩
  let s := { s.bump with dispensers := s.dispensers ++ [row] }
  s.withBook (setTokenEscrow s.book tick idx)

/-- DISPENSER format 2, of which only the expiration matters here. -/
def editDispenser (s : State) (idx : ℕ) (expiration : Option ℕ) : State :=
  { s.bump with dispensers := s.dispensers.map fun d =>
      if d.index = idx then { d with expiration := expiration.getD d.expiration } else d }

/-- Open the gate if this dispenser still holds it. Whether the ownership goes back to SOURCE or is
delivered elsewhere makes no difference to the gate. -/
def closeOwnershipDispenser (s : State) (d : Dispenser) : State :=
  if s.book.gate d.tick = some d.index then s.withBook (clearTokenEscrow s.book d.tick) else s

/-- DISPENSER_CLOSE. -/
def dispenserClose (s : State) (d : Dispenser) (status : DispenserStatus) : State :=
  createDispenserStatus (closeOwnershipDispenser s.bump d) d.index status

def dispenserExpire (s : State) (d : Dispenser) : State :=
  createDispenserStatus (closeOwnershipDispenser s.bump d) d.index .expired

/-- A DISPENSE that pays for the ownership: it is handed over, nothing is left to give, and the
dispenser is closed in the same action. -/
def dispense (s : State) (d : Dispenser) : State :=
  let s := s.bump
  dispenserClose (s.withBook (transferTokenOwnership s.book d.tick)) d .empty

/-! ### SWEEP -/

/-- One swap of `cancelSweptSwaps`. -/
def sweepSwap (rules : Rules) (destination : ℕ) (s : State) (idx : ℕ) : State :=
  match s.findSwap idx with
  | none => s
  | some x => closeSwap rules s x x.rest destination .cancelled

/-- One dispenser of `closeSweptDispensers`: it is closed when the close delay has passed. -/
def sweepDispenser (s : State) (idx : ℕ) : State := createDispenserStatus s idx .cancelling

def sweepOffers (rules : Rules) (s : State) (destination : ℕ) (swaps dispensers : List ℕ) : State :=
  dispensers.foldl sweepDispenser (swaps.foldl (sweepSwap rules destination) s)

/-! ### The step function -/

inductive Event
  | order (e : Step.Event)
  | createSwap (spec : OrderSpec) (getChain : Option ℕ)
  | createCrossOrder (spec : OrderSpec) (getChain : ℕ)
  | cancelSwap (source idx : ℕ)
  | editSwap (source idx : ℕ) (expiration allowList blockList : Option ℕ)
  | swapMatch (idx : ℕ)
  | swapExpire (idx : ℕ)
  | crossSettle (idx : ℕ) (leg : CrossLeg)
  | createDispenser (source getAddress tick expiration : ℕ)
  | cancelDispenser (source idx : ℕ)
  | editDispenser (source idx : ℕ) (expiration : Option ℕ)
  | dispense (idx : ℕ)
  | dispenserClose (idx : ℕ)
  | dispenserExpire (idx : ℕ)
  | sweep (source destination : ℕ) (orders swaps dispensers : List ℕ)

/-- Who may cancel or edit a dispenser. -/
def Dispenser.managedBy (d : Dispenser) (source : ℕ) : Bool :=
  d.source = source || d.getAddress = source

/-- Read a swap, check it and run its handler. -/
def handleSwap (s : State) (idx : ℕ) (ok : Swap → Bool) (f : Swap → State) :
    Option State :=
  match s.findSwap idx with
  | some x => if ok x then some (f x) else none
  | none => none

def handleDispenser (s : State) (idx : ℕ) (ok : Dispenser → Bool) (f : Dispenser → State) :
    Option State :=
  match s.findDispenser idx with
  | some d => if ok d then some (f d) else none
  | none => none

/-- The offers a SWEEP lists are distinct and of its SOURCE. -/
def sweepable (s : State) (source : ℕ) (swaps dispensers : List ℕ) : Bool :=
  decide swaps.Nodup && decide dispensers.Nodup &&
  (swaps.all fun idx => (s.findSwap idx).any fun x => x.source = source) &&
  dispensers.all fun idx => (s.findDispenser idx).any fun d => d.source = source

/-- The handler of an event, on a book no match pass is open on. -/
def handle (rules : Rules) (s : State) : Event → Option State
  | .order _ => none
  | .createSwap sp getChain =>
    if swapAccepted rules s.book sp getChain then some (createSwap rules s sp getChain none) else none
  | .createCrossOrder sp getChain =>
    if crossOrderAccepted rules s.book sp then
      some (createSwap rules s sp (some getChain) (some sp.give.amount))
    else none
  | .cancelSwap source idx =>
    handleSwap s idx (fun x => x.source = source && x.status = .opened) (cancelSwap rules s)
  | .editSwap source idx expiration allowList blockList =>
    handleSwap s idx (fun x => x.source = source && x.status = .opened)
      fun _ => editSwap s idx expiration allowList blockList
  | .swapMatch idx => handleSwap s idx (fun x => x.getChain = none) (swapMatch rules s)
  | .swapExpire idx =>
    handleSwap s idx (fun x => x.status = .opened && x.expiration < rules.time)
      (swapExpire rules s)
  | .crossSettle idx leg =>
    handleSwap s idx (fun x => x.getChain ≠ none) fun x => crossSettle rules s x leg
  | .createDispenser source getAddress tick expiration =>
    if s.book.gate tick = none ∧ rules.time < expiration then
      some (createDispenser s source getAddress tick expiration)
    else none
  | .cancelDispenser source idx =>
    handleDispenser s idx (fun d => d.managedBy source && d.status = .opened)
      fun _ => createDispenserStatus s.bump idx .cancelling
  | .editDispenser source idx expiration =>
    handleDispenser s idx (fun d => d.managedBy source && d.status = .opened)
      fun _ => editDispenser s idx expiration
  | .dispense idx =>
    handleDispenser s idx
      (fun d => d.status = .opened || (rules.dispenseCancelling && d.status = .cancelling)) (dispense s)
  | .dispenserClose idx =>
    handleDispenser s idx (fun d => d.status = .cancelling) fun d => dispenserClose s d .cancelled
  | .dispenserExpire idx =>
    handleDispenser s idx (fun d => d.status = .opened && d.expiration < rules.time)
      (dispenserExpire s)
  | .sweep source destination orders swaps dispensers =>
    if sweepable s source swaps dispensers then
      (Step.handle rules.toBlock s.book (.sweep source destination orders)).map fun o =>
        sweepOffers rules { s with orders := o } destination swaps dispensers
    else none

def step (s : State) (e : Rules × Event) : Option State :=
  match e.2 with
  | .order ev => (Step.step s.orders (e.1.toBlock, ev)).map fun o => { s with orders := o }
  | ev =>
    match s.orders.pass with
    | none => handle e.1 s ev
    | some _ => none

def init : State where
  orders := Step.init
  swaps := []
  dispensers := []

end XChainIndexer.Ownership.Offers
