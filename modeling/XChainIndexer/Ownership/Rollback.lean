import XChainIndexer.Lib.StatusLog
import XChainIndexer.Ownership.Offers

/-! # The ownership gates after a rollback

`order_statuses`, `swap_statuses` and `dispenser_statuses` are append-only: a handler that gives an
offer a status writes a row at the index of its action, one for each action and offer. `Db` keeps these
tables beside the state of `Ownership.Offers`, whose rows hold the latest status.

A rollback deletes the rows of the orphaned actions (`purgeActionScopedTables`) and then sets the gates
again from the offers that are left (`rederiveTokenEscrow`, `db/rollback/rederive.js`): the gate itself
was stamped in place and survives the delete. -/

namespace XChainIndexer.Ownership.Rollback

open Lib.StatusLog Orders.Tables Ownership.Offers

/-! ### The tables -/

/-- The offers with the status tables. -/
structure Db where
  state : Offers.State
  orderStatuses : List (Row OrderStatus)
  /-- Those of the cross-chain orders too, which `Offers.State` keeps with the swaps. -/
  swapStatuses : List (Row OrderStatus)
  dispenserStatuses : List (Row DispenserStatus)

def init : Db := ⟨Offers.init, [], [], []⟩

/-- An action on the offers, or one that touches none. -/
inductive Action
  | offer (e : Offers.Event)
  | other

def act (s : Offers.State) (rules : Rules) : Action → Option Offers.State
  | .offer e => Offers.step s (rules, e)
  | .other => if s.orders.pass.isNone then some s.bump else none

/-- The status rows an action leaves. -/
def Db.record (db : Db) (s' : Offers.State) : Db where
  state := s'
  orderStatuses := log Order.index Order.status db.state.book.nextIndex s'.book.nextIndex
    db.state.book.orders s'.book.orders db.orderStatuses
  swapStatuses := log (fun x : Swap => x.index) (fun x => x.status) db.state.book.nextIndex
    s'.book.nextIndex db.state.swaps s'.swaps db.swapStatuses
  dispenserStatuses := log Dispenser.index Dispenser.status db.state.book.nextIndex s'.book.nextIndex
    db.state.dispensers s'.dispensers db.dispenserStatuses

def step (db : Db) (e : Rules × Action) : Option Db := (act db.state e.1 e.2).map db.record

/-! ### What the re-derivation reads -/

/-- An offer with `give_ownership = 1`. -/
structure Offer where
  index : ℕ
  tick : ℕ

/-- A table of offers with its status table. -/
structure Table (σ : Type) where
  offers : List Offer
  statuses : List (Row σ)

structure Stored where
  orders : Table OrderStatus
  swaps : Table OrderStatus
  dispensers : Table DispenserStatus
  /-- `tokens.escrow_action_index`. -/
  gate : ℕ → Option ℕ

/-- The tick whose ownership a side is. -/
def owned : Side → Option ℕ
  | .ownership t => some t
  | _ => none

def orderOwned (o : Order) : Option ℕ := owned o.give

def swapOwned (x : Swap) : Option ℕ := owned x.give

def dispenserOwned (d : Dispenser) : Option ℕ := some d.tick

def tableOf {A σ : Type} (index : A → ℕ) (gives : A → Option ℕ) (l : List A) (statuses : List (Row σ)) :
    Table σ where
  offers := l.filterMap fun a => (gives a).map fun t => ⟨index a, t⟩
  statuses := statuses

def Db.stored (db : Db) : Stored where
  orders := tableOf Order.index orderOwned db.state.book.orders db.orderStatuses
  swaps := tableOf (fun x : Swap => x.index) swapOwned db.state.swaps db.swapStatuses
  dispensers := tableOf Dispenser.index dispenserOwned db.state.dispensers db.dispenserStatuses
  gate := db.state.book.gate

/-! ### The rollback -/

/-- `open`, `cancelling` and `expiring`. -/
def heldOrder : OrderStatus → Bool
  | .opened => true
  | .cancelling => true
  | .expiring => true
  | _ => false

/-- The same list; a dispenser is never `expiring`. -/
def heldDispenser : DispenserStatus → Bool
  | .opened => true
  | .cancelling => true
  | _ => false

def Table.purge {σ : Type} (first : ℕ) (table : Table σ) : Table σ where
  offers := table.offers.filter fun o => o.index < first
  statuses := cut first table.statuses

/-- The offers of the tick whose latest status is one of the held ones. -/
def Table.openOffers {σ : Type} (held : σ → Bool) (table : Table σ) (t : ℕ) : List ℕ :=
  ((table.offers.filter fun o => o.tick = t).map (·.index)).filter fun i => isHeld held table.statuses i

def Stored.openOffers (s : Stored) (t : ℕ) : List ℕ :=
  s.orders.openOffers heldOrder t ++ s.swaps.openOffers heldOrder t ++
    s.dispensers.openOffers heldDispenser t

def purgeActionScopedTables (first : ℕ) (s : Stored) : Stored where
  orders := s.orders.purge first
  swaps := s.swaps.purge first
  dispensers := s.dispensers.purge first
  gate := s.gate

/-- The affected ticks are those with a gate and those with an open offer; each gets the oldest open
offer of all three tables. -/
def rederiveTokenEscrow (s : Stored) : Stored :=
  { s with gate := fun t =>
      if s.gate t ≠ none ∨ s.openOffers t ≠ [] then (s.openOffers t).min? else s.gate t }

/-- The first action of the orphaned blocks, which begin at the index `start`. -/
def firstActionIndex (start : ℕ) (db : Db) : Option ℕ :=
  if start < db.state.book.nextIndex then some start else none

/-- The part of `restoreInPlaceFlips` that concerns the gates. -/
def rollback (start : ℕ) (db : Db) : Stored :=
  match firstActionIndex start db with
  | some first => rederiveTokenEscrow (purgeActionScopedTables first db.stored)
  | none => db.stored

end XChainIndexer.Ownership.Rollback
