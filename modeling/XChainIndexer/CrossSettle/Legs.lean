import XChainIndexer.Tokens.Numerals

/-! # CROSS_SETTLE

The settlement of cross-chain matches on one chain (`actions/cross_settle/`,
`processCrossChainSettlements`). A block's pass reads the mirrored matches that have no settlement row
yet and hands each to `parse`, which resolves this chain's leg, probes the local offer, and releases
the fill of an ORDER or the whole of a SWAP out of escrow. A leg that cannot be honoured records a
settlement and moves nothing.

The quorum, the network and the grace of a retirement are answers that come with the row. Ledger rows
carry the offer and, for a settlement, the match they are for; the tick `none` of a row is the ticker
`null`, which is what `consolidateLedgerRecords` makes of a missing tick. -/

namespace XChainIndexer.CrossSettle.Legs

open Bcmath IndexTables Lib.Digits Tokens

/-! ### Tables -/

inductive Kind
  | order
  | swap
  deriving DecidableEq

inductive OfferStatus
  | open
  | complete
  | closed
  deriving DecidableEq

/-- An ORDER or SWAP of this chain. An ownership side has the amount 1. -/
structure Offer where
  action_index : ℕ
  kind : Kind
  source : ℕ
  get_coin : ℕ
  give_tick : Option ℕ
  give_ownership : Bool
  give_amount : ℚ
  get_amount : ℚ
  status : OfferStatus

/-- An `order_matches` row, from the side of the local order. -/
structure Fill where
  action_index : ℕ
  order : ℕ
  give_amount : ℚ
  get_amount : ℚ

structure Entry where
  action_index : ℕ
  offer : ℕ
  settles : Option ℕ
  tick : Option ℕ
  amount : ℚ
  address : ℕ

/-- A row of `cross_chain_settlements`; a retirement names no legs. -/
structure Settlement where
  action_index : ℕ
  match_id : ℕ
  local_action_index : ℕ
  retired : Bool

/-- `transferTokenOwnership` of a settlement. -/
structure Transfer where
  offer : ℕ
  settles : ℕ
  tick : Option ℕ
  address : ℕ

structure State where
  next : ℕ
  offers : List Offer
  fills : List Fill
  settlements : List Settlement
  escrows : List Entry
  credits : List Entry
  transfers : List Transfer
  /-- The matches judged to have no local leg, with the block that judged them. -/
  dismissed : List (ℕ × ℕ)

/-! ### Matches -/

/-- A leg of a royalty split: the address as it is encoded for this chain, if it can be, and the text
of its basis points, `String(leg.bps)`. -/
structure PayoutLeg where
  address : Option ℕ
  bps : Text

/-- One side of a match. -/
structure Side where
  chain : ℕ
  action_index : ℕ
  kind : Kind
  tick : Option ℕ
  amount : ℚ
  ownership : Bool
  payout_addr : ℕ
  /-- The parsed legs, `none` if there are none or they are not an array. -/
  payout_legs : Option (List PayoutLeg)

/-- A mirrored row of `cross_chain_matches`; `royalty` is the CROSS_CHAIN_ROYALTY rule at its snapshot
block. -/
structure Match where
  match_id : ℕ
  a : Side
  b : Side
  royalty : Bool

inductive Quorum
  | met
  | short
  | snapshotAbsent
  deriving DecidableEq

/-- What the handler reads of a row besides the offers. -/
structure Answers where
  onNetwork : Bool
  quorum : Quorum
  agedOut : Bool

structure Ctx where
  coin : ℕ
  /-- The coin's name read as a ticker. -/
  coinTick : ℕ
  decimals : ℕ → ℕ
  decimals_le : ∀ tick, decimals tick ≤ 18

/-- The rules of a block; `writeScale` is where a ledger row of a tick is rounded. -/
structure Block where
  index : ℕ
  settlementBounds : Bool
  writeScale : Option ℕ → ℕ

/-- The leg of this chain: the offer it is about, what it gives and to whom. -/
structure Leg where
  localActionIndex : ℕ
  localKind : Kind
  giveTick : Option ℕ
  giveAmount : ℚ
  getAmount : ℚ
  giveOwnership : Bool
  payoutAddr : ℕ
  payoutLegs : Option (List PayoutLeg)
  counterpartyCoin : ℕ

def legOf (own other : Side) : Leg :=
  ⟨own.action_index, own.kind, own.tick, own.amount, other.amount, own.ownership, other.payout_addr,
    other.payout_legs, other.chain⟩

def resolveLocalLeg (c : Ctx) (m : Match) : Option Leg :=
  if m.a.chain = c.coin then some (legOf m.a m.b)
  else if m.b.chain = c.coin then some (legOf m.b m.a)
  else none

/-- `getOrderInfo` or `getSwapInfo` under the counterparty's coin. -/
def localInfo (s : State) (leg : Leg) : Option Offer :=
  s.offers.find? fun o => o.action_index = leg.localActionIndex && o.kind = leg.localKind &&
    o.get_coin = leg.counterpartyCoin

/-- GIVE_REMAINING and GET_REMAINING: the amounts less every fill. -/
def remaining (s : State) (o : Offer) : ℚ × ℚ :=
  (s.fills.filter (·.order = o.action_index)).foldl
    (fun r f => (bcsub r.1 f.give_amount 64, bcsub r.2 f.get_amount 64)) (o.give_amount, o.get_amount)

/-! ### Releasing -/

/-- The value of a hexadecimal digit; 16 of another character. -/
def hexDigit (c : Char) : ℕ :=
  if c.isDigit then c.toNat - 48
  else if 'a' ≤ c ∧ c ≤ 'f' then c.toNat - 87
  else if 'A' ≤ c ∧ c ≤ 'F' then c.toNat - 55
  else 16

/-- The base of a literal by its second character. -/
def radix : Char → Option ℕ
  | 'x' | 'X' => some 16
  | 'o' | 'O' => some 8
  | 'b' | 'B' => some 2
  | _ => none

def exponent (t : Text) : Option ℤ :=
  let digits := if t.head? = some '-' ∨ t.head? = some '+' then t.tail else t
  if isDigits digits then Numerals.parseInt t else none

/-- A decimal literal that is a finite double. -/
def isFiniteDecimal (t : Text) : Bool :=
  let e := t.dropWhile fun c => c ≠ 'e' && c ≠ 'E'
  match Numerals.number (t.takeWhile fun c => c ≠ 'e' && c ≠ 'E'),
      if e = [] then some 0 else exponent e.tail with
  | some x, some k => decide (|x * 10 ^ k| < 2 ^ 1024 - 2 ^ 970)
  | _, _ => false

/-- `isNumeric` of a text without blanks around it. -/
def isNumeric (t : Text) : Bool :=
  match t.head?, t.tail.head?.bind radix with
  | some '0', some base => t.drop 2 ≠ [] && (t.drop 2).all (hexDigit · < base)
  | _, _ => isFiniteDecimal t

/-- `parseInt` of a numeric text: the digits it starts with, in base sixteen after `0x`. -/
def parseInt (t : Text) : Option ℤ :=
  if t.head? = some '0' ∧ t.tail.head?.bind radix = some 16 then
    some ((t.drop 2).foldl (fun n c => 16 * n + (hexDigit c : ℤ)) 0)
  else Numerals.parseInt t

/-- The basis points that are read from a text, if it is numeric. -/
def readBps (text : Text) : Option ℤ :=
  let t := ((text.dropWhile Char.isWhitespace).reverse.dropWhile Char.isWhitespace).reverse
  if isNumeric t then parseInt t else none

/-- The basis points of the legs, if every leg has an address and a share that is not negative. -/
def legBps : List PayoutLeg → Option (List (ℕ × ℕ))
  | [] => some []
  | leg :: legs =>
    match leg.address, readBps leg.bps, legBps legs with
    | some address, some bps, some rest =>
      if 0 ≤ bps then some ((address, bps.toNat) :: rest) else none
    | _, _, _ => none

/-- The part of the proceeds a leg takes, floored at the tick's decimals. -/
def legAmount (proceeds : ℚ) (d bps : ℕ) : ℚ :=
  bcmulfloor (bcmul proceeds bps (d + 4)) (1 / 10000) d

/-- `applyProceedsSplit` on legs that parsed: the remainder first, then every leg that takes
something. -/
def split (proceeds : ℚ) (address d : ℕ) (legs : List (ℕ × ℕ)) : List (ℚ × ℕ) :=
  let out := (legs.map fun l => (legAmount proceeds d l.2, l.1)).filter fun p => 0 < p.1
  let distributed := out.foldl (fun sum p => bcadd sum p.1 d) 0
  (bcsub proceeds distributed d, address) :: out

/-- The amounts a release credits, and to whom. A missing tick, a malformed leg or shares above the
whole leave the proceeds unsplit. -/
def proceedsCredits (c : Ctx) (m : Match) (leg : Leg) (amount : ℚ) : List (ℚ × ℕ) :=
  match m.royalty, leg.payoutLegs, leg.giveTick with
  | true, some legs, some tick =>
    match legBps legs with
    | some shares =>
      if shares ≠ [] ∧ 0 < amount ∧ (shares.map (·.2)).sum ≤ 10000 then
        split amount leg.payoutAddr (c.decimals tick) shares
      else [(amount, leg.payoutAddr)]
    | none => [(amount, leg.payoutAddr)]
  | _, _, _ => [(amount, leg.payoutAddr)]

/-- The ledger half of a settlement under the action `s.next`. -/
def releaseEscrow (c : Ctx) (blk : Block) (s : State) (m : Match) (leg : Leg) (amount : ℚ) (o : Offer) :
    State :=
  if leg.giveOwnership then
    { s with transfers := s.transfers ++ [⟨o.action_index, m.match_id, leg.giveTick, leg.payoutAddr⟩] }
  else
    { s with
      escrows := s.escrows ++ [⟨s.next, o.action_index, some m.match_id, leg.giveTick,
        bcadd (bcsub 0 amount 64) 0 (blk.writeScale leg.giveTick), leg.payoutAddr⟩]
      credits := s.credits ++ (proceedsCredits c m leg amount).map fun p =>
        ⟨s.next, o.action_index, some m.match_id, leg.giveTick,
          bcadd p.1 0 (blk.writeScale leg.giveTick), p.2⟩ }

/-- `INSERT IGNORE`, under the action `s.next`, which is used up. -/
def record (s : State) (m : Match) (localActionIndex : ℕ) (retired : Bool) : State :=
  { s with
    next := s.next + 1
    settlements :=
      if s.settlements.any fun r => r.match_id = m.match_id then s.settlements
      else s.settlements ++ [⟨s.next, m.match_id, localActionIndex, retired⟩] }

def recordNoopSettlement (s : State) (m : Match) (leg : Leg) : State :=
  record s m leg.localActionIndex false

def setStatus (s : State) (idx : ℕ) (status : OfferStatus) : State :=
  { s with offers := s.offers.map fun o => if o.action_index = idx then { o with status } else o }

/-! ### The legs -/

/-- From the activation a match that names another give side than the offer's moves nothing; a native
leg reads as the coin on both sides. -/
def mismatchesOffer (c : Ctx) (blk : Block) (leg : Leg) (o : Offer) : Bool :=
  blk.settlementBounds && !(leg.giveTick.getD c.coinTick = o.give_tick.getD c.coinTick &&
    leg.giveOwnership = o.give_ownership)

/-- From the activation a swap releases at most its escrow. -/
def clampSwapReleaseToEscrow (blk : Block) (leg : Leg) (o : Offer) : ℚ :=
  if leg.giveOwnership || !blk.settlementBounds then leg.giveAmount
  else if o.give_amount < leg.giveAmount then o.give_amount
  else leg.giveAmount

def settleSwapLeg (c : Ctx) (blk : Block) (s : State) (m : Match) (leg : Leg) : Option Offer → State
  | none => s
  | some o =>
    if o.status ≠ .open then recordNoopSettlement s m leg
    else if mismatchesOffer c blk leg o then recordNoopSettlement s m leg
    else
      let s := releaseEscrow c blk s m leg (clampSwapReleaseToEscrow blk leg o) o
      record (setStatus s o.action_index .complete) m leg.localActionIndex false

/-- The fill to release, `none` if an order that escrows a balance has nothing left to give. -/
def clampFillToEscrow (s : State) (leg : Leg) (o : Offer) : Option ℚ :=
  if leg.giveOwnership then some leg.giveAmount
  else if (remaining s o).1 ≤ 0 then none
  else if (remaining s o).1 < leg.giveAmount then some (remaining s o).1
  else some leg.giveAmount

/-- The fill is released and recorded, and the order completed when nothing remains to give. -/
def applyOrderFill (c : Ctx) (blk : Block) (s : State) (m : Match) (leg : Leg) (o : Offer) (amount : ℚ) :
    State :=
  let s := releaseEscrow c blk s m leg amount o
  let s := { s with fills := s.fills ++ [⟨s.next, o.action_index, amount, leg.getAmount⟩] }
  let s := if leg.giveOwnership = true ∨ (remaining s o).1 ≤ 0 then
    setStatus s o.action_index .complete else s
  record s m leg.localActionIndex false

def settleOrderLeg (c : Ctx) (blk : Block) (s : State) (m : Match) (leg : Leg) : Option Offer → State
  | none => s
  | some o =>
    if o.status ≠ .open then recordNoopSettlement s m leg
    else if mismatchesOffer c blk leg o then recordNoopSettlement s m leg
    else match clampFillToEscrow s leg o with
      | none => recordNoopSettlement s m leg
      | some amount => applyOrderFill c blk s m leg o amount

/-! ### The handler -/

/-- The grace over, a match that cannot be applied gets a row without legs. -/
def retireUnapplicableMatch (s : State) (m : Match) (leg : Leg) (v : Answers) : Option State :=
  if v.agedOut then some (record s m leg.localActionIndex true) else none

/-- The probe: `none` is a dismissal, else the local offer as it was read. A dismissal holds above the
block that judged it. -/
def probeLocalLeg (blk : Block) (s : State) (m : Match) (leg : Leg) : State × Option (Option Offer) :=
  match s.dismissed.find? (·.1 = m.match_id) with
  | some entry => if entry.2 < blk.index then (s, none) else probe { s with
      dismissed := s.dismissed.filter (·.1 ≠ m.match_id) }
  | none => probe s
where
  probe (s : State) : State × Option (Option Offer) :=
    match localInfo s leg with
    | some o => (s, some (some o))
    | none =>
      if leg.localActionIndex < s.next then
        ({ s with dismissed := s.dismissed ++ [(m.match_id, blk.index)] }, none)
      else (s, some none)

def parse (c : Ctx) (blk : Block) (s : State) (m : Match) (v : Answers) : State :=
  if !v.onNetwork then s
  else match resolveLocalLeg c m with
    | none => s
    | some leg =>
      match probeLocalLeg blk s m leg with
      | (s, none) => (retireUnapplicableMatch s m leg v).getD s
      | (s, some info) =>
        if v.quorum ≠ .met then
          if v.quorum = .short then (retireUnapplicableMatch s m leg v).getD s else s
        else match info, retireUnapplicableMatch s m leg v with
          | none, some retired => retired
          | info, _ =>
            match leg.localKind with
            | .order => settleOrderLeg c blk s m leg info
            | .swap => settleSwapLeg c blk s m leg info

/-- The matches of a pass: those without a settlement row, up to the cap. -/
def getEffectiveUnsettledMatches (s : State) (rows : List (Match × Answers)) (cap : ℕ) :
    List (Match × Answers) :=
  (rows.filter fun r => !s.settlements.any fun x => x.match_id = r.1.match_id).take cap

/-! ### Actions -/

inductive Event
  /-- A valid create. -/
  | create (kind : Kind) (source getCoin : ℕ) (giveTick : Option ℕ) (giveOwnership : Bool)
      (giveAmount getAmount : ℚ)
  /-- A cancel, an expiry or a SWEEP closes an open offer and gives back what it holds. -/
  | close (idx dest : ℕ)
  /-- A fill of ORDER_MATCH on this chain. -/
  | localFill (idx : ℕ) (give get : ℚ) (dest : ℕ)
  /-- The pass of a block over the mirrored matches. -/
  | settle (rows : List (Match × Answers)) (cap : ℕ)

/-- A create locks its GIVE side; coin and ownership are not escrowed. -/
def lockEscrow (blk : Block) (s : State) (o : Offer) : State :=
  if o.give_tick = none ∨ o.give_ownership = true then s
  else
    { s with
      escrows := s.escrows ++ [⟨s.next, o.action_index, none, o.give_tick,
        bcadd o.give_amount 0 (blk.writeScale o.give_tick), o.source⟩] }

/-- A release outside CROSS_SETTLE. -/
def giveBack (blk : Block) (s : State) (o : Offer) (amount : ℚ) (dest : ℕ) : State :=
  if o.give_tick = none ∨ o.give_ownership = true then s
  else
    { s with
      escrows := s.escrows ++ [⟨s.next, o.action_index, none, o.give_tick,
        bcadd (bcsub 0 amount 64) 0 (blk.writeScale o.give_tick), o.source⟩]
      credits := s.credits ++ [⟨s.next, o.action_index, none, o.give_tick,
        bcadd amount 0 (blk.writeScale o.give_tick), dest⟩] }

def createOffer (blk : Block) (s : State) (kind : Kind) (source getCoin : ℕ) (giveTick : Option ℕ)
    (giveOwnership : Bool) (giveAmount getAmount : ℚ) : State :=
  let o : Offer := ⟨s.next, kind, source, getCoin, giveTick, giveOwnership, giveAmount, getAmount, .open⟩
  let s := lockEscrow blk s o
  { s with next := s.next + 1, offers := s.offers ++ [o] }

/-- What an open offer gives back: an order what remains, a swap its whole amount. -/
def heldBack (s : State) (o : Offer) : ℚ :=
  match o.kind with
  | .order => (remaining s o).1
  | .swap => o.give_amount

def closeOffer (blk : Block) (s : State) (o : Offer) (dest : ℕ) : State :=
  let s := giveBack blk s o (heldBack s o) dest
  { setStatus s o.action_index .closed with next := s.next + 1 }

def fillOrder (blk : Block) (s : State) (o : Offer) (give get : ℚ) (dest : ℕ) : State :=
  let s := giveBack blk s o give dest
  let s := { s with fills := s.fills ++ [⟨s.next, o.action_index, give, get⟩] }
  let s := if (remaining s o).1 ≤ 0 ∨ (remaining s o).2 ≤ 0 then
    setStatus s o.action_index .complete else s
  { s with next := s.next + 1 }

/-- One action or pass; the mirror holds one row for a match. -/
def step (c : Ctx) (s : State) (e : Block × Event) : Option State :=
  match e.2 with
  | .create kind source getCoin giveTick giveOwnership giveAmount getAmount =>
    some (createOffer e.1 s kind source getCoin giveTick giveOwnership giveAmount getAmount)
  | .close idx dest =>
    match s.offers.find? (·.action_index = idx) with
    | some o => if o.status = .open then some (closeOffer e.1 s o dest) else none
    | none => none
  | .localFill idx give get dest =>
    match s.offers.find? (·.action_index = idx) with
    | some o =>
      if o.status = .open ∧ o.kind = .order then some (fillOrder e.1 s o give get dest) else none
    | none => none
  | .settle rows cap =>
    if (rows.map (·.1.match_id)).Nodup then
      some ((getEffectiveUnsettledMatches s rows cap).foldl (fun s r => parse c e.1 s r.1 r.2) s)
    else none

def init : State := ⟨1, [], [], [], [], [], [], []⟩

end XChainIndexer.CrossSettle.Legs
