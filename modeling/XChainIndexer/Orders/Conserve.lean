import XChainIndexer.Orders.Fates

/-! # Escrow is conserved for open orders

For an open order that gives a token, the net escrow attributed to it should be what it has left to
give plus the legs it owes on pending coin payments. It is, in every state reached by steps that are
`Sound` (`open_orders_backed`): the GIVE amount is a ledger amount, a fill is sized without a rounding
fault and an expiring obligation returns the token leg. It is not in general: a rounded price can make
a fill larger than what the maker has left (`overfilled_maker_negative`). Short of that fault a fill
never takes more than either order has left, and leaves one of them nothing (`fill_within_remaining`). -/

namespace XChainIndexer.Orders.Conserve

open Bcmath Lib.Run Orders.Tables Orders.Match Orders.Step Orders.Escrow
open Orders.Invariant Orders.Handlers Orders.Fill Lib.Decimal Orders.Pass Orders.Steps Orders.Fates

/-- The escrow of every open token order is what it has left to give plus its pending legs, and is
not negative. -/
def Conserved (s : State) : Prop :=
  ∀ o ∈ s.book.orders, o.status = .opened → ∀ t a, o.give = .token t a →
    held s.book o.index =
      (getOrderAmountsRemaining s.book o).give + pendingLegs s.book o.index ∧
    0 ≤ held s.book o.index

/-! ### The invariant -/

def AllBacked (b : Book) : Prop :=
  ∀ o ∈ b.orders, o.status = .opened → ∀ t a, o.give = .token t a → (account b o).Backed

structure Inv (sc : Scales) (s : State) : Prop where
  wf : Wf sc s.book
  pass : ∀ p, s.pass = some p → PassOk s.book p
  backed : AllBacked s.book

variable {sc : Scales}

theorem AllBacked.of_keeps {clean : Prop} {b b' : Book} (hb : AllBacked b) (h : Keeps clean b b') :
    AllBacked b' := by
  intro o' ho' hs t a hg
  rcases h o' ho' t a hg with ⟨o, ho, hf⟩ | hnew
  · obtain ⟨hopen, hback⟩ := hf.backed hs
    rw [hf.terms.account]
    exact hback (hb o ho hopen t a (hf.terms.give ▸ hg))
  · exact hnew.2.1

/-- **A sound step keeps the invariant.** -/
theorem inv_step (s : State) (e : Block × Event) (s' : State) (hs : Sound sc s e)
    (h : step s e = some s') (hi : Inv sc s) : Inv sc s' := by
  obtain ⟨hw, hpass, hb⟩ := hi
  have hstep := stepped_of_step h
  exact ⟨wf_step hs hstep hw hpass, passOk_step hstep hw.toKeys hpass,
    hb.of_keeps (keeps_step hs hstep hw hpass)⟩

theorem inv_init (sc : Scales) : Inv sc init := by
  refine ⟨⟨keys_init, by simp [init], by simp [init]⟩, by simp [init], ?_⟩
  intro o ho
  simp [init] at ho

/-- **Escrow is conserved.** In every state reached by sound steps, an open token order has in escrow
what it has left to give plus its pending legs, and never less than nothing. -/
theorem open_orders_backed (sc : Scales) (s : State) (h : Reaches step (Sound sc) init s) :
    Conserved s := by
  have hi := h.invariant (inv_init sc) inv_step
  intro o ho hopen t a hg
  have hb := hi.backed o ho hopen t a hg
  exact ⟨hb.held_eq, hb.held_nonneg⟩

/-! ### A sound run, and one whose rounded price overfills the maker -/

def eighteen : Scales where
  decimals := fun _ => 18
  precision := fun _ => 18
  decimals_le := fun _ => le_rfl
  precision_le := fun _ => le_rfl

/-- On blocks of the same decimals a step is sound if it is for its own block's. -/
theorem sound_of_scales {es : List (Block × Event)}
    (hscales : es.map (·.1.scales) = List.replicate es.length sc) :
    ∀ e ∈ es, ∀ s, Sound e.1.scales s e → Sound sc s e := by
  intro e he s hs
  have heq : e.1.scales = sc := List.eq_of_mem_replicate (hscales ▸ List.mem_map_of_mem he)
  exact heq ▸ hs

/-- A block above every COINPAY activation; the price comparison is the one in force before the
price-cross activation. -/
def laterBlock (time : ℕ) : Block where
  time := time
  matchOriginOpen := true
  equalPriceOldestFirst := true
  sameTokenRefusal := true
  nativeReciprocity := true
  priceCross := false
  expireTokenAmount := true
  settlementBounds := true
  ledgerAmountPrecision := true
  scales := eighteen
  coinpayExpiration := 100
  listAllowed := fun _ _ => true

/-- 10⁻¹⁶ less than 6·10²⁰ of a token for one satoshi. -/
def makerSpec : OrderSpec where
  source := 1
  getAddress := 1
  give := .token 7 (6 * 10 ^ 20 - 1 / 10 ^ 16)
  get := .coin (1 / 10 ^ 8)
  expiration := 1000
  allowList := none
  blockList := none

/-- One satoshi for 6·10²⁰ of the token. -/
def takerSpec : OrderSpec where
  source := 2
  getAddress := 2
  give := .coin (1 / 10 ^ 8)
  get := .token 7 (6 * 10 ^ 20)
  expiration := 1000
  allowList := none
  blockList := none

/-- Two orders are created and matched, and the coin payment is missed. -/
def overfillRun : List (Block × Event) :=
  [(laterBlock 1, .create makerSpec), (laterBlock 1, .beginMatch 1), (laterBlock 1, .nextMatch),
    (laterBlock 2, .create takerSpec), (laterBlock 2, .beginMatch 2), (laterBlock 2, .nextMatch),
    (laterBlock 2, .nextMatch), (laterBlock 200, .coinpayExpire 3)]

/-- 4 of a maker's 10 are matched for coin, and the payment is missed. -/
def missedRun : List (Block × Event) :=
  [.create { makerSpec with give := .token 7 10, get := .coin 5 },
    .create { takerSpec with give := .coin 2, get := .token 7 4 }, .beginMatch 2, .nextMatch, .nextMatch].map
      (laterBlock 1, ·) ++ [(laterBlock 200, .coinpayExpire 3)]

/-- The fill leaves all 10 in escrow, 4 of them for the buyer; the expiry gives the 4 back. -/
theorem open_orders_backed_missed :
    (∃ s, run step init (missedRun.take 5) = some s ∧ held s.book 1 = 10 ∧ pendingLegs s.book 1 = 4 ∧
      Conserved s) ∧
    ∃ s, run step init missedRun = some s ∧ held s.book 1 = 6 ∧ pendingLegs s.book 1 = 0 ∧
      Conserved s := by
  obtain ⟨s, hs, hheld, hlegs⟩ : ∃ s, run (fun s e => if Sound e.1.scales s e then step s e else none) init
      (missedRun.take 5) = some s ∧ held s.book 1 = 10 ∧ pendingLegs s.book 1 = 4 := by decide +kernel
  obtain ⟨s', hs', hheld', hlegs'⟩ : ∃ s, run (fun s e => if Sound e.1.scales s e then step s e else none) init
      missedRun = some s ∧ held s.book 1 = 6 ∧ pendingLegs s.book 1 = 0 := by decide +kernel
  exact ⟨⟨s, run_of_checked hs, hheld, hlegs,
      open_orders_backed eighteen s (Reaches.init.of_run_checked (sound_of_scales rfl) hs)⟩,
    s', run_of_checked hs', hheld', hlegs',
      open_orders_backed eighteen s' (Reaches.init.of_run_checked (sound_of_scales rfl) hs')⟩

/-- Some open token order has negative escrow. -/
def negativeOpen (s : State) : Bool :=
  s.book.orders.any fun o =>
    o.status = .opened && (o.give.tick ≠ none && !o.give.isOwnership) && held s.book o.index < 0

theorem not_conserved_of_negativeOpen {s : State} (h : negativeOpen s) : ¬ Conserved s := by
  intro hc
  obtain ⟨o, ho, hneg⟩ := List.any_eq_true.mp h
  simp only [Bool.and_eq_true, decide_eq_true_eq] at hneg
  obtain ⟨⟨hopen, htok⟩, hlt⟩ := hneg
  cases hg : o.give with
  | coin a => simp [hg, Side.tick] at htok
  | ownership t => simp [hg, Side.isOwnership] at htok
  | token t a => exact absurd (hc o ho hopen t a hg).2 (not_le.mpr hlt)

/-- The price `10⁻⁸ / (6·10²⁰)` rounds up at 64 decimals, so the GIVE side looks tighter and the fill
is derived from the taker's price: 6·10²⁰, more than the maker has. The missed payment returns it. -/
theorem overfilled_maker_negative : ∃ s, run step init overfillRun = some s ∧ ¬ Conserved s := by
  obtain ⟨s, hs, hneg⟩ : ∃ s, run step init overfillRun = some s ∧ negativeOpen s := by decide +kernel
  exact ⟨s, hs, not_conserved_of_negativeOpen hneg⟩

/-! ### What a fill leaves -/

/-- What two orders have left: not negative, and amounts of the ledger on the ticks' grids. -/
structure Left (sc : Scales) (o : Order) (r : Remaining) (m : OrderInfo) : Prop where
  give : 0 ≤ r.give ∧ Fits (sc.decimalsOf o.give.tick) r.give
  get : 0 ≤ r.get ∧ Fits (sc.decimalsOf o.get.tick) r.get
  makerGive : 0 ≤ m.remaining.give ∧ Fits (sc.decimalsOf o.get.tick) m.remaining.give
  makerGet : 0 ≤ m.remaining.get ∧ Fits (sc.decimalsOf o.give.tick) m.remaining.get

/-- Both amounts of a fill are on their tick's grid, not negative and within what either order has left,
and one order has nothing left on one side. -/
def Takes (blk : Block) (o : Order) (r : Remaining) (m : OrderInfo) : Prop :=
  let f := computeFillAmounts blk o r m
  (OnGrid (blk.scales.decimalsOf o.give.tick) f.giveAmount ∧ 0 ≤ f.giveAmount ∧
      f.giveAmount ≤ r.give ∧ f.giveAmount ≤ m.remaining.get) ∧
    (OnGrid (blk.scales.decimalsOf o.get.tick) f.getAmount ∧ 0 ≤ f.getAmount ∧
      f.getAmount ≤ r.get ∧ f.getAmount ≤ m.remaining.give) ∧
    (f.giveAmount = r.give ∨ f.giveAmount = m.remaining.get ∨ f.getAmount = r.get ∨
      f.getAmount = m.remaining.give)

section fill

variable {blk : Block} {o : Order} {r : Remaining} {m : OrderInfo} (hleft : Left blk.scales o r m)
  (hgive : 0 ≤ o.give.amount) (hget : 0 ≤ o.get.amount)
include hleft

theorem Left.maxGive : 0 ≤ maxGive r m ∧ Fits (blk.scales.decimalsOf o.give.tick) (maxGive r m) := by
  unfold Match.maxGive
  split_ifs
  exacts [hleft.makerGet, hleft.give]

theorem Left.maxGet : 0 ≤ maxGet r m ∧ Fits (blk.scales.decimalsOf o.get.tick) (maxGet r m) := by
  unfold Match.maxGet
  split_ifs
  exacts [hleft.makerGive, hleft.get]

include hgive hget

theorem takes_of_derived_le (hderived : maxGive r m < bcmul (maxGet r m) o.getPrice 64 →
      bcmul (maxGive r m) o.givePrice 64 ≤
        maxGet r m + 47 / 100 * (1 / 10 ^ blk.scales.decimalsOf o.get.tick) + 1 / 10 ^ 20) :
    Takes blk o r m := by
  have hsideGive : maxGive r m = r.give ∨ maxGive r m = m.remaining.get := (ite_eq_or_eq ..).symm
  have hsideGet : maxGet r m = r.get ∨ maxGet r m = m.remaining.give := (ite_eq_or_eq ..).symm
  obtain ⟨⟨hn1, hle1, hf1⟩, ⟨hn2, hle2, hf2⟩, hall⟩ :=
    fill_spec hgive hget hleft.maxGive.1 hleft.maxGive.2 hleft.maxGet.2 hleft.maxGet.1 hderived
  obtain ⟨hg1, hg2⟩ := maxGive_le r m
  obtain ⟨ht1, ht2⟩ := maxGet_le r m
  refine ⟨⟨hf1.1, hn1, hle1.trans hg1, hle1.trans hg2⟩, ⟨hf2.1, hn2, hle2.trans ht1, hle2.trans ht2⟩, ?_⟩
  rcases hall with hall | hall
  · rcases hsideGive with h | h
    · exact .inl (hall.trans h)
    · exact .inr (.inl (hall.trans h))
  · rcases hsideGet with h | h
    · exact .inr (.inr (.inl (hall.trans h)))
    · exact .inr (.inr (.inr (hall.trans h)))

end fill

/-- The maker of 6·10²⁰ - 10⁻¹⁶, as the taker finds it. -/
def maker : OrderInfo := ⟨makerSpec.row 1, ⟨6 * 10 ^ 20 - 1 / 10 ^ 16, 1 / 10 ^ 8⟩⟩

theorem left_maker {get : ℚ} (h : 0 ≤ get ∧ Fits 18 get) :
    Left (laterBlock 2).scales (takerSpec.row 2) ⟨1 / 10 ^ 8, get⟩ maker := by
  have hcoin : 0 ≤ (1 / 10 ^ 8 : ℚ) ∧ Fits 8 (1 / 10 ^ 8) := by decide +kernel
  have hmaker : 0 ≤ maker.remaining.give ∧ Fits 18 maker.remaining.give := by decide +kernel
  exact ⟨hcoin, h, hmaker, hcoin⟩

end XChainIndexer.Orders.Conserve
