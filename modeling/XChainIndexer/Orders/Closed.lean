import XChainIndexer.Orders.Conserve

/-! # Nothing stays in escrow for a closed order

An order that is complete, cancelled or expired and has no pending obligation should hold nothing: all
it locked went to counterparties or back to its owner. It is so in every state reached by sound steps
that are also `Clean` (`closed_orders_return_all`): no order is completed with GIVE left, a match
starts from an open order and a SWEEP closes orders that are still open. `settleFill` and
`finalizeOrders` complete an order as soon as its GET side is used up, so an order filled at a better
price than it asked keeps the rest of its GIVE side in escrow for good
(`price_improvement_strands_escrow`). -/

namespace XChainIndexer.Orders.Closed

open Bcmath Lib.Run Lib.Decimal Orders.Tables Orders.Match Orders.Step Orders.Escrow Orders.Invariant
open Orders.Handlers Orders.Pass Orders.Steps Orders.Fates Orders.Conserve

/-- A closed token order without pending obligations holds nothing, and all it locked was credited. -/
def Returned (s : State) : Prop :=
  ∀ o ∈ s.book.orders, closed o.status = true → ∀ t a, o.give = .token t a →
    getPendingCoinpayObligationsByOrder s.book o.index = [] →
    held s.book o.index = 0 ∧ credited s.book o.index = a

/-! ### The invariant -/

/-- The accounts of the token orders are sane and account for all that was locked. -/
def AllSane (b : Book) : Prop :=
  ∀ o ∈ b.orders, ∀ t a, o.give = .token t a →
    Sane o.status (account b o) ∧ total b o.index = a

structure CleanInv (sc : Scales) (s : State) : Prop where
  inv : Inv sc s
  sane : AllSane s.book
  taker : ∀ p, s.pass = some p → p.taker.status = .opened

variable {sc : Scales} {b : Book} {s : State}

theorem AllSane.of_keeps {clean : Prop} {b' : Book} (hs : AllSane b) (h : Keeps clean b b')
    (hclean : clean) : AllSane b' := by
  intro o' ho' t a hg
  rcases h o' ho' t a hg with ⟨o, ho, hf⟩ | ⟨hopen, hback, htot⟩
  · obtain ⟨h1, h2⟩ := hs o ho t a (hf.terms.give ▸ hg)
    rw [hf.terms.account, hf.terms.index]
    exact ⟨hf.sane hclean h1, hf.locked.trans h2⟩
  · rw [hopen]
    exact ⟨(sane_open rfl).mpr hback, htot⟩

theorem taker_step {s' : State} {e : Block × Event} (hclean : Clean s e) (h : step s e = some s')
    (ht : ∀ p, s.pass = some p → p.taker.status = .opened) :
    ∀ p, s'.pass = some p → p.taker.status = .opened := by
  intro q hq
  cases stepped_of_step h with
  | beginMatch hbegin =>
    rw [Option.some.injEq] at hq
    exact hq ▸ hclean _ (beginMatch_spec hbegin).1
  | skip _ | fill _ _ _ =>
    have := ht _ rfl
    rw [Option.some.injEq] at hq
    rw [← hq]
    exact this
  | _ => simp at hq

/-- **Nothing is stranded.** In every state reached by sound and clean steps, a closed token order
without pending obligations holds nothing, and all it locked was credited. -/
theorem closed_orders_return_all (sc : Scales) (s : State)
    (h : Reaches step (fun s e => Sound sc s e ∧ Clean s e) init s) : Returned s := by
  have hi : CleanInv sc s := by
    refine h.invariant ⟨inv_init sc, fun o ho => by simp [init] at ho, by simp [init]⟩ ?_
    intro s e s' hok hs hi
    have hkeeps := keeps_step hok.1 (stepped_of_step hs) hi.inv.wf hi.inv.pass
    exact ⟨inv_step s e s' hok.1 hs hi.inv, hi.sane.of_keeps hkeeps ⟨hok.2, hi.taker⟩,
      taker_step hok.2 hs hi.taker⟩
  intro o ho hc t a hg hnone
  obtain ⟨h1, h2⟩ := hi.sane o ho t a hg
  rw [sane_closed hc] at h1
  have hzero : held s.book o.index = 0 := by
    refine Eq.trans (show held s.book o.index = pendingLegs s.book o.index from h1) ?_
    unfold pendingLegs
    rw [hnone]
    rfl
  refine ⟨hzero, ?_⟩
  unfold total at h2
  rw [hzero, zero_add] at h2
  exact h2

/-- **What an order locked is held or credited**, in every state reached by sound steps: also for an
order that strands, whatever its status and its obligations. -/
theorem locked_held_or_credited (sc : Scales) (s : State) (h : Reaches step (Sound sc) init s) :
    ∀ o ∈ s.book.orders, ∀ t a, o.give = .token t a → held s.book o.index + credited s.book o.index = a := by
  suffices hi : Inv sc s ∧ ∀ o ∈ s.book.orders, ∀ t a, o.give = .token t a → total s.book o.index = a from hi.2
  apply h.invariant
  · exact ⟨inv_init sc, fun o ho => by simp [init] at ho⟩
  rintro s e s' hok hs ⟨hi, htotal⟩
  refine ⟨inv_step s e s' hok hs hi, fun o' ho' t a hg => ?_⟩
  rcases keeps_step hok (stepped_of_step hs) hi.wf hi.pass o' ho' t a hg with ⟨o, ho, hf⟩ | ⟨-, -, hnew⟩
  · rw [hf.terms.index, hf.locked]
    exact htotal o ho t a (hf.terms.give ▸ hg)
  · exact hnew

/-! ### A cancelled order, and one that is filled at a better price -/

def tokenSpec (source giveTick : ℕ) (giveAmount : ℚ) (getTick : ℕ) (getAmount : ℚ) : OrderSpec where
  source := source
  getAddress := source
  give := .token giveTick giveAmount
  get := .token getTick getAmount
  expiration := 1000
  allowList := none
  blockList := none

/-- Two makers lock 10 and 20. 4 of the 10 are sold for coin and paid for, 10 of the 20 are exchanged for
5 of a token, and both makers cancel. -/
def cancelRun : List (Block × Event) :=
  [.create { makerSpec with give := .token 7 10, get := .coin 5 },
    .create { takerSpec with give := .coin 2, get := .token 7 4 }, .beginMatch 2, .nextMatch, .nextMatch,
    .create (tokenSpec 1 8 20 7 10), .coinpay 3, .create (tokenSpec 2 7 5 8 10), .beginMatch 6, .nextMatch,
    .nextMatch, .cancel 1 1, .cancel 1 4].map (laterBlock 1, ·)

/-- All that was locked goes to the buyers or back. -/
theorem closed_orders_return_all_cancel : ∃ s, run step init cancelRun = some s ∧ Returned s ∧
    s.book.orders.map (fun o => (o.index, o.status)) =
      [(1, .cancelled), (2, .complete), (4, .cancelled), (6, .complete)] ∧
    s.book.credits.map (fun e => (e.order, e.amount, e.address)) =
      [(1, 4, 2), (6, 5, 1), (4, 10, 2), (1, 6, 1), (4, 10, 1)] := by
  obtain ⟨s, hs, hp⟩ : ∃ s, run (fun s e => if Sound e.1.scales s e ∧ Clean s e then step s e else none) init
      cancelRun = some s ∧
      s.book.orders.map (fun o => (o.index, o.status)) =
        [(1, .cancelled), (2, .complete), (4, .cancelled), (6, .complete)] ∧
      s.book.credits.map (fun e => (e.order, e.amount, e.address)) =
        [(1, 4, 2), (6, 5, 1), (4, 10, 2), (1, 6, 1), (4, 10, 1)] := by decide +kernel
  have hok : ∀ e ∈ cancelRun, ∀ s, Sound e.1.scales s e ∧ Clean s e → Sound eighteen s e ∧ Clean s e :=
    fun e he s h => ⟨sound_of_scales rfl e he s h.1, h.2⟩
  exact ⟨s, run_of_checked hs, closed_orders_return_all eighteen s (Reaches.init.of_run_checked hok hs), hp⟩

def crossBlock (time : ℕ) : Block := { laterBlock time with priceCross := true }

/-- 20 of one token are offered for 10 of another, and taken by an offer of 10 for 10. -/
def strandRun : List (Block × Event) :=
  [(crossBlock 1, .create (tokenSpec 1 8 20 7 10)), (crossBlock 1, .beginMatch 1),
    (crossBlock 1, .nextMatch), (crossBlock 2, .create (tokenSpec 2 7 10 8 10)),
    (crossBlock 2, .beginMatch 2), (crossBlock 2, .nextMatch), (crossBlock 2, .nextMatch)]

/-- The order that is filled at a better price: 10 of its 20 are credited, and 10 are held for good. -/
theorem locked_held_or_credited_stranded : ∃ s, run step init strandRun = some s ∧
    (held s.book 1 = 10 ∧ credited s.book 1 = 10) ∧ held s.book 1 + credited s.book 1 = 20 := by
  obtain ⟨s, hs, hamounts, o, ho, hidx, hgive⟩ :
      ∃ s, run (fun s e => if Sound e.1.scales s e then step s e else none) init strandRun = some s ∧
        (held s.book 1 = 10 ∧ credited s.book 1 = 10) ∧
        ∃ o ∈ s.book.orders, o.index = 1 ∧ o.give = .token 8 20 := by decide +kernel
  have hreach := Reaches.init.of_run_checked (sound_of_scales rfl) hs
  exact ⟨s, run_of_checked hs, hamounts, hidx ▸ locked_held_or_credited eighteen s hreach o ho 8 20 hgive⟩

/-- Some complete token order without pending obligations holds something. -/
def strandedEscrow (s : State) : Bool :=
  s.book.orders.any fun o =>
    closed o.status && (o.give.tick ≠ none && !o.give.isOwnership) &&
      getPendingCoinpayObligationsByOrder s.book o.index = [] && held s.book o.index ≠ 0

theorem not_returned_of_stranded (h : strandedEscrow s) : ¬ Returned s := by
  intro hret
  obtain ⟨o, ho, hstr⟩ := List.any_eq_true.mp h
  simp only [Bool.and_eq_true, decide_eq_true_eq] at hstr
  obtain ⟨⟨⟨hc, htok⟩, hnone⟩, hne⟩ := hstr
  cases hg : o.give with
  | coin a => simp [hg, Side.tick] at htok
  | ownership t => simp [hg, Side.isOwnership] at htok
  | token t a => exact hne (hret o ho hc t a hg hnone).1

/-- The maker gets its 10 for 10 of the 20 it locked, is complete, and the other 10 stay in escrow. -/
theorem price_improvement_strands_escrow :
    ∃ s, run step init strandRun = some s ∧ ¬ Returned s := by
  obtain ⟨s, hs, hstr⟩ : ∃ s, run step init strandRun = some s ∧ strandedEscrow s := by decide +kernel
  exact ⟨s, hs, not_returned_of_stranded hstr⟩

end XChainIndexer.Orders.Closed
