import XChainIndexer.IndexReplay
import XChainIndexer.Ownership.Gate
import XChainIndexer.Ownership.Rollback

/-! # The re-derived gates are those of a replay

After a rollback the gate of a token is the oldest open offer of its ownership. `rederived_gate_eq`
says that this is what the kept blocks left stored, whatever the orphaned blocks did, when the kept
steps meet `Guarded`: then the gate is exact (`Ownership.Gate`), and the log cut at the first orphaned
action has the statuses the offers had there. Without the condition the two differ
(`rederived_gate_of_unpaid`), and with them the ids that later blocks assign
(`unpaid_reorg_changes_ids`). -/

namespace XChainIndexer.Ownership.Rederived

open Lib.Run Lib.StatusLog List Orders Orders.Tables Orders.Match Orders.Step Orders.Escrow Orders.Handlers
open Orders.Steps Orders.Fates Orders.Roles Orders.Invariant
open Ownership.Offers Ownership.Gate Ownership.Rollback

/-! ### Handlers keep the orders below an index -/

section book

variable {n : ℕ} {b b' b'' : Book} {blk : Block}

/-- The orders below `n` give what they gave, and no index is given back. -/
structure KeepsOrders (n : ℕ) (b b' : Book) : Prop where
  rows : KeepsBelow Order.index orderOwned n b.orders b'.orders
  next : b.nextIndex ≤ b'.nextIndex

theorem KeepsOrders.of_eq (h : b'.orders = b.orders) (hn : b'.nextIndex = b.nextIndex) : KeepsOrders n b b' :=
  ⟨h ▸ .refl _, hn.ge⟩

theorem KeepsOrders.trans (h : KeepsOrders n b b') (h' : KeepsOrders n b' b'') : KeepsOrders n b b'' :=
  ⟨h.rows.trans le_rfl h'.rows, h.next.trans h'.next⟩

/-- A handler that leaves the terms of the orders keeps what they give. -/
theorem KeepsOrders.of_same (h : Same b b') : KeepsOrders n b b' := by
  refine ⟨fun i _ k => ?_, h.next⟩
  have hmem (l : List Order) : (∃ o ∈ l, o.index = i ∧ orderOwned o = k) ↔
      ∃ t ∈ l.map terms, t.index = i ∧ owned t.give = k := by
    simp [terms, orderOwned]
  rw [hmem, hmem, h.orders]

theorem KeepsOrders.of_rewrites (h : Rewrites (fun _ => True) b b') : KeepsOrders n b b' :=
  .of_same h.toSame

theorem keeps_createOrder (hn : n ≤ b.nextIndex) (sp : OrderSpec) :
    KeepsOrders n b.bump (createOrder blk b sp) := by
  refine KeepsOrders.trans ?_ (.of_rewrites (same_createOrder b blk sp trivial))
  exact ⟨.append hn, le_rfl⟩

theorem keeps_settleFill (b : Book) (o : Order) (r : Remaining) (m : OrderInfo) (f : Fill) :
    KeepsOrders n b.bump (settleFill blk b o r m f) :=
  have h : KeepsOrders n _ (settleFill blk b o r m f) := .of_same (fill_same blk b o r m f)
  ⟨h.rows, h.next⟩

/-- An order step that takes no index leaves the orders and the gates alone. -/
theorem orders_advance {s s' : Step.State} {e : Block × Step.Event} (h : Step.step s e = some s') :
    (s'.book.orders = s.book.orders ∧ s'.book.gate = s.book.gate ∧ s'.book.nextIndex = s.book.nextIndex) ∨
    KeepsOrders s.book.nextIndex { s.book with nextIndex := s.book.nextIndex + 1 } s'.book := by
  cases stepped_of_step h with
  | create _ => exact .inr (keeps_createOrder le_rfl _)
  | cancel _ _ => exact .inr (.of_rewrites (same_closeOrder _ trivial (terms_cancelling none)))
  | edit _ _ => exact .inr (.of_rewrites (same_updateOrder _ _ fun _ => rfl))
  | beginMatch _ | stop | skip _ => exact .inl ⟨rfl, rfl, rfl⟩
  | coinpay _ _ _ => exact .inr (.of_rewrites (same_coinpay _ _ _ fun _ _ => trivial))
  | @coinpayExpire blk b _ m ob _ _ _ =>
    rcases @same_coinpayExpire (fun _ => True) b blk m ob fun _ _ => trivial with h | h
    · exact .inl ⟨congrArg Book.orders h, congrArg Book.gate h, congrArg Book.nextIndex h⟩
    · exact .inr (.of_rewrites h)
  | orderExpire _ _ =>
    refine Or.inr (.of_rewrites (same_closeOrder _ trivial ?_))
    exact fun _ => rfl
  | sweep _ _ => exact .inr (.of_rewrites (same_sweepOrders _ _ _ _ fun _ _ => trivial))
  | fill _ _ _ => exact .inr (keeps_settleFill _ _ _ _ _)

end book

/-! ### A step of the offers -/

variable {n : ℕ} {s s' s'' : Offers.State} {rules : Rules}

/-- The offers below `n` give what they gave. -/
structure Keeps (n : ℕ) (s s' : Offers.State) : Prop where
  orders : KeepsOrders n s.book s'.book
  swaps : KeepsBelow (fun x : Swap => x.index) swapOwned n s.swaps s'.swaps
  dispensers : KeepsBelow Dispenser.index dispenserOwned n s.dispensers s'.dispensers

/-- Nothing a gate is derived from has changed, nor a gate. -/
structure Idle (s s' : Offers.State) : Prop where
  orders : s'.book.orders = s.book.orders
  swaps : s'.swaps = s.swaps
  dispensers : s'.dispensers = s.dispensers
  gate : s'.book.gate = s.book.gate
  next : s'.book.nextIndex = s.book.nextIndex

theorem Keeps.trans (h : Keeps n s s') (h' : Keeps n s' s'') : Keeps n s s'' :=
  ⟨h.orders.trans h'.orders, h.swaps.trans le_rfl h'.swaps, h.dispensers.trans le_rfl h'.dispensers⟩

theorem Keeps.mono {n' : ℕ} (h : Keeps n' s s') (hn : n ≤ n') : Keeps n s s' where
  orders := ⟨fun i hi => h.orders.rows i (hi.trans_le hn), h.orders.next⟩
  swaps := fun i hi => h.swaps i (hi.trans_le hn)
  dispensers := fun i hi => h.dispensers i (hi.trans_le hn)

section
variable (s : Offers.State)

theorem keeps_withBook {b : Book} (hb : KeepsOrders n s.book b) : Keeps n s (s.withBook b) :=
  ⟨hb, .refl _, .refl _⟩

theorem keeps_next : Keeps n s s.bump := keeps_withBook s (.of_rewrites (same_bump _))

theorem keeps_swapStatus (idx : ℕ) (status : OrderStatus) : Keeps n s (createSwapStatus s idx status) := by
  refine ⟨.of_eq rfl rfl, .map fun x => ?_, .refl _⟩
  split_ifs <;> exact ⟨rfl, rfl⟩

theorem keeps_dispenserStatus (idx : ℕ) (status : DispenserStatus) :
    Keeps n s (createDispenserStatus s idx status) := by
  refine ⟨.of_eq rfl rfl, .refl _, .map fun d => ?_⟩
  split_ifs <;> exact ⟨rfl, rfl⟩

theorem keeps_settleOffer (x : Swap) (leg : CrossLeg) (amount : ℚ) : Keeps n s (settleOffer s x leg amount) := by
  have hfill : ∀ left, Keeps n s (recordFill s x.index left) := fun left =>
    ⟨.of_eq rfl rfl, .map fun y => by split_ifs <;> exact ⟨rfl, rfl⟩, .refl _⟩
  unfold settleOffer
  split
  · exact keeps_swapStatus s _ _
  · dsimp only
    split_ifs
    · exact (hfill _).trans (keeps_swapStatus _ _ _)
    · exact hfill _

theorem keeps_closeSwap (x : Swap) (amount : ℚ) (dest : ℕ) (st : OrderStatus) :
    Keeps n s (closeSwap rules s x amount dest st) :=
  (keeps_withBook s (.of_rewrites (same_giveOut _ _ trivial _ _ _))).trans (keeps_swapStatus _ _ _)

end

theorem keeps_createSwap (hn : n ≤ s.book.nextIndex) (sp : OrderSpec) (getChain : Option ℕ)
    (remaining : Option ℚ) : Keeps n s.bump (createSwap rules s sp getChain remaining) := by
  have hnew : Keeps n s.bump { s.bump with
      swaps := s.swaps ++ [{ sp.row s.book.nextIndex with getChain, remaining }] } :=
    ⟨.of_eq rfl rfl, .append hn, .refl _⟩
  unfold createSwap
  split
  · exact hnew.trans (keeps_withBook _ (.of_eq rfl rfl))
  · exact hnew.trans (keeps_withBook _ (.of_eq rfl rfl))
  · exact hnew

section
variable (s : Offers.State) (d : Dispenser)

theorem keeps_closeDispenser : Keeps n s (closeOwnershipDispenser s d) := by
  unfold closeOwnershipDispenser
  split_ifs
  · exact keeps_withBook s (.of_eq rfl rfl)
  · exact ⟨.of_eq rfl rfl, .refl _, .refl _⟩

theorem keeps_dispenserClose (status : DispenserStatus) : Keeps n s.bump (dispenserClose s d status) :=
  (keeps_closeDispenser s.bump d).trans (keeps_dispenserStatus _ _ _)

theorem keeps_dispense : Keeps n s.bump (dispense s d) := by
  have hpaid : Keeps n s.bump (s.bump.withBook (transferTokenOwnership s.bump.book d.tick)) :=
    keeps_withBook _ (.of_eq rfl rfl)
  exact (hpaid.trans (keeps_next _)).trans (keeps_dispenserClose _ d _)

end

theorem keeps_sweepOffers (destination : ℕ) (swaps dispensers : List ℕ) (s : Offers.State) :
    Keeps n s (sweepOffers rules s destination swaps dispensers) := by
  have hswaps : ∀ s : Offers.State, Keeps n s (swaps.foldl (sweepSwap rules destination) s) := by
    induction swaps with
    | nil => exact fun s => keeps_withBook s (.of_eq rfl rfl)
    | cons idx swaps ih =>
      intro s
      refine Keeps.trans ?_ (ih _)
      unfold sweepSwap
      split
      · exact keeps_withBook s (.of_eq rfl rfl)
      · exact keeps_closeSwap s _ _ _ _
  have hdispensers : ∀ s : Offers.State, Keeps n s (dispensers.foldl sweepDispenser s) := by
    induction dispensers with
    | nil => exact fun s => keeps_withBook s (.of_eq rfl rfl)
    | cons idx dispensers ih => exact fun s => (keeps_dispenserStatus s idx _).trans (ih _)
  exact (hswaps s).trans (hdispensers _)

/-- An event that is handled outside a pass either does nothing or takes an index. -/
theorem handle_advance {ev : Offers.Event} (h : Offers.handle rules s ev = some s') :
    Idle s s' ∨ Keeps s.book.nextIndex s.bump s' := by
  have hsame : Idle s s := ⟨rfl, rfl, rfl, rfl, rfl⟩
  cases ev with
  | order e => simp [Offers.handle] at h
  | createSwap sp getChain =>
    simp only [Offers.handle] at h
    split_ifs at h
    exact .inr (Option.some.inj h ▸ keeps_createSwap le_rfl sp getChain none)
  | createCrossOrder sp getChain =>
    simp only [Offers.handle] at h
    split_ifs at h
    exact .inr (Option.some.inj h ▸ keeps_createSwap le_rfl sp (some getChain) _)
  | cancelSwap source idx =>
    obtain ⟨x, _, _, _, rfl⟩ := handleSwap_some h
    exact .inr (keeps_closeSwap s.bump x _ _ _)
  | editSwap source idx expiration allowList blockList =>
    obtain ⟨x, _, _, _, rfl⟩ := handleSwap_some h
    refine Or.inr ⟨.of_eq rfl rfl, .map fun x => ?_, .refl _⟩
    split_ifs <;> exact ⟨rfl, rfl⟩
  | swapMatch idx =>
    obtain ⟨x, _, _, _, rfl⟩ := handleSwap_some h
    unfold swapMatch
    split_ifs
    · exact .inl hsame
    · split
      · exact .inr ((keeps_closeSwap s.bump x _ _ _).trans (keeps_closeSwap _ _ _ _ _))
      · exact .inl hsame
  | swapExpire idx =>
    obtain ⟨x, _, _, _, rfl⟩ := handleSwap_some h
    exact .inr (keeps_closeSwap s.bump x _ _ _)
  | crossSettle idx leg =>
    obtain ⟨x, _, _, _, rfl⟩ := handleSwap_some h
    refine Or.inr ?_
    unfold crossSettle
    split_ifs
    · exact keeps_withBook s.bump (.of_eq rfl rfl)
    · exact (keeps_withBook s.bump (.of_rewrites (same_giveOut _ _ trivial _ _ _))).trans (keeps_settleOffer ..)
  | createDispenser source getAddress tick expiration =>
    simp only [Offers.handle] at h
    split_ifs at h
    exact .inr (Option.some.inj h ▸ ⟨.of_eq rfl rfl, .refl _, .append le_rfl⟩)
  | cancelDispenser source idx =>
    obtain ⟨d, _, _, _, rfl⟩ := handleDispenser_some h
    exact .inr (keeps_dispenserStatus s.bump _ _)
  | editDispenser source idx expiration =>
    obtain ⟨d, _, _, _, rfl⟩ := handleDispenser_some h
    refine Or.inr ⟨.of_eq rfl rfl, .refl _, .map fun d => ?_⟩
    split_ifs <;> exact ⟨rfl, rfl⟩
  | dispense idx =>
    obtain ⟨d, _, _, _, rfl⟩ := handleDispenser_some h
    exact .inr (keeps_dispense s d)
  | dispenserClose idx =>
    obtain ⟨d, _, _, _, rfl⟩ := handleDispenser_some h
    exact .inr (keeps_dispenserClose s d _)
  | dispenserExpire idx =>
    obtain ⟨d, _, _, _, rfl⟩ := handleDispenser_some h
    exact .inr (keeps_dispenserClose s d _)
  | sweep source destination orders swaps dispensers =>
    simp only [Offers.handle] at h
    split_ifs at h
    obtain ⟨o, ho, rfl⟩ := Option.map_eq_some_iff.mp h
    simp only [Step.handle] at ho
    split_ifs at ho
    have horders : Keeps s.book.nextIndex s.bump { s with orders := o } :=
      ⟨Option.some.inj ho ▸ .of_rewrites (same_sweepOrders _ _ _ _ fun _ _ => trivial), .refl _, .refl _⟩
    exact .inr (horders.trans (keeps_sweepOffers destination swaps dispensers _))

variable {a : Action}

/-- **What an action can do to the offers below it**: nothing, or it takes an index. -/
theorem act_advance (h : act s rules a = some s') : Idle s s' ∨ Keeps s.book.nextIndex s.bump s' := by
  cases a with
  | other =>
    simp only [act] at h
    split_ifs at h
    exact .inr (Option.some.inj h ▸ keeps_withBook s.bump (.of_eq rfl rfl))
  | offer e =>
    simp only [act] at h
    unfold Offers.step at h
    split at h
    · obtain ⟨o, ho, rfl⟩ := Option.map_eq_some_iff.mp h
      rcases orders_advance ho with ⟨horders, hgate, hnext⟩ | hkeeps
      · exact .inl ⟨horders, rfl, rfl, hgate, hnext⟩
      · exact .inr ⟨hkeeps, .refl _, .refl _⟩
    · split at h
      · exact handle_advance h
      · simp at h

theorem Idle.trans (h : Idle s s') (h' : Idle s' s'') : Idle s s'' where
  orders := h'.orders.trans h.orders
  swaps := h'.swaps.trans h.swaps
  dispensers := h'.dispensers.trans h.dispensers
  gate := h'.gate.trans h.gate
  next := h'.next.trans h.next

theorem Idle.keeps (h : Idle s s') : Keeps n s s' where
  orders := .of_eq h.orders h.next
  swaps := h.swaps ▸ .refl _
  dispensers := h.dispensers ▸ .refl _

/-! ### The kept blocks: the log has the statuses -/

structure AllLogged (db : Db) : Prop where
  orders : Logged Order.index Order.status db.state.book.nextIndex db.state.book.orders db.orderStatuses
  swaps : Logged (fun x : Swap => x.index) (fun x => x.status) db.state.book.nextIndex db.state.swaps
    db.swapStatuses
  dispensers : Logged Dispenser.index Dispenser.status db.state.book.nextIndex db.state.dispensers
    db.dispenserStatuses

/-- The condition of `Ownership.Gate` on the actions that concern offers. -/
def ActGuarded (db : Db) (e : Rules × Action) : Prop :=
  match e.2 with
  | .offer ev => Guarded db.state e.1 ev
  | .other => True

instance (db : Db) (e : Rules × Action) : Decidable (ActGuarded db e) := by
  obtain ⟨rules, a⟩ := e
  cases a <;> dsimp only [ActGuarded] <;> infer_instance

structure DbInv (db : Db) : Prop where
  inv : Inv db.state
  logged : AllLogged db

theorem inv_act (hi : Inv s) (h : act s rules a = some s')
    (hg : ∀ ev, a = .offer ev → Guarded s rules ev) : Inv s' := by
  cases a with
  | other =>
    simp only [act] at h
    split_ifs at h with hpass
    have hq : Quiet s := ⟨hi, Option.isNone_iff_eq_none.mp hpass⟩
    exact Option.some.inj h ▸ hq.bump.toInv
  | offer ev => exact inv_step s (rules, ev) s' (hg ev rfl) h hi

theorem DbInv.step (db : Db) (e : Rules × Action) (db' : Db) (hg : ActGuarded db e)
    (h : Rollback.step db e = some db') (hi : DbInv db) : DbInv db' := by
  obtain ⟨rules, a⟩ := e
  obtain ⟨s', hact, rfl⟩ := Option.map_eq_some_iff.mp h
  have hinv : Inv s' := by
    refine inv_act hi.inv hact fun ev hev => ?_
    subst hev
    exact hg
  have hadv := act_advance hact
  have hle : db.state.book.nextIndex ≤ s'.book.nextIndex := by
    rcases hadv with hidle | hkeeps
    · exact hidle.next.ge
    · exact (Nat.le_succ _).trans hkeeps.orders.next
  have hidle : s'.book.nextIndex = db.state.book.nextIndex → Idle db.state s' := fun heq => by
    refine hadv.resolve_right fun hkeeps => ?_
    have : db.state.book.nextIndex + 1 ≤ s'.book.nextIndex := hkeeps.orders.next
    omega
  exact ⟨hinv, hi.logged.orders.log hle hinv.orders.keys.orders_nodup fun heq => (hidle heq).orders,
    hi.logged.swaps.log hle hinv.apart.nodup.of_append_left fun heq => (hidle heq).swaps,
    hi.logged.dispensers.log hle hinv.apart.nodup.of_append_right fun heq => (hidle heq).dispensers⟩

theorem dbInv_init : DbInv Rollback.init := by
  refine ⟨inv_init, ⟨?_, ?_⟩, ⟨?_, ?_⟩, ⟨?_, ?_⟩⟩ <;> intro x hx <;> exact absurd hx not_mem_nil

/-! ### The orphaned blocks: nothing below them moves -/

/-- `db'` holds the tables of `db` below the next index of `db`. -/
structure Above (db db' : Db) : Prop where
  keeps : Keeps db.state.book.nextIndex db.state db'.state
  orders : cut db.state.book.nextIndex db'.orderStatuses = cut db.state.book.nextIndex db.orderStatuses
  swaps : cut db.state.book.nextIndex db'.swapStatuses = cut db.state.book.nextIndex db.swapStatuses
  dispensers : cut db.state.book.nextIndex db'.dispenserStatuses =
    cut db.state.book.nextIndex db.dispenserStatuses
  idle : db'.state.book.nextIndex = db.state.book.nextIndex → Idle db.state db'.state

theorem Above.refl (db : Db) : Above db db :=
  have hidle : Idle db.state db.state := ⟨rfl, rfl, rfl, rfl, rfl⟩
  ⟨hidle.keeps, rfl, rfl, rfl, fun _ => hidle⟩

variable {db db' : Db}

theorem Above.step {db'' : Db} {e : Rules × Action} (h : Above db db')
    (hstep : Rollback.step db' e = some db'') : Above db db'' := by
  obtain ⟨s', hact, rfl⟩ := Option.map_eq_some_iff.mp hstep
  have hle := h.keeps.orders.next
  have hadv := act_advance hact
  have hkeeps : Keeps db.state.book.nextIndex db'.state s' := by
    rcases hadv with hidle | hkeeps
    · exact hidle.keeps
    · exact (keeps_next _).trans (hkeeps.mono hle)
  refine ⟨h.keeps.trans hkeeps, (cut_log hle).trans h.orders, (cut_log hle).trans h.swaps,
    (cut_log hle).trans h.dispensers, fun heq => ?_⟩
  have hnext : s'.book.nextIndex = db.state.book.nextIndex := heq
  have hidle' : Idle db'.state s' := by
    refine hadv.resolve_right fun hk => ?_
    have : db'.state.book.nextIndex + 1 ≤ s'.book.nextIndex := hk.orders.next
    omega
  exact (h.idle (hidle'.next.symm.trans hnext)).trans hidle'

theorem above_run {es : List (Rules × Action)} (h : run Rollback.step db es = some db') : Above db db' := by
  have hreach : Reaches Rollback.step (fun _ _ => True) db db' :=
    Reaches.init.of_run (fun _ _ _ => trivial) h
  exact hreach.invariant (Above.refl db) fun _ _ _ _ hstep habove => habove.step hstep

/-! ### The re-derived gates -/

section table

variable {A σ : Type} {index : A → ℕ} {gives : A → Option ℕ} {status : A → σ} {l l' : List A}
  {rows rows' : List (Row σ)}

/-- The open offers of a purged table are the items that had a held status at the cut. -/
theorem mem_openOffers_purge (hlog : Logged index status n l rows) (hlt : ∀ a ∈ l, index a < n)
    (hkeep : KeepsBelow index gives n l l') (hrows : cut n rows' = cut n rows) (held : σ → Bool)
    (t i : ℕ) : i ∈ ((tableOf index gives l' rows').purge n).openOffers held t ↔
      ∃ a ∈ l, index a = i ∧ gives a = some t ∧ held (status a) := by
  have hoffer : i ∈ ((((tableOf index gives l' rows').purge n).offers.filter fun o => o.tick = t).map
      (·.index)) ↔ i < n ∧ ∃ a ∈ l', index a = i ∧ gives a = some t := by
    simp only [Table.purge, tableOf, mem_map, mem_filter, mem_filterMap,
      decide_eq_true_eq, Option.map_eq_some_iff]
    constructor
    · rintro ⟨o, ⟨⟨⟨a, ha, t', hg, rfl⟩, hi⟩, rfl⟩, rfl⟩
      exact ⟨hi, a, ha, rfl, hg⟩
    · rintro ⟨hi, a, ha, rfl, hg⟩
      exact ⟨⟨index a, t⟩, ⟨⟨⟨a, ha, t, hg, rfl⟩, hi⟩, rfl⟩, rfl⟩
  have hcut : ((tableOf index gives l' rows').purge n).statuses = rows := hrows.trans hlog.cut_self
  unfold Table.openOffers
  rw [mem_filter, hoffer, hcut]
  constructor
  · rintro ⟨⟨hi, hrow⟩, hheld⟩
    obtain ⟨a, ha, rfl, hg⟩ := (hkeep i hi _).mp hrow
    exact ⟨a, ha, rfl, hg, (hlog.isHeld_iff ha held).symm.trans hheld⟩
  · rintro ⟨a, ha, rfl, hg, hheld⟩
    exact ⟨⟨hlt a ha, (hkeep _ (hlt a ha) _).mpr ⟨a, ha, rfl, hg⟩⟩, (hlog.isHeld_iff ha held).trans hheld⟩

end table

theorem heldOrder_iff (st : OrderStatus) : heldOrder st ↔ closed st = false := by
  cases st <;> decide

theorem heldDispenser_iff (st : DispenserStatus) : heldDispenser st ↔ shut st = false := by
  cases st <;> decide

theorem owned_iff (give : Side) (t : ℕ) : owned give = some t ↔ give = .ownership t := by
  cases give <;> simp [owned]

/-- The open offers after the purge are the live offers before the orphaned blocks. -/
theorem mem_openOffers (hi : DbInv db) (h : Above db db') (t i : ℕ) :
    i ∈ (purgeActionScopedTables db.state.book.nextIndex db'.stored).openOffers t ↔
      i ∈ liveOffers db.state t := by
  have horders := mem_openOffers_purge hi.logged.orders hi.inv.orders.keys.orders_lt
    h.keeps.orders.rows h.orders heldOrder t i
  have hswaps := mem_openOffers_purge hi.logged.swaps
    (fun x hx => hi.inv.apart.lt _ (mem_swapIndices hx)) h.keeps.swaps h.swaps heldOrder t i
  have hdispensers := mem_openOffers_purge hi.logged.dispensers
    (fun d hd => hi.inv.apart.lt _ (mem_dispenserIndices hd)) h.keeps.dispensers h.dispensers
    heldDispenser t i
  unfold Stored.openOffers liveOffers
  simp only [mem_append, mem_map, mem_filter, decide_eq_true_eq]
  refine or_congr (or_congr (horders.trans ?_) (hswaps.trans ?_)) (hdispensers.trans ?_)
  · simp only [orderOwned, owned_iff, heldOrder_iff]
    exact exists_congr fun o => by tauto
  · simp only [swapOwned, owned_iff, heldOrder_iff, swapGives]
    exact exists_congr fun x => by tauto
  · simp only [dispenserOwned, Option.some.injEq, heldDispenser_iff, dispenserGives]
    exact exists_congr fun d => by tauto

theorem min?_of_mem_iff {l : List ℕ} {g : Option ℕ} (h : ∀ i, i ∈ l ↔ i ∈ g.toList) : l.min? = g := by
  cases g with
  | none =>
    have hnil : l = [] := eq_nil_iff_forall_not_mem.mpr fun i hi => by simpa using (h i).mp hi
    rw [hnil]
    rfl
  | some j =>
    refine min?_eq_some_iff.mpr ⟨(h j).mpr (by simp), fun i hi => ?_⟩
    have : i = j := by simpa using (h i).mp hi
    exact this.ge

/-- **The re-derived gates are those of a replay.** The kept blocks meet the condition and leave `db`,
which is what a replay of them stores; the orphaned blocks are arbitrary. -/
theorem rederived_gate_eq (db db' : Db) (orphaned : List (Rules × Action))
    (hkept : Reaches Rollback.step ActGuarded Rollback.init db)
    (horphaned : run Rollback.step db orphaned = some db') (t : ℕ) :
    (rollback db.state.book.nextIndex db').gate t = db.state.book.gate t := by
  have hi : DbInv db := hkept.invariant dbInv_init DbInv.step
  have habove := above_run horphaned
  unfold rollback firstActionIndex
  split_ifs with hlt
  · have hmem : ∀ i, i ∈ (purgeActionScopedTables db.state.book.nextIndex db'.stored).openOffers t ↔
        i ∈ (db.state.book.gate t).toList := fun i => by
      rw [mem_openOffers hi habove, hi.inv.gateExact t]
    have hmin := min?_of_mem_iff hmem
    simp only [rederiveTokenEscrow]
    split_ifs with haffected
    · exact hmin
    · -- a token that is not affected has neither a gate nor an open offer
      rw [not_or, not_not, not_not] at haffected
      rw [haffected.1, ← hmin, haffected.2]
      rfl
  · have hnext : db'.state.book.nextIndex = db.state.book.nextIndex :=
      le_antisymm (not_lt.mp hlt) habove.keeps.orders.next
    exact congrFun (habove.idle hnext).gate t

/-- The swap that holds the gate is cancelled and a dispenser takes it, in blocks that are orphaned. -/
def orphanedRun : List (Rules × Action) :=
  [(rulesAt 296, .offer (.cancelSwap 1 13)), (rulesAt 297, .offer (.createDispenser 1 1 7 900))]

def keptRun (es : List (Rules × Offers.Event)) : List (Rules × Action) :=
  es.map fun e => (e.1, .offer e.2)

/-- The dispenser holds the gate before the rollback, the swap after it. -/
theorem rederived_gate_eq_swap : ∃ db db', run Rollback.step Rollback.init (keptRun offersRun) = some db ∧
    run Rollback.step db orphanedRun = some db' ∧ db'.state.book.gate 7 = some 15 ∧
    (rollback db.state.book.nextIndex db').gate 7 = some 13 := by
  obtain ⟨db, hdb, hkept, db', hdb', horphaned⟩ :
      ∃ db, run (fun db e => if ActGuarded db e then Rollback.step db e else none) Rollback.init
        (keptRun offersRun) = some db ∧ db.state.book.gate 7 = some 13 ∧
        ∃ db', run Rollback.step db orphanedRun = some db' ∧ db'.state.book.gate 7 = some 15 := by
    decide +kernel
  refine ⟨db, db', run_of_checked hdb, hdb', horphaned, ?_⟩
  rw [rederived_gate_eq db db' orphanedRun (Reaches.init.of_checked hdb) hdb' 7, hkept]

/-- **An expired obligation is undone halfway.** A replay leaves the gate of the unpaid ownership order
open; a rollback of any later action closes it again. -/
theorem rederived_gate_of_unpaid : ∃ db db',
    run Rollback.step Rollback.init (keptRun unpaidRun) = some db ∧
    run Rollback.step db [(rulesAt 300, .other)] = some db' ∧
    (rollback db.state.book.nextIndex db').gate 7 ≠ db.state.book.gate 7 := by
  obtain ⟨db, hdb, db', hdb', hp⟩ : ∃ db, run Rollback.step Rollback.init (keptRun unpaidRun) = some db ∧
      ∃ db', run Rollback.step db [(rulesAt 300, .other)] = some db' ∧
        (rollback db.state.book.nextIndex db').gate 7 ≠ db.state.book.gate 7 := by
    decide +kernel
  exact ⟨db, db', hdb, hdb', hp⟩

/-! ### The ids of a node whose gate was not restored -/

/-- The tables after each block, and the gates as they are stored. -/
structure World where
  blocks : List Db
  gate : ℕ → Option ℕ

/-- The tables after the last block, under the stored gates. -/
def World.current (w : World) : Db :=
  let last := w.blocks.getLast?.getD Rollback.init
  { last with state := last.state.withBook { last.state.book with gate := w.gate } }

/-- A block is actions on the offers and the address, if there is one, to which a contract emits the
transfer of token 7: an ISSUE that is refused while the ownership is in escrow. A reorg restores the
tables and derives the gates again. -/
def transferring : IndexReplay.Program (List (Rules × Action) × Option IndexTables.Text) World where
  rules := ⟨⟨id, id, id⟩, fun _ => true, 10, 0⟩
  process := fun block _ w =>
    match run Rollback.step w.current block.1 with
    | none => .fail
    | some db =>
      let done := .done ⟨w.blocks ++ [db], db.state.book.gate⟩
      match block.2 with
      | none => done
      | some address => .createSavepoint ['e'] (.create false (.address address) fun _ =>
          if db.state.book.gate 7 = none then .releaseSavepoint ['e'] done
          else .rollbackToSavepoint ['e'] done)
  undo := fun height w =>
    let kept := w.blocks.take (height - 10)
    ⟨kept, (rollback (kept.getLast?.getD Rollback.init).state.book.nextIndex w.current).gate⟩
  start := ⟨[], Rollback.init.state.book.gate⟩

/-- The unpaid offer, and a block whose contract transfers the token to a new address. -/
def unpaidThenTransferred : List (IndexReplay.Event (List (Rules × Action) × Option IndexTables.Text) World) :=
  [.openBlock (keptRun unpaidRun, none), .commit, .openBlock ([], some ['z']), .advance, .advance, .advance,
    .commit]

end XChainIndexer.Ownership.Rederived
