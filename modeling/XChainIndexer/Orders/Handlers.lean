import XChainIndexer.Orders.Fill

/-! # What the handlers do

For each handler: it keeps `Wf`, which orders it rewrites, and what it does to the account of an
order that gives a token. -/

namespace XChainIndexer.Orders.Handlers

open Bcmath Orders.Tables Orders.Match List Orders.Step Orders.Escrow Orders.Invariant Orders.Fill

variable {sc : Scales} {b : Book} {blk : Block}

theorem precision_le_writeScale (blk : Block) (t : ℕ) : blk.scales.precision t ≤ blk.writeScale t := by
  unfold Block.writeScale
  split_ifs
  · exact blk.scales.precision_le t
  · exact le_rfl

/-- What an account is after `x` of it was handed out of escrow. -/
def handedOut (a : Account) (x : ℚ) : Account := ⟨a.held - x, a.remaining, a.pending⟩

/-! ### ORDER create -/

variable {sp : OrderSpec}

theorem accepted_sides (ha : sp.accepted blk b) :
    0 ≤ sp.give.amount ∧ 0 < sp.get.amount ∧ (sp.give.tick = none → sp.get.tick ≠ none) := by
  unfold OrderSpec.accepted at ha
  simp only [Bool.and_eq_true, Bool.not_eq_true', Bool.or_eq_true, decide_eq_true_eq] at ha
  obtain ⟨⟨⟨⟨⟨h1, _⟩, h3⟩, h4⟩, _⟩, _⟩ := ha
  refine ⟨h4, ?_, fun h5 h6 => ?_⟩
  · rcases h3 with h3 | h3
    · cases hg : sp.get with
      | ownership t => exact one_pos
      | coin a => simp [hg, Side.isOwnership] at h3
      | token t a => simp [hg, Side.isOwnership] at h3
    · exact h3
  · simp [h5, h6] at h1

variable {known : ℕ → Prop}

theorem same_createOrder (b : Book) (blk : Block) (sp : OrderSpec) (hk : known b.nextIndex) :
    Rewrites known { b with orders := b.orders ++ [sp.row b.nextIndex], nextIndex := b.nextIndex + 1 }
      (createOrder blk b sp) := by
  unfold createOrder
  split
  · exact same_frame _ _ le_rfl
  · exact same_lock _ blk hk _ _
  · exact .refl _

theorem wf_createOrder (h : Wf sc b) (ha : sp.accepted blk b)
    (hf : ∀ t a, sp.give = .token t a → Fits (sc.precision t) a) : Wf sc (createOrder blk b sp) := by
  obtain ⟨h1, h2, h3⟩ := accepted_sides ha
  exact (h.addOrder rfl ⟨h1, h2⟩ h3 hf).of_rewrites (same_createOrder b blk sp (Nat.lt_succ_self _))

section
variable (blk : Block) (b : Book) (sp : OrderSpec)

theorem createOrder_orders : (createOrder blk b sp).orders = b.orders ++ [sp.row b.nextIndex] := by
  unfold createOrder
  split <;> rfl

variable {o : Order}

theorem account_createOrder_ne
    (h : o.index ≠ b.nextIndex) : account (createOrder blk b sp) o = account b o := by
  unfold createOrder
  split
  · rfl
  · exact account_append_ne b _ h
  · rfl

end

variable {t : ℕ} {a : ℚ}

theorem account_createOrder_self (h : Wf sc b) (hsc : blk.scales = sc)
    (hg : sp.give = .token t a) (hf : Fits (sc.precision t) a) :
    account (createOrder blk b sp) (sp.row b.nextIndex) = ⟨a, a, 0⟩ := by
  subst hsc
  have hlock : bcadd a 0 (blk.writeScale t) = a :=
    bcadd_zero hf (blk.scales.precision_le t) (precision_le_writeScale blk t)
  have hparties : ∀ m ∈ b.matched,
      m.giveActionIndex < b.nextIndex ∧ m.getActionIndex < b.nextIndex := h.parties_lt
  unfold createOrder
  rw [hg]
  refine Account.ext ?_ ?_ ?_
  · refine (held_append _ _ _).trans ?_
    rw [filter_cons_of_pos (by simp)]
    have h0 : held b b.nextIndex = 0 := held_of_fresh h.escrows_lt
    simp only [filter_nil, map_cons, map_nil, sum_singleton, hlock]
    exact (congrArg (· + a) h0).trans (zero_add a)
  · have hr := remaining_of_fresh (o := sp.row b.nextIndex) hparties
    rw [show a = sp.give.amount by rw [hg]; rfl]
    exact congrArg Remaining.give hr
  · exact pendingLegs_of_fresh hparties

/-! ### Closing an order -/

/-- How `closeOrder` rewrites its order. -/
def closing (b : Book) (idx : ℕ) (park : Order → Order) (closed : OrderStatus) : Order → Order :=
  if getPendingCoinpayObligationsByOrder b idx ≠ [] then park else fun o => { o with status := closed }

section close

variable {info : OrderInfo} {park : Order → Order} {closed : OrderStatus} (dest : ℕ)

theorem closeOrder_orders : (closeOrder blk b info dest park closed).orders =
      (updateOrder b info.order.index (closing b info.order.index park closed)).orders := by
  unfold closeOrder closing
  split_ifs
  · rfl
  · unfold createOrderStatus updateOrder
    rw [giveOut_orders]

theorem find_closeOrder (hp : ∀ o, SameTerms o (park o)) (i : ℕ) :
    (closeOrder blk b info dest park closed).find i = (b.find i).map fun o =>
      if o.index = info.order.index then closing b info.order.index park closed o else o := by
  have hidx : ∀ o, (closing b info.order.index park closed o).index = o.index := fun o => by
    unfold closing
    split_ifs
    · exact (hp o).index
    · rfl
  rw [find_congr (closeOrder_orders dest), find_updateOrder _ _ _ hidx]

theorem same_closeOrder (hk : known info.order.index) (hp : ∀ o, terms (park o) = terms o) :
    Rewrites known b (closeOrder blk b info dest park closed) := by
  unfold Step.closeOrder
  split_ifs
  · exact same_updateOrder b _ hp
  · exact (same_giveOut b blk hk _ _ _).trans (same_status _ _ _)

theorem account_closeOrder_ne (h : o.index ≠ info.order.index) :
    account (closeOrder blk b info dest park closed) o = account b o := by
  unfold closeOrder
  split_ifs
  · rfl
  · exact account_giveOut_ne blk b _ _ _ dest h

end close

/-! ### Resolving an obligation -/

/-- The order that owes the token leg of a match and the one that pays coin for it. -/
structure Roles (b : Book) (m : OrderMatch) (seller buyer : Order) : Prop where
  seller_find : b.find seller.index = some seller
  buyer_find : b.find buyer.index = some buyer
  seller_tick : seller.give.tick ≠ none
  buyer_tick : buyer.give.tick = none
  involves_iff : ∀ i, m.involves i = true ↔ i = seller.index ∨ i = buyer.index

variable {m : OrderMatch}

theorem Roles.bump {seller buyer : Order} (h : Roles b m seller buyer) : Roles b.bump m seller buyer :=
  ⟨h.seller_find, h.buyer_find, h.seller_tick, h.buyer_tick, h.involves_iff⟩

theorem Roles.ne_buyer {seller buyer x : Order} {i : ℕ} (h : Roles b m seller buyer)
    (hx : b.find i = some x) (ht : x.give.tick ≠ none) : i ≠ buyer.index := by
  rintro rfl
  rw [h.buyer_find, Option.some.injEq] at hx
  exact ht (hx ▸ h.buyer_tick)

theorem involves_iff {i : ℕ} : m.involves i ↔ i = m.giveActionIndex ∨ i = m.getActionIndex := by
  simp [OrderMatch.involves, @eq_comm ℕ i]

theorem resolveOrderRoles_spec (h : OnePaysCoin b m) (blk : Block) :
    ∃ seller buyer, Roles b m seller buyer ∧ resolveOrderRoles blk b m =
      some (⟨seller, getOrderAmountsRemaining b seller⟩, ⟨buyer, getOrderAmountsRemaining b buyer⟩) := by
  obtain ⟨maker, taker, h1, h2, h3⟩ := h
  have hi1 := (find_some h1).2
  have hi2 := (find_some h2).2
  have hinv : ∀ i, m.involves i ↔ i = maker.index ∨ i = taker.index := fun i => by
    rw [involves_iff, hi1, hi2]
  unfold resolveOrderRoles getOrderInfo
  rw [h1, h2]
  by_cases hc : maker.give.tick = none
  · have ht := h3.mp hc
    refine ⟨taker, maker, ⟨hi2 ▸ h2, hi1 ▸ h1, ht, hc, fun i => (hinv i).trans Or.comm⟩, ?_⟩
    simp [hc, ht]
  · have ht : taker.give.tick = none := by
      by_contra hne
      exact hc (h3.mpr hne)
    refine ⟨maker, taker, ⟨hi1 ▸ h1, hi2 ▸ h2, hc, ht, hinv⟩, ?_⟩
    simp [hc, ht]

/-- The leg is handed out and the obligation is no longer pending. -/
def resolved (blk : Block) (b : Book) (m : OrderMatch) (seller : Order) (amount : ℚ) (dest : ℕ)
    (status : CoinpayStatus) : Book :=
  createCoinpayStatus (giveOut blk b seller amount (fun _ => 64) dest) m.index status

section resolve

variable {m : OrderMatch} {seller buyer : Order} {status : CoinpayStatus} {amount : ℚ} (dest : ℕ)

theorem same_resolved (b : Book) (blk : Block) (m : OrderMatch) (amount : ℚ) (hk : known seller.index)
    (hs : status ≠ .pending) : Rewrites known b (resolved blk b m seller amount dest status) :=
  (same_giveOut b blk hk _ _ _).trans (same_coinpayStatus _ _ hs)

section
variable (h : Wf sc b) (hm : m ∈ b.matched) (hp : b.pending m)
include h hm hp

theorem account_resolved (hs : status ≠ .pending) {a : Account}
    (hout : account (giveOut blk b seller amount (fun _ => 64) dest) o = a) :
    account (resolved blk b m seller amount dest status) o =
      ⟨a.held, a.remaining, a.pending - if m.involves o.index then m.gives o.index else 0⟩ := by
  subst hout
  refine Account.ext rfl rfl (pendingLegs_createCoinpayStatus
    (by rw [giveOut_matched]; exact h.matched_nodup) (by rw [giveOut_matched]; exact hm) ?_ hs o.index)
  unfold Book.pending
  rw [giveOut_obligations]
  exact hp

section
variable (hr : Roles b m seller buyer) (hs : status ≠ .pending)
include hr hs

theorem account_resolved_ne (ho : o ∈ b.orders) (hg : o.give.tick ≠ none) (hne : o.index ≠ seller.index) :
    account (resolved blk b m seller amount dest status) o = account b o := by
  have hno : ¬ m.involves o.index := by
    rw [hr.involves_iff, not_or]
    exact ⟨hne, hr.ne_buyer (h.find ho) hg⟩
  rw [account_resolved dest h hm hp hs (account_giveOut_ne blk b seller amount _ dest hne), if_neg hno,
    sub_zero]

theorem account_resolved_self (hsc : blk.scales = sc)
    (hg : seller.give = .token t a) (ha : amount = m.gives seller.index) :
    account (resolved blk b m seller amount dest status) seller =
      ⟨(account b seller).held - amount, (account b seller).remaining,
        (account b seller).pending - amount⟩ := by
  subst hsc
  have hi : m.involves seller.index := (hr.involves_iff _).mpr (Or.inl rfl)
  have hfits := (h.gives seller (find_some hr.seller_find).1 t a hg).leg_fits m hm hi
  have hprec := blk.scales.precision_le t
  have hout := account_giveOut_self (d := fun _ => 64) b dest hg (ha ▸ hfits) hprec
    (by show _ ≤ 64; omega) (precision_le_writeScale blk t) rfl
  rw [account_resolved dest h hm hp hs hout, if_pos hi, ← ha]

end

end

end resolve

/-! ### Completing and finalizing -/

section
variable (b : Book) (idx : ℕ) (r : Remaining)

theorem find_completeIf (i : ℕ) :
    (completeIf b idx r).find i = (b.find i).map fun o =>
      if o.index = idx ∧ r.finished then { o with status := .complete } else o := by
  unfold completeIf
  split_ifs with h
  · rw [find_createOrderStatus]
    simp only [h, and_true]
  · simp [h]

theorem account_completeIf (o : Order) : account (completeIf b idx r) o = account b o := by
  unfold completeIf
  split_ifs <;> rfl

theorem same_completeIf : Rewrites known b (completeIf b idx r) := by
  unfold Match.completeIf
  split_ifs
  · exact same_status b _ _
  · exact .refl b

end

theorem find_finalizeSeller (blk : Block) (b : Book) (seller : OrderInfo) (i : ℕ) :
    (finalizeSeller blk b seller).find i = (b.find i).map fun o =>
      if o.index = seller.order.index then
        { o with status := (finalStatus b seller.order).getD o.status }
      else o := by
  unfold finalizeSeller
  split
  · rename_i h
    rw [h]
    simp
  · rename_i final h
    have hfind : ∀ b' : Book, b'.orders = (createOrderStatus b seller.order.index final).orders →
        b'.find i = (b.find i).map fun o =>
          if o.index = seller.order.index then { o with status := final } else o := fun b' hb' =>
      (find_congr hb' i).trans (find_createOrderStatus b _ final i)
    rw [h]
    split
    · split_ifs <;> exact hfind _ rfl
    · exact hfind _ rfl

theorem same_finalizeSeller (b : Book) (blk : Block) {seller : OrderInfo}
    (hk : known seller.order.index) : Rewrites known b (finalizeSeller blk b seller) := by
  unfold Step.finalizeSeller
  split
  · exact .refl b
  · rename_i final _
    refine (same_status b seller.order.index final).trans ?_
    split
    · split_ifs
      · exact same_release _ blk hk _ _ _ _
      · exact .refl _
    · exact .refl _

section
variable (blk : Block) (b : Book) (seller : OrderInfo)

theorem account_finalizeSeller_ne
    (h : o.index ≠ seller.order.index) : account (finalizeSeller blk b seller) o = account b o := by
  unfold finalizeSeller
  split
  · rfl
  · split
    · split_ifs
      · exact account_release_ne blk _ _ _ _ _ _ h
      · rfl
    · rfl

theorem account_finalizeSeller_none (o : Order)
    (h : finalStatus b seller.order = none) : account (finalizeSeller blk b seller) o = account b o := by
  unfold finalizeSeller
  rw [h]

end

/-! ### A fill -/

/-- A candidate that is about to be filled, both orders being as the book has them. -/
structure Meets (blk : Block) (b : Book) (o : Order) (r : Remaining) (m : OrderInfo) : Prop where
  taker_mem : o ∈ b.orders
  maker_mem : m.order ∈ b.orders
  ne : m.order.index ≠ o.index
  taker_remaining : r = getOrderAmountsRemaining b o
  maker_remaining : m.remaining = getOrderAmountsRemaining b m.order
  candidate : isCandidate o m.order = true
  mirrors : ownershipMirrors o m.order = true
  admitted : admits blk o r m = true

/-- One whose fill is also sized without a rounding fault. -/
structure Fillable (blk : Block) (b : Book) (o : Order) (r : Remaining) (m : OrderInfo) : Prop
    extends Meets blk b o r m where
  sound : FillSound blk.scales o r m

section fill

variable {o : Order} {r : Remaining} {m : OrderInfo}

theorem decimals_fits {x : ℚ} (h : Fits (blk.scales.decimalsOf (some t)) x) :
    Fits (blk.scales.precision t) x :=
  h.mono (blk.scales.decimals_le t)

theorem Fillable.maker_tick (hf : Fillable blk b o r m) (h : Wf sc b)
    (hg : m.order.give.tick ≠ none) : o.get.tick = m.order.give.tick := by
  have hc := hf.candidate
  unfold isCandidate at hc
  simp only [Bool.and_eq_true, Bool.or_eq_true, decide_eq_true_eq] at hc
  rcases hc.1.1.2 with (h1 | h1) | h1
  · exact h1
  · have hn : anyNullTick o m.order := by simp [anyNullTick, h1]
    rcases hf.sound.payer hn with h2 | h2
    · exact absurd h1 (h.one_tick o hf.taker_mem h2)
    · exact absurd h2 hg
  · exact absurd h1 hg

theorem Meets.onePaysCoin (hf : Meets blk b o r m) (h : Keys b)
    (hpayer : o.give.tick = none ∨ m.order.give.tick = none) (f : Fill) (idx : ℕ) :
    OnePaysCoin b (matchRow idx o m.order f) := by
  refine ⟨m.order, o, h.find hf.maker_mem, h.find hf.taker_mem, fun h1 h2 => ?_, fun h1 => ?_⟩
  · have hc := hf.candidate
    unfold isCandidate at hc
    simp only [Bool.and_eq_true, decide_eq_true_eq] at hc
    exact h.one_tick m.order hf.maker_mem h1 (hc.1.1.1 ▸ h2)
  · rcases hpayer with h2 | h2
    · exact absurd h2 h1
    · exact h2

variable {f : Fill}

theorem involves_matchRow {i idx : ℕ} {m : Order} :
    (matchRow idx o m f).involves i ↔ i = m.index ∨ i = o.index :=
  involves_iff

theorem gives_taker (idx : ℕ) (o m : Order) (f : Fill) : (matchRow idx o m f).gives o.index = f.giveAmount :=
  if_pos rfl

theorem gives_maker (idx : ℕ) {m : Order} (h : m.index ≠ o.index) :
    (matchRow idx o m f).gives m.index = f.getAmount :=
  if_neg h.symm

section
variable (hf : Fillable blk b o r m) (h : Wf sc b)
include hf h

theorem Fillable.fill_ok :
    AmountOk (blk.scales.decimalsOf o.give.tick) (maxGive r m) (computeFillAmounts blk o r m).giveAmount ∧
      AmountOk (blk.scales.decimalsOf o.get.tick) (maxGet r m) (computeFillAmounts blk o r m).getAmount :=
  fill_le hf.sound (h.amounts o hf.taker_mem).1 (h.amounts o hf.taker_mem).2 hf.admitted

theorem Fillable.legsOk (hsc : blk.scales = sc) (idx : ℕ) :
    LegsOk sc b (matchRow idx o m.order (computeFillAmounts blk o r m)) := by
  subst hsc
  obtain ⟨h1, h2⟩ := hf.fill_ok h
  intro x hx t a hg hi
  have htick : x.give.tick = some t := by rw [hg]; rfl
  rcases involves_matchRow.mp hi with hxm | hxo
  · have hxe := h.eq_of_index hx hf.maker_mem hxm
    subst hxe
    have ht : o.get.tick = some t := (hf.maker_tick h (by rw [htick]; simp)).trans htick
    rw [gives_maker idx hf.ne, ← hf.maker_remaining]
    exact ⟨h2.pos.le, h2.le.trans (maxGet_le r m).2, decimals_fits (ht ▸ h2.fits)⟩
  · have hxe := h.eq_of_index hx hf.taker_mem hxo
    subst hxe
    rw [gives_taker, ← hf.taker_remaining]
    exact ⟨h1.pos.le, h1.le.trans (maxGive_le r m).1, decimals_fits (htick ▸ h1.fits)⟩

end

def recorded (b : Book) (o m : Order) (f : Fill) : Book :=
  { b with nextIndex := b.nextIndex + 1, matched := b.matched ++ [matchRow b.nextIndex o m f] }

/-- The book of a native fill. -/
def owed (blk : Block) (b : Book) (o m : Order) (f : Fill) : Book :=
  { recorded b o m f with
    obligations := b.obligations ++ [coinpayObligation blk b.nextIndex o m f] }

/-- The book of an instant fill before its statuses are written. -/
def settled (blk : Block) (b : Book) (o m : Order) (f : Fill) : Book :=
  settleOrderGiveSide blk (settleOrderGiveSide blk (recorded b o m f) o f.giveAmount m.getAddress) m
    f.getAmount o.getAddress

theorem settleFill_native (hn : anyNullTick o m.order) :
    settleFill blk b o r m f = owed blk b o m.order f := by
  unfold settleFill
  simp only [hn, if_true]
  rfl

theorem settleFill_instant (hn : ¬ anyNullTick o m.order) : settleFill blk b o r m f =
      completeIf (completeIf (settled blk b o m.order f) o.index (r.after f.giveAmount f.getAmount))
        m.order.index (m.remaining.after f.getAmount f.giveAmount) := by
  unfold settleFill settled recorded settleOrderGiveSide
  simp only [hn]
  rw [giveOut_setMatched, giveOut_setMatched, giveOut_matched, giveOut_matched]
  rfl

theorem keys_recorded (h : Keys b) (hf : Meets blk b o r m) (f : Fill) (obs : List Obligation)
    (hobs : ∀ ob ∈ obs, ob.index = b.nextIndex)
    (hn : obs ≠ [] → o.give.tick = none ∨ m.order.give.tick = none) :
    Keys { recorded b o m.order f with obligations := b.obligations ++ obs } :=
  h.bump.addMatch (matchRow b.nextIndex o m.order f) (Nat.lt_succ_self _) h.matched_lt
    ⟨Nat.lt_succ_of_lt (h.orders_lt _ hf.maker_mem), Nat.lt_succ_of_lt (h.orders_lt _ hf.taker_mem)⟩
    hobs h.obligations_lt fun hne => (hf.onePaysCoin h (hn hne) _ b.nextIndex).congr rfl

theorem same_settleFill (b : Book) (r : Remaining) (f : Fill) (ho : known o.index)
    (hm : known m.order.index) (hn : ¬ anyNullTick o m.order) :
    Rewrites known (recorded b o m.order f) (settleFill blk b o r m f) := by
  rw [settleFill_instant hn]
  refine Rewrites.trans ?_ ((same_completeIf _ _ _).trans (same_completeIf _ _ _))
  exact (same_giveOut (o := { o with source := m.order.getAddress }) _ blk ho _ _ _).trans
    (same_giveOut (o := { m.order with source := o.getAddress }) _ blk hm _ _ _)

theorem keys_settleFill (h : Keys b) (hf : Meets blk b o r m) (f : Fill)
    (hn : anyNullTick o m.order → o.give.tick = none ∨ m.order.give.tick = none) :
    Keys (settleFill blk b o r m f) := by
  by_cases hnull : anyNullTick o m.order
  · rw [settleFill_native hnull]
    refine keys_recorded h hf f _ (fun ob hob => ?_) fun _ => hn hnull
    rw [mem_singleton.mp hob]
    rfl
  · have hrec := keys_recorded h hf f [] (by simp) (by simp)
    rw [append_nil] at hrec
    exact hrec.of_rewrites (same_settleFill b r f (Nat.lt_succ_of_lt (h.orders_lt _ hf.taker_mem))
      (Nat.lt_succ_of_lt (h.orders_lt _ hf.maker_mem)) hnull)

theorem wf_settleFill (h : Wf sc b) (hsc : blk.scales = sc) (hf : Fillable blk b o r m) :
    Wf sc (settleFill blk b o r m (computeFillAmounts blk o r m)) := by
  have hgives : ∀ x ∈ b.orders, ∀ t a, x.give = .token t a → GivesExactly sc { b.bump with
        matched := b.matched ++ [matchRow b.nextIndex o m.order (computeFillAmounts blk o r m)] } x t :=
    fun x hx t a hg => GivesExactly.addMatch h.bump (hf.legsOk h hsc b.nextIndex) hx hg
  have hkeys := keys_settleFill h.toKeys hf.toMeets (computeFillAmounts blk o r m) hf.sound.payer
  by_cases hn : anyNullTick o m.order
  · rw [settleFill_native hn] at hkeys ⊢
    exact ⟨hkeys, h.amounts, fun x hx t a hg => (hgives x hx t a hg).congr rfl⟩
  · have hrec := keys_recorded h.toKeys hf.toMeets (computeFillAmounts blk o r m) [] (by simp) (by simp)
    rw [append_nil] at hrec
    have hwf : Wf sc (recorded b o m.order (computeFillAmounts blk o r m)) := ⟨hrec, h.amounts, hgives⟩
    exact hwf.of_rewrites (same_settleFill b r _ (Nat.lt_succ_of_lt (h.orders_lt _ hf.taker_mem))
      (Nat.lt_succ_of_lt (h.orders_lt _ hf.maker_mem)) hn)

/-- What a fill leaves of the account of an order that gives a token. -/
def afterFill (native : Bool) (a : Account) (x : ℚ) : Account :=
  if native then ⟨a.held, a.remaining - x, a.pending + x⟩
  else ⟨a.held - x, a.remaining - x, a.pending⟩

section account

variable {x : Order} {t : ℕ} {a : ℚ}

theorem not_pending_of_fresh (h : Keys b) {row : OrderMatch} (hr : row.index = b.nextIndex) :
    b.pending row = false := by
  refine any_eq_false.mpr fun ob hob => ?_
  have := h.obligations_lt ob hob
  simp only [Bool.and_eq_true, decide_eq_true_eq]
  omega

theorem pendingLegs_recorded (h : Wf sc b) (o m : Order) (f : Fill) (i : ℕ) :
    pendingLegs (recorded b o m f) i = pendingLegs b i := by
  have hp : Book.pending b.bump (matchRow b.nextIndex o m f) = false :=
    not_pending_of_fresh h.toKeys rfl
  refine (pendingLegs_append b.bump (matchRow b.nextIndex o m f) i).trans ?_
  rw [hp, if_neg (by simp), add_zero]
  rfl

theorem pendingLegs_owed (blk : Block) (h : Wf sc b) (o m : Order) (f : Fill) (i : ℕ) :
    pendingLegs (owed blk b o m f) i = pendingLegs b i +
      if (matchRow b.nextIndex o m f).involves i then (matchRow b.nextIndex o m f).gives i else 0 := by
  have hp : Book.pending { b with
      nextIndex := b.nextIndex + 1
      obligations := b.obligations ++ [coinpayObligation blk b.nextIndex o m f] }
      (matchRow b.nextIndex o m f) := by
    simp [Book.pending, coinpayObligation, matchRow]
  refine (pendingLegs_append { b with
      nextIndex := b.nextIndex + 1
      obligations := b.obligations ++ [coinpayObligation blk b.nextIndex o m f] }
    (matchRow b.nextIndex o m f) i).trans ?_
  rw [hp, Bool.and_true]
  congr 1
  refine pendingLegs_congr rfl fun m' hm' _ => ?_
  have := h.matched_lt m' hm'
  have hne : b.nextIndex ≠ m'.index := by omega
  simp [Book.pending, coinpayObligation, hne]

theorem account_settleFill_ne (h : Wf sc b) (hxm : x.index ≠ m.order.index)
    (hxo : x.index ≠ o.index) (f : Fill) : account (settleFill blk b o r m f) x = account b x := by
  have hno : ¬ (matchRow b.nextIndex o m.order f).involves x.index := by
    rw [involves_matchRow]
    tauto
  have hrem : getOrderAmountsRemaining (recorded b o m.order f) x = getOrderAmountsRemaining b x :=
    (remaining_append b.bump _ x).trans (if_neg hno)
  by_cases hn : anyNullTick o m.order
  · rw [settleFill_native hn]
    refine Account.ext rfl (congrArg Remaining.give hrem) ?_
    have := pendingLegs_owed blk h o m.order f x.index
    rwa [if_neg hno, add_zero] at this
  · rw [settleFill_instant hn, account_completeIf, account_completeIf]
    refine ((account_giveOut_ne blk _ { m.order with source := o.getAddress } _ _ _ hxm).trans
      (account_giveOut_ne blk _ { o with source := m.order.getAddress } _ _ _ hxo)).trans ?_
    exact Account.ext rfl (congrArg Remaining.give hrem) (pendingLegs_recorded h o m.order f x.index)

/-- A fill takes its leg from what the order has left, and from the escrow unless it is owed. -/
theorem account_settleFill (h : Wf sc b) (hsc : blk.scales = sc) (hf : Fillable blk b o r m)
    (hx : x ∈ b.orders) (hg : x.give = .token t a) (hi : x.index = m.order.index ∨ x.index = o.index) :
    account (settleFill blk b o r m (computeFillAmounts blk o r m)) x =
      afterFill (anyNullTick o m.order) (account b x)
        ((matchRow b.nextIndex o m.order (computeFillAmounts blk o r m)).gives x.index) := by
  have hinv : (matchRow b.nextIndex o m.order (computeFillAmounts blk o r m)).involves x.index :=
    involves_matchRow.mpr hi
  have hlegs := hf.legsOk h hsc b.nextIndex
  have hrem := remaining_addMatch h.bump hlegs hx hg hinv
  by_cases hn : anyNullTick o m.order
  · rw [settleFill_native hn, hn]
    refine Account.ext rfl hrem ?_
    have := pendingLegs_owed blk h o m.order (computeFillAmounts blk o r m) x.index
    rwa [if_pos hinv] at this
  · rw [settleFill_instant hn, account_completeIf, account_completeIf]
    have hrec : account (recorded b o m.order (computeFillAmounts blk o r m)) x =
        ⟨(account b x).held, (account b x).remaining -
          (matchRow b.nextIndex o m.order (computeFillAmounts blk o r m)).gives x.index,
          (account b x).pending⟩ :=
      Account.ext rfl hrem (pendingLegs_recorded h o m.order _ x.index)
    obtain ⟨h1, h2⟩ := hf.fill_ok h
    have htick : x.give.tick = some t := by rw [hg]; rfl
    have hprec := (blk.scales.decimals_le t).trans (blk.scales.precision_le t)
    have hscale := (blk.scales.decimals_le t).trans (precision_le_writeScale blk t)
    rw [Bool.not_eq_true] at hn
    rw [hn]
    unfold settled settleOrderGiveSide
    rcases hi with hxm | hxo
    · have hxe := h.eq_of_index hx hf.maker_mem hxm
      subst hxe
      have ht : o.get.tick = some t := (hf.maker_tick h (by rw [htick]; simp)).trans htick
      have hfit : Fits (blk.scales.decimals t) (computeFillAmounts blk o r m).getAmount := by
        have := h2.fits
        rwa [ht] at this
      refine (account_giveOut_self (o := { m.order with source := o.getAddress }) _ _ hg hfit hprec le_rfl hscale
        (by rfl)).trans ?_
      rw [account_giveOut_ne blk _ { o with source := m.order.getAddress } _ _ _ hf.ne, hrec,
        gives_maker _ hf.ne]
      rfl
    · have hxe := h.eq_of_index hx hf.taker_mem hxo
      subst hxe
      have hfit : Fits (blk.scales.decimals t) (computeFillAmounts blk x r m).giveAmount := by
        have := h1.fits
        rwa [htick] at this
      rw [account_giveOut_ne blk _ { m.order with source := x.getAddress } _ _ _ hf.ne.symm]
      refine (account_giveOut_self (o := { x with source := m.order.getAddress }) _ _ hg hfit hprec le_rfl
        hscale (by rfl)).trans ?_
      rw [hrec, gives_taker]
      rfl

end account

end fill

/-! ### Obligations and their matches -/

variable {idx : ℕ}

theorem mem_of_findMatch (h : b.findMatch idx = some m) : m ∈ b.matched ∧ m.index = idx := by
  refine ⟨mem_of_find?_eq_some h, ?_⟩
  have := find?_some h
  simpa using this

theorem pending_of_findObligation {ob : Obligation} (hm : m.index = idx)
    (h : b.findObligation idx = some ob) (hp : ob.status = .pending) : b.pending m := by
  have h1 := mem_of_find?_eq_some h
  have h2 := find?_some h
  refine any_eq_true.mpr ⟨ob, h1, ?_⟩
  simp [h2, hm, hp]

theorem coinpayExpire_spec (blk : Block) (hw : Keys b) (hm : m ∈ b.matched)
    (hp : b.pending m) (ob : Obligation) : ∃ seller buyer : Order, Roles b m seller buyer ∧
      coinpayExpire blk b m ob = finalizeSeller blk (resolved blk b.bump m seller
          (deriveReleaseAmount blk m ob seller) (refundTo seller) .expired)
        ⟨seller, getOrderAmountsRemaining b seller⟩ := by
  obtain ⟨seller, buyer, hr, heq⟩ := resolveOrderRoles_spec (hw.roles m hm hp) blk
  refine ⟨seller, buyer, hr, ?_⟩
  unfold coinpayExpire
  rw [heq]
  rfl

theorem seller_of_roles {seller buyer : OrderInfo} (h : resolveOrderRoles blk b m = some (seller, buyer)) :
    seller.order ∈ b.orders := by
  unfold resolveOrderRoles getOrderInfo at h
  cases h1 : b.find m.giveActionIndex with
  | none => simp [h1] at h
  | some maker =>
    cases h2 : b.find m.getActionIndex with
    | none => simp [h1, h2] at h
    | some taker =>
      have hor : seller.order = maker ∨ seller.order = taker := by
        grind
      rcases hor with he | he
      · exact he ▸ (find_some h1).1
      · exact he ▸ (find_some h2).1

section
variable (b : Book) (blk : Block) (m : OrderMatch)

theorem same_coinpay (hk : ∀ o ∈ b.orders, known o.index) : Rewrites known b.bump (coinpay blk b m) := by
  unfold coinpay
  dsimp only
  split
  · exact .refl _
  · rename_i seller buyer hroles
    have hseller := hk _ (seller_of_roles hroles)
    refine Rewrites.trans ?_ (same_finalizeSeller _ blk hseller)
    refine Rewrites.trans ?_ ((same_completeIf _ _ _).trans (same_completeIf _ _ _))
    exact (same_resolved buyer.order.getAddress _ blk m _ hseller (by decide)).trans
      (same_matchStatus _ _ _)

/-- An expiry without roles takes no index. -/
theorem same_coinpayExpire (ob : Obligation)
    (hk : ∀ o ∈ b.orders, known o.index) : coinpayExpire blk b m ob = b ∨
      Rewrites known b.bump (coinpayExpire blk b m ob) := by
  unfold coinpayExpire
  split
  · exact .inl rfl
  · rename_i seller _ hroles
    have hseller := hk _ (seller_of_roles hroles)
    exact .inr ((same_resolved (refundTo seller.order) _ blk m _ hseller (by decide)).trans
      (same_finalizeSeller _ blk hseller))

end

section
variable (hk : Keys b) (blk : Block) (m : OrderMatch)
include hk

/-- The invariants of a book, however its obligation is resolved. -/
theorem rewrites_coinpay : Rewrites (fun i => i < b.nextIndex) b (coinpay blk b m) :=
  (same_bump b).trans (same_coinpay b blk m hk.orders_lt)

theorem rewrites_coinpayExpire (ob : Obligation) :
    Rewrites (fun i => i < b.nextIndex) b (coinpayExpire blk b m ob) := by
  rcases @same_coinpayExpire (fun i => i < b.nextIndex) b blk m ob hk.orders_lt with h | h
  · rw [h]
    exact .refl b
  · exact (same_bump b).trans h

end

/-! ### Editing and sweeping -/

theorem sameTerms_edit (expiration allowList blockList : Option ℕ) (o : Order) : SameTerms o { o with
      expiration := expiration.getD o.expiration
      allowList := allowList.or o.allowList
      blockList := blockList.or o.blockList } :=
  ⟨rfl, rfl, rfl, rfl⟩

theorem getOrderInfo_some {info : OrderInfo} (h : getOrderInfo b idx = some info) :
    info.order ∈ b.orders ∧ b.find info.order.index = some info.order ∧
      info.remaining = getOrderAmountsRemaining b info.order := by
  unfold getOrderInfo at h
  rw [Option.map_eq_some_iff] at h
  obtain ⟨o, ho, rfl⟩ := h
  exact ⟨(find_some ho).1, by rw [(find_some ho).2]; exact ho, rfl⟩

theorem terms_cancelling (sweptTo : Option ℕ) (o : Order) : terms (o.cancelling sweptTo) = terms o :=
  rfl

theorem same_sweepOrder (b : Book) (blk : Block) (dest idx : ℕ) (hk : ∀ o ∈ b.orders, known o.index) :
    Rewrites known b (sweepOrder blk dest b idx) := by
  unfold sweepOrder
  cases hfind : getOrderInfo b idx with
  | none => exact .refl b
  | some info =>
    exact same_closeOrder dest (hk _ (getOrderInfo_some hfind).1) (terms_cancelling _)

theorem same_sweepOrders (blk : Block) (dest : ℕ) (orders : List ℕ) (b : Book)
    (hk : ∀ o ∈ b.orders, known o.index) : Rewrites known b (orders.foldl (sweepOrder blk dest) b) := by
  induction orders generalizing b with
  | nil => exact .refl b
  | cons idx orders ih =>
    have hstep := same_sweepOrder b blk dest idx hk
    refine hstep.trans (ih _ fun o' ho' => ?_)
    obtain ⟨o, ho, ht⟩ := hstep.mem_order ho'
    exact ht.index ▸ hk o ho

end XChainIndexer.Orders.Handlers
