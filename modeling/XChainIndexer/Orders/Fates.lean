import XChainIndexer.Orders.Steps

/-! # What a step keeps of the accounts

A token order after a sound step (`Sound`) is a new one, open and backed, or follows an order of the
book before: it is open only if it was, with its account still backed, and what it locked is still held
or credited. If the step is `Clean` too, a closed order holds what it owes. `keeps_step` says so once
for all handlers; the escrow invariants of a run are read off it. -/

namespace XChainIndexer.Orders.Fates

open Bcmath Lib.Run Lib.Decimal List Option Orders.Tables Orders.Match Orders.Step
open Orders.Escrow Orders.Invariant Orders.Fill Orders.Handlers Orders.Pass Orders.Steps

def closed : OrderStatus → Bool
  | .complete => true
  | .cancelled => true
  | .expired => true
  | _ => false

/-- What was credited out of an order's escrow, to whomever. -/
def credited (b : Book) (idx : ℕ) : ℚ :=
  ((b.credits.filter fun e => e.order = idx).map (·.amount)).sum

/-! ### The conditions -/

/-- The GET side is used up and something is left to give. -/
def Strands (o : Order) (r : Remaining) : Prop :=
  o.give.tick ≠ none ∧ o.give.isOwnership = false ∧ r.get ≤ 0 ∧ 0 < r.give

/-- An order a COINPAY is about to complete with GIVE left, unless it is parked and this is its last
pending obligation, in which case the rest is handed back. -/
def StrandsOnPayment (b : Book) (m : OrderMatch) (o : Order) : Prop :=
  m.involves o.index = true ∧ Strands o (getOrderAmountsRemaining b o) ∧
    ¬ ((o.status = .cancelling ∨ o.status = .expiring) ∧
      ∀ m' ∈ getPendingCoinpayObligationsByOrder b o.index, m'.index = m.index)

/-- What a step must meet. The ticks keep their decimals; an order that gives a token gives an amount
the ledger stores as it is; a candidate that is filled is filled soundly; an obligation expires by
the rule that returns the token leg. -/
def Sound (sc : Scales) (s : State) (e : Block × Event) : Prop :=
  e.1.scales = sc ∧
  match e.2 with
  | .create sp => ∀ t a, sp.give = .token t a → Fits (sc.precision t) a
  | .nextMatch => ∀ p m ms, s.pass = some p → p.candidates = m :: ms →
      admits e.1 p.taker p.remaining m → FillSound sc p.taker p.remaining m
  | .coinpayExpire _ => e.1.expireTokenAmount = true
  | _ => True

/-- What a step must meet besides being sound. -/
def Clean (s : State) (e : Block × Event) : Prop :=
  match e.2 with
  | .beginMatch idx => ∀ o, s.book.find idx = some o → o.status = .opened
  | .nextMatch => ∀ p m ms, s.pass = some p → p.candidates = m :: ms →
      admits e.1 p.taker p.remaining m → anyNullTick p.taker m.order = false →
      let f := computeFillAmounts e.1 p.taker p.remaining m
      ¬ Strands p.taker (p.remaining.after f.giveAmount f.getAmount) ∧
        ¬ Strands m.order (m.remaining.after f.getAmount f.giveAmount)
  | .coinpay idx => ∀ m, s.book.findMatch idx = some m → ∀ o ∈ s.book.orders,
      ¬ StrandsOnPayment s.book m o
  | .sweep _ _ orders => ∀ idx ∈ orders, ∀ o, s.book.find idx = some o → o.status = .opened
  | _ => True

instance {P : ℕ → ℚ → Prop} [∀ t a, Decidable (P t a)] (side : Side) :
    Decidable (∀ t a, side = .token t a → P t a) :=
  match side with
  | .token t a => decidable_of_iff (P t a) (by simp)
  | .coin _ => isTrue (by simp)
  | .ownership _ => isTrue (by simp)

instance {P : Pass → OrderInfo → Prop} [∀ p m, Decidable (P p m)] (s : State) :
    Decidable (∀ p m ms, s.pass = some p → p.candidates = m :: ms → P p m) :=
  decidable_of_iff (∀ p, s.pass = some p → ∀ m, p.candidates.head? = some m → P p m)
    ⟨fun h p m ms hp hm => h p hp m (by simp [hm]), fun h p hp m hm => by
      obtain ⟨ms, hms⟩ := head?_eq_some_iff.mp hm
      exact h p m ms hp hms⟩

/-- A step is sound for the decimals of its own block. -/
instance (s : State) (e : Block × Event) : Decidable (Sound e.1.scales s e) := by
  obtain ⟨blk, e⟩ := e
  cases e <;> exact @instDecidableAnd _ _ (isTrue rfl) (by dsimp only; infer_instance)

instance (o : Order) (r : Remaining) : Decidable (Strands o r) :=
  inferInstanceAs (Decidable (_ ∧ _ ∧ _ ∧ _))

instance (b : Book) (m : OrderMatch) (o : Order) : Decidable (StrandsOnPayment b m o) :=
  inferInstanceAs (Decidable (_ ∧ _ ∧ ¬ (_ ∧ ∀ m' ∈ _, _)))

instance (s : State) (e : Block × Event) : Decidable (Clean s e) := by
  obtain ⟨blk, e⟩ := e
  cases e <;> dsimp only [Clean] <;> infer_instance

/-! ### What was locked is held or credited -/

/-- What is held for an order or was credited out of its escrow. -/
def total (b : Book) (idx : ℕ) : ℚ := held b idx + credited b idx

variable {sc : Scales} {b : Book} {blk : Block} {b' : Book}

theorem total_congr (he : b'.escrows = b.escrows) (hc : b'.credits = b.credits) (i : ℕ) :
    total b' i = total b i := by
  unfold total held credited
  rw [he, hc]

theorem total_completeIf (b : Book) (idx : ℕ) (r : Remaining) (i : ℕ) :
    total (completeIf b idx r) i = total b i := by
  unfold completeIf
  split_ifs <;> rfl

variable {x : ℚ}

theorem total_release {d p t : ℕ} (b : Book) (o : Order) (dest : ℕ) (hx : Fits p x) (hp : p ≤ 18)
    (hd : p ≤ d) (hw : p ≤ blk.writeScale t) (i : ℕ) : total (release blk b o t x d dest) i = total b i := by
  unfold total held credited release
  rw [bcadd_bcsub_zero hx hp hd hw, bcadd_zero hx hp hw]
  by_cases hi : o.index = i
  · simp [hi]
    ring
  · simp [hi]

variable {o : Order}

theorem total_giveOut {d : ℕ → ℕ} (b : Book) (dest : ℕ)
    (h : ∀ t a, o.give = .token t a → ∃ p, Fits p x ∧ p ≤ 18 ∧ p ≤ d t ∧ p ≤ blk.writeScale t)
    (i : ℕ) : total (giveOut blk b o x d dest) i = total b i := by
  unfold giveOut
  split
  · exact total_congr rfl rfl i
  · rename_i t a hg
    obtain ⟨p, h1, h2, h3, h4⟩ := h t a hg
    exact total_release b o dest h1 h2 h3 h4 i
  · rfl

theorem exact_remaining (hw : Wf sc b) (hsc : blk.scales = sc) (ho : o ∈ b.orders) :
    ∀ t a, o.give = .token t a → ∃ p, Fits p (getOrderAmountsRemaining b o).give ∧ p ≤ 18 ∧
      p ≤ 64 ∧ p ≤ blk.writeScale t := by
  subst hsc
  intro t a hg
  have hp := blk.scales.precision_le t
  exact ⟨_, (hw.gives o ho t a hg).remaining_fits, hp, by omega, precision_le_writeScale blk t⟩

variable {m : OrderMatch}

/-- A closed order holds what it owes; any other is backed. -/
def Sane (status : OrderStatus) (a : Account) : Prop :=
  if closed status = true then a.held = a.pending else a.Backed

variable {a : Account} {status : OrderStatus}

theorem sane_open (h : closed status = false) : Sane status a ↔ a.Backed := by
  unfold Sane
  rw [h]
  simp

theorem sane_closed (h : closed status) : Sane status a ↔ a.held = a.pending := by
  unfold Sane
  rw [if_pos h]

theorem held_eq_pending (h : a.Backed) (h0 : a.remaining ≤ 0) : a.held = a.pending := by
  have h1 := h.held_eq
  have h2 := h.remaining_nonneg
  linarith

/-! ### What becomes of the orders -/

/-- The order `o` of `b` is `o'` in `b'`. -/
structure Follows (clean : Prop) (b b' : Book) (o o' : Order) : Prop where
  terms : SameTerms o o'
  backed : o'.status = .opened →
    o.status = .opened ∧ ((account b o).Backed → (account b' o).Backed)
  sane : clean → Sane o.status (account b o) → Sane o'.status (account b' o)
  locked : total b' o.index = total b o.index

/-- Every token order of `b'` is one of `b`. -/
def Kept (clean : Prop) (b b' : Book) : Prop :=
  ∀ o' ∈ b'.orders, ∀ t a, o'.give = .token t a → ∃ o ∈ b.orders, Follows clean b b' o o'

/-- Every token order of `b'` is one of `b`, or open and backed with all it gives locked. -/
def Keeps (clean : Prop) (b b' : Book) : Prop :=
  ∀ o' ∈ b'.orders, ∀ t a, o'.give = .token t a →
    (∃ o ∈ b.orders, Follows clean b b' o o') ∨
      o'.status = .opened ∧ (account b' o').Backed ∧ total b' o'.index = a

variable {clean : Prop} {o o' : Order}

theorem Follows.idle (ht : SameTerms o o') (hs : o'.status = o.status)
    (hacc : account b' o = account b o) (htot : total b' o.index = total b o.index) :
    Follows clean b b' o o' := by
  refine ⟨ht, fun h => ⟨hs ▸ h, ?_⟩, fun _ => ?_, htot⟩
  · rw [hacc]
    exact id
  · rw [hacc, hs]
    exact id

theorem Kept.refl : Kept clean b b := fun o ho _ _ _ => ⟨o, ho, .idle (.refl o) rfl rfl rfl⟩

theorem Kept.of_bump (h : Kept clean b.bump b') : Kept clean b b' := fun o' ho' t a hg =>
  have ⟨o, ho, hf⟩ := h o' ho' t a hg
  ⟨o, ho, hf.1, hf.2, hf.3, hf.4⟩

theorem Kept.keeps (h : Kept clean b b') : Keeps clean b b' := fun o' ho' t a hg =>
  .inl (h o' ho' t a hg)

theorem Kept.trans {c c' : Prop} {b'' : Book} (h : Kept c b b') (h' : Kept c' b' b'')
    (hc : clean → c ∧ c') : Kept clean b b'' := by
  intro o'' ho'' t a hg
  obtain ⟨o', ho', hf'⟩ := h' o'' ho'' t a hg
  obtain ⟨o, ho, hf⟩ := h o' ho' t a (hf'.terms.give ▸ hg)
  obtain ⟨ht, hbacked, hsane, htot⟩ := hf'
  rw [hf.terms.account, hf.terms.account] at hbacked hsane
  rw [hf.terms.index] at htot
  refine ⟨o, ho, hf.terms.trans ht, fun hs => ?_, fun hcl hs => ?_, htot.trans hf.locked⟩
  · obtain ⟨hs', hb'⟩ := hbacked hs
    obtain ⟨hs, hb⟩ := hf.backed hs'
    exact ⟨hs, fun h => hb' (hb h)⟩
  · exact hsane (hc hcl).2 (hf.sane (hc hcl).1 hs)

/-! ### Creating, editing and closing -/

theorem keeps_createOrder (hw : Wf sc b) (hsc : blk.scales = sc) {sp : OrderSpec}
    (hamt : 0 ≤ sp.give.amount) (hf : ∀ t a, sp.give = .token t a → Fits (sc.precision t) a) :
    Keeps clean b (createOrder blk b sp) := by
  have hcred : (createOrder blk b sp).credits = b.credits := by
    unfold createOrder
    split <;> rfl
  intro o' ho' t a hg
  rw [createOrder_orders] at ho'
  rcases mem_append.mp ho' with ho' | ho'
  · have hacc := account_createOrder_ne blk b sp (hw.orders_lt o' ho').ne
    have hheld : held (createOrder blk b sp) o'.index = held b o'.index := congrArg Account.held hacc
    refine .inl ⟨o', ho', .idle (.refl o') rfl hacc ?_⟩
    unfold total credited
    rw [hcred, hheld]
  · rw [mem_singleton] at ho'
    subst ho'
    have hg' : sp.give = .token t a := hg
    have hacc := account_createOrder_self hw hsc hg' (hf t a hg')
    have hheld : held (createOrder blk b sp) b.nextIndex = a := congrArg Account.held hacc
    rw [hg'] at hamt
    refine .inr ⟨rfl, ?_, ?_⟩
    · rw [hacc]
      exact ⟨(add_zero a).symm, hamt, le_rfl⟩
    · have hzero : credited (createOrder blk b sp) b.nextIndex = 0 := by
        unfold credited
        rw [hcred, filter_eq_nil_iff.mpr]
        · rfl
        · intro e he
          have := hw.credits_lt e he
          simp only [decide_eq_true_eq]
          omega
      show held _ b.nextIndex + credited _ b.nextIndex = a
      rw [hheld, hzero, add_zero]

theorem kept_editOrder (b : Book) (idx : ℕ) (expiration allowList blockList : Option ℕ) :
    Kept clean b (editOrder b idx expiration allowList blockList) := by
  intro o' ho' t a hg
  obtain ⟨o, ho, rfl⟩ := mem_map.mp ho'
  refine ⟨o, ho, .idle ?_ ?_ rfl rfl⟩
  · split_ifs
    · exact sameTerms_edit expiration allowList blockList o
    · exact SameTerms.refl o
  · split_ifs <;> rfl

section close

variable {info : OrderInfo} {park : Order → Order} {st : OrderStatus} (dest : ℕ)

/-- An order that closes and gives back what it has left holds what it owes. -/
theorem kept_closeOrder (hw : Wf sc b) (hsc : blk.scales = sc) (ho : info.order ∈ b.orders)
    (hr : info.remaining = getOrderAmountsRemaining b info.order)
    (hlive : clean → closed info.order.status = false)
    (hp : ∀ o, SameTerms o (park o) ∧ closed (park o).status = false ∧ (park o).status ≠ .opened)
    (hst : closed st) : Kept clean b (closeOrder blk b info dest park st) := by
  intro o' ho' t a hg
  have htot (i : ℕ) : total (closeOrder blk b info dest park st) i = total b i := by
    unfold closeOrder
    split_ifs
    · exact total_congr rfl rfl i
    · have := total_giveOut b dest (exact_remaining hw hsc ho) i
      rw [hr]
      exact (total_congr rfl rfl i).trans this
  rw [closeOrder_orders] at ho'
  obtain ⟨o, hob, rfl⟩ := mem_map.mp ho'
  refine ⟨o, hob, ?_⟩
  by_cases hi : o.index = info.order.index
  · have hoe := hw.eq_of_index hob ho hi
    subst hoe
    rw [if_pos rfl] at hg ⊢
    have hterms : SameTerms info.order (closing b info.order.index park st info.order) := by
      unfold closing
      split_ifs
      · exact (hp _).1
      · exact ⟨rfl, rfl, rfl, rfl⟩
    refine ⟨hterms, fun hopen => ?_, fun hcl hsane => ?_, htot _⟩
    · unfold closing at hopen
      split_ifs at hopen
      · exact absurd hopen (hp _).2.2
      · rw [show st = .opened from hopen] at hst
        cases hst
    · rw [sane_open (hlive hcl)] at hsane
      rw [hterms.give] at hg
      unfold closeOrder closing
      split_ifs with hpend
      · exact (sane_open (hp _).2.1).mpr hsane
      · obtain ⟨p, h1, h2, h3, h4⟩ := exact_remaining hw hsc ho t a hg
        rw [← hr] at h1
        have hacc := account_giveOut_self (d := fun _ => 64) b dest hg h1 h2 h3 h4 rfl
        refine (sane_closed hst).mpr ?_
        have hrem : info.remaining.give = (account b info.order).remaining := by rw [hr]; rfl
        have hheld := congrArg Account.held hacc
        have hpd := congrArg Account.pending hacc
        have hb := hsane.held_eq
        exact (hheld.trans (by simp only; linarith)).trans hpd.symm
  · rw [if_neg hi]
    exact .idle (.refl o) rfl (account_closeOrder_ne dest hi) (htot _)

end close

/-! ### Filling -/

section fill

variable {o : Order} {r : Remaining} {m : OrderInfo}

theorem total_settleFill (hw : Wf sc b) (hf : Fillable blk b o r m) (i : ℕ) :
    total (settleFill blk b o r m (computeFillAmounts blk o r m)) i = total b i := by
  by_cases hn : anyNullTick o m.order
  · rw [settleFill_native hn]
    exact total_congr rfl rfl i
  · obtain ⟨h1, h2⟩ := hf.fill_ok hw
    have hex : ∀ t, blk.scales.decimals t ≤ 18 ∧ blk.scales.decimals t ≤ blk.writeScale t := fun t =>
      ⟨(blk.scales.decimals_le t).trans (blk.scales.precision_le t),
        (blk.scales.decimals_le t).trans (precision_le_writeScale blk t)⟩
    rw [settleFill_instant hn, total_completeIf, total_completeIf]
    unfold settled settleOrderGiveSide
    rw [total_giveOut, total_giveOut]
    · exact total_congr rfl rfl i
    · intro t a hg
      have hfit := h1.fits
      rw [hg] at hfit
      exact ⟨_, hfit, (hex t).1, le_rfl, (hex t).2⟩
    · intro t a hg
      have hfit := h2.fits
      rw [hf.maker_tick hw (by rw [hg]; simp [Side.tick]), hg] at hfit
      exact ⟨_, hfit, (hex t).1, le_rfl, (hex t).2⟩

variable {t : ℕ}

theorem not_strands {x : Order} {a : ℚ} (hg : x.give = .token t a) (h : ¬ Strands x r)
    (hfin : r.finished) : r.give ≤ 0 := by
  unfold Remaining.finished at hfin
  simp only [Bool.or_eq_true, decide_eq_true_eq] at hfin
  rcases hfin with hget | hgive
  · by_contra hlt
    exact h ⟨by rw [hg]; simp [Side.tick], by rw [hg]; rfl, hget, not_le.mp hlt⟩
  · exact hgive

theorem kept_settleFill (hw : Wf sc b) (hsc : blk.scales = sc) (hf : Fillable blk b o r m)
    (hclean : clean → closed o.status = false ∧ closed m.order.status = false ∧
      (anyNullTick o m.order = false → let f := computeFillAmounts blk o r m
        ¬ Strands o (r.after f.giveAmount f.getAmount) ∧
          ¬ Strands m.order (m.remaining.after f.getAmount f.giveAmount))) :
    Kept clean b (settleFill blk b o r m (computeFillAmounts blk o r m)) := by
  intro o' ho' t a hg
  have hfind := (wf_settleFill hw hsc hf).find ho'
  rw [find_settleFill, map_eq_some_iff] at hfind
  obtain ⟨x, hx, hxo⟩ := hfind
  have hmem := (find_some hx).1
  have hterms : SameTerms x o' := by
    split_ifs at hxo <;> subst hxo <;> exact ⟨rfl, rfl, rfl, rfl⟩
  have hgx : x.give = .token t a := hterms.give ▸ hg
  refine ⟨x, hmem, ?_⟩
  by_cases hi : x.index = m.order.index ∨ x.index = o.index
  · obtain ⟨h1, h2, _⟩ := hf.legsOk hw hsc b.nextIndex x hmem t a hgx (involves_matchRow.mpr hi)
    have hmove : (account b x).Move
        (account (settleFill blk b o r m (computeFillAmounts blk o r m)) x) := by
      rw [account_settleFill hw hsc hf hmem hgx hi]
      unfold afterFill
      split_ifs
      · exact Account.Move.reserve _ _ h1 h2
      · exact Account.Move.fill _ _ h2
    refine ⟨hterms, fun hs => ⟨?_, hmove.backed⟩, fun hcl hsane => ?_, total_settleFill hw hf _⟩
    · -- a completed order is not open
      split_ifs at hxo <;> subst hxo
      · exact hs
      · simp at hs
      · simp at hs
      · exact hs
    obtain ⟨ho, hm, hclean⟩ := hclean hcl
    have hlive : closed x.status = false := by
      rcases hi with hi | hi
      · rw [hw.eq_of_index hmem hf.maker_mem hi]; exact hm
      · rw [hw.eq_of_index hmem hf.taker_mem hi]; exact ho
    rw [sane_open hlive] at hsane
    have hback := hmove.backed hsane
    have hrem : getOrderAmountsRemaining (settleFill blk b o r m (computeFillAmounts blk o r m)) x = _ :=
      remaining_settleFill o r m (computeFillAmounts blk o r m) x
    rw [if_pos (involves_matchRow.mpr hi)] at hrem
    split_ifs at hxo with hn hcm hct
    · subst hxo
      exact (sane_open hlive).mpr hback
    · -- the maker is complete
      subst hxo
      refine (sane_closed rfl).mpr (held_eq_pending hback ?_)
      have hxe := hw.eq_of_index hmem hf.maker_mem hcm.1
      subst hxe
      have hle := not_strands hgx (hclean (by simpa using hn)).2 hcm.2
      show (getOrderAmountsRemaining _ m.order).give ≤ 0
      rw [hrem, ← hf.maker_remaining]
      unfold subtractMatch
      rw [gives_maker _ hf.ne]
      exact hle
    · -- the taker is complete
      subst hxo
      refine (sane_closed rfl).mpr (held_eq_pending hback ?_)
      have hxe := hw.eq_of_index hmem hf.taker_mem hct.1
      subst hxe
      have hle := not_strands hgx (hclean (by simpa using hn)).1 hct.2
      show (getOrderAmountsRemaining _ x).give ≤ 0
      rw [hrem, ← hf.taker_remaining]
      unfold subtractMatch
      rw [gives_taker]
      exact hle
    · subst hxo
      exact (sane_open hlive).mpr hback
  · rw [not_or] at hi
    refine .idle hterms ?_ (account_settleFill_ne hw hi.1 hi.2 _) (total_settleFill hw hf _)
    split_ifs at hxo with hn hcm hct
    · rw [← hxo]
    · exact absurd hcm.1 hi.1
    · exact absurd hct.1 hi.2
    · rw [← hxo]

end fill

/-! ### Resolving an obligation -/

variable {seller : Order} {st : OrderStatus}

theorem finalStatus_some (h : finalStatus b seller = some st) : closed st ∧ closed seller.status = false := by
  unfold finalStatus at h
  split_ifs at h
  cases hst : seller.status <;> simp [hst] at h <;> subst h <;> exact ⟨rfl, rfl⟩

theorem finalStatus_parked (hst : seller.status = .cancelling ∨ seller.status = .expiring)
    (hnone : getPendingCoinpayObligationsByOrder b seller.index = []) : finalStatus b seller ≠ none := by
  unfold finalStatus
  rw [hnone]
  rcases hst with hst | hst <;> simp [hst]

section finalize

variable {seller : OrderInfo} {t : ℕ} {a : ℚ}

/-- The refund of a closed seller is an exact amount of what the book says it has left. -/
structure Refundable (blk : Block) (b : Book) (seller : OrderInfo) : Prop where
  remaining : seller.remaining.give = (account b seller.order).remaining
  nonneg : ∀ t a, seller.order.give = .token t a → 0 ≤ seller.remaining.give
  exact : ∀ t a, seller.order.give = .token t a → ∃ p, Fits p seller.remaining.give ∧ p ≤ 18 ∧
    p ≤ 64 ∧ p ≤ blk.writeScale t

theorem total_finalizeSeller (hr : Refundable blk b seller) (i : ℕ) :
    total (finalizeSeller blk b seller) i = total b i := by
  unfold finalizeSeller
  split
  · rfl
  · split
    · rename_i hg
      split_ifs
      · obtain ⟨p, h1, h2, h3, h4⟩ := hr.exact _ _ hg
        exact (total_release _ _ _ h1 h2 h3 h4 i).trans (total_congr rfl rfl i)
      · exact total_congr rfl rfl i
    · exact total_congr rfl rfl i

theorem account_finalizeSeller_some (hr : Refundable blk b seller)
    (hg : seller.order.give = .token t a) (h : finalStatus b seller.order = some st) :
    account (finalizeSeller blk b seller) seller.order =
      handedOut (account b seller.order) (account b seller.order).remaining := by
  obtain ⟨p, h1, h2, h3, h4⟩ := hr.exact t a hg
  unfold finalizeSeller
  rw [h, hg]
  split_ifs with hpos
  · rw [account_release_self _ _ _ h1 h2 h3 h4 rfl, hr.remaining]
    rfl
  · have h0 : (account b seller.order).remaining = 0 := by
      rw [← hr.remaining]
      exact le_antisymm (not_lt.mp hpos) (hr.nonneg t a hg)
    rw [h0]
    exact Account.ext (sub_zero _).symm rfl rfl

end finalize

variable {m : OrderMatch} {status : CoinpayStatus}

/-- What is left after an obligation is resolved, its match row marked and orders completed, is moved
for every order that is still open. -/
theorem move_resolved (hw : Wf sc b) (hsc : blk.scales = sc) {seller buyer : Order}
    (hm : m ∈ b.matched) (hp : b.pending m) (hr : Roles b m seller buyer)
    (hs : status ≠ .pending) (dest : ℕ) {x : Order} (hx : x ∈ b.orders)
    {a : ℚ} (hg : x.give = .token t a) : (account b x).Move
      (account (resolved blk b m seller (m.gives seller.index) dest status) x) := by
  have htick : x.give.tick ≠ none := by rw [hg]; simp [Side.tick]
  by_cases hi : x.index = seller.index
  · have hxe := hw.eq_of_index hx (find_some hr.seller_find).1 hi
    subst hxe
    have hacc := account_resolved_self dest hw hm hp hr hs hsc hg rfl
    have hwf := hw.of_rewrites (same_resolved dest b blk m (m.gives x.index) (hw.orders_lt x hx) hs)
    have hnn := pendingLegs_nonneg hwf
      (by show x ∈ (giveOut _ _ _ _ _ _).orders; rw [giveOut_orders]; exact hx) hg
    rw [hacc]
    refine Account.Move.settle _ _ ?_
    have := congrArg Account.pending hacc
    change pendingLegs _ _ = _ at this
    linarith
  · rw [account_resolved_ne dest hw hm hp hr hs hx htick hi]
    exact Account.Move.idle _

section resolve

variable {m : OrderMatch} {seller buyer : Order}

theorem total_resolved (status : CoinpayStatus) (dest : ℕ) (hw : Wf sc b) (hsc : blk.scales = sc) (hm : m ∈ b.matched)
    (hr : Roles b m seller buyer) (i : ℕ) :
    total (resolved blk b m seller (m.gives seller.index) dest status) i = total b i := by
  subst hsc
  refine (total_congr rfl rfl i).trans (total_giveOut b dest (fun t a hg => ?_) i)
  have hi : m.involves seller.index = true := (hr.involves_iff _).mpr (Or.inl rfl)
  have hfits := (hw.gives seller (find_some hr.seller_find).1 t a hg).leg_fits m hm hi
  have hp := blk.scales.precision_le t
  exact ⟨_, hfits, hp, by omega, precision_le_writeScale blk t⟩

theorem sane_resolved (dest : ℕ) (hw : Wf sc b) (hsc : blk.scales = sc) (hm : m ∈ b.matched)
    (hp : b.pending m) (hr : Roles b m seller buyer) (hs : status ≠ .pending) {a : ℚ}
    (hg : seller.give = .token t a) (hsane : Sane seller.status (account b seller)) : Sane seller.status
      (account (resolved blk b m seller (m.gives seller.index) dest status) seller) := by
  have hmove := move_resolved hw hsc hm hp hr hs dest (find_some hr.seller_find).1 hg
  by_cases hc : closed seller.status
  · rw [sane_closed hc] at hsane ⊢
    rw [account_resolved_self dest hw hm hp hr hs hsc hg rfl]
    rw [hsane]
  · rw [Bool.not_eq_true] at hc
    rw [sane_open hc] at hsane ⊢
    exact hmove.backed hsane

theorem refundable_resolved (hw : Wf sc b) (hsc : blk.scales = sc) (hr : Roles b m seller buyer)
    {b' : Book} (hrem : (account b' seller).remaining = (account b seller).remaining) :
    Refundable blk b' ⟨seller, getOrderAmountsRemaining b seller⟩ where
  remaining := hrem.symm
  nonneg := fun t a hg => (hw.gives seller (find_some hr.seller_find).1 t a hg).remaining_nonneg
  exact := exact_remaining hw hsc (find_some hr.seller_find).1

end resolve

/-- The last stage of a settlement: `b'` is the book with the leg settled and orders completed, `st`
the status the seller has there. -/
theorem kept_finalizeSeller (st : OrderStatus) (hmem : seller ∈ b.orders)
    (hwf : Wf sc (finalizeSeller blk b' ⟨seller, getOrderAmountsRemaining b seller⟩))
    (hseller : b'.find seller.index = some { seller with status := st })
    (hothers : ∀ i x, i ≠ seller.index → b'.find i = some x → x.give.tick ≠ none →
      b.find i = some x) (hacc : ∀ x ∈ b.orders, x.give.tick ≠ none → x.index ≠ seller.index →
      account b' x = account b x) (htot : ∀ i, total b' i = total b i)
    (href : Refundable blk b' ⟨seller, getOrderAmountsRemaining b seller⟩)
    (hopen : st = .opened → seller.status = .opened)
    (hmove : ∀ t a, seller.give = .token t a → (account b seller).Move (account b' seller))
    (hsane : ∀ t a, seller.give = .token t a → clean → Sane seller.status (account b seller) →
      Sane seller.status (account b' seller) ∧ (finalStatus b' seller = none → Sane st (account b' seller))) :
    Kept clean b (finalizeSeller blk b' ⟨seller, getOrderAmountsRemaining b seller⟩) := by
  intro o' ho' t a hg
  have htotal : ∀ i, total (finalizeSeller blk b' ⟨seller, getOrderAmountsRemaining b seller⟩) i =
      total b i := fun i => (total_finalizeSeller href i).trans (htot i)
  have hfind := hwf.find ho'
  rw [find_finalizeSeller, map_eq_some_iff] at hfind
  obtain ⟨x, hx, hxo⟩ := hfind
  have hxi := (find_some hx).2
  by_cases hi : x.index = seller.index
  · have hxe : x = { seller with status := st } := by
      rw [← hxi, hi, hseller, some.injEq] at hx
      exact hx.symm
    rw [if_pos hi, hxe] at hxo
    have hterms : SameTerms seller o' := by
      subst hxo
      exact ⟨rfl, rfl, rfl, rfl⟩
    have hgs : seller.give = .token t a := hterms.give ▸ hg
    refine ⟨seller, hmem, ?_⟩
    cases hfin : finalStatus b' seller with
    | some fin =>
      rw [hfin] at hxo
      obtain ⟨hc, hlive⟩ := finalStatus_some hfin
      refine ⟨hterms, fun hs => ?_, fun hcl hs => ?_, htotal _⟩
      · rw [show fin = .opened by rw [← hs, ← hxo]; rfl] at hc
        cases hc
      · -- the seller gives back what it has left
        have hb := ((sane_open hlive).mp (hsane t a hgs hcl hs).1).held_eq
        rw [← hxo, account_finalizeSeller_some href hgs hfin]
        refine (sane_closed hc).mpr ?_
        simp only [handedOut]
        linarith
    | none =>
      have hstay := account_finalizeSeller_none blk b' ⟨seller, getOrderAmountsRemaining b seller⟩ seller
        hfin
      rw [hfin] at hxo
      refine ⟨hterms, fun hs => ⟨hopen (by rw [← hs, ← hxo]; rfl), ?_⟩, fun hcl hs => ?_, htotal _⟩
      · rw [hstay]
        exact (hmove t a hgs).backed
      · rw [hstay, ← hxo]
        exact (hsane t a hgs hcl hs).2 hfin
  · rw [if_neg hi] at hxo
    subst hxo
    have hbx := hothers _ x (hxi ▸ hi) hx (by rw [hg]; simp [Side.tick])
    have hmx := (find_some hbx).1
    refine ⟨x, hmx, .idle (.refl x) rfl ?_ (htotal _)⟩
    rw [account_finalizeSeller_ne blk b' _ hi, hacc x hmx (by rw [hg]; simp [Side.tick]) hi]

variable {dest : ℕ}

theorem find_resolved (i : ℕ) : (resolved blk b m seller x dest status).find i = b.find i :=
  find_congr (by show (giveOut _ _ _ _ _ _).orders = _; rw [giveOut_orders]) i

theorem remaining_resolved (o : Order) :
    (account (resolved blk b m seller x dest status) o).remaining = (account b o).remaining :=
  congrArg Remaining.give
    (remaining_congr (by show (giveOut _ _ _ _ _ _).matched = _; rw [giveOut_matched]) o)

theorem kept_coinpayExpire (hw : Wf sc b) (hsc : blk.scales = sc) (hm : m ∈ b.matched)
    (hp : b.pending m) (ob : Obligation) (hamt : blk.expireTokenAmount) :
    Kept clean b (coinpayExpire blk b m ob) := by
  have hwf := hw.of_rewrites (rewrites_coinpayExpire hw.toKeys blk m ob)
  obtain ⟨seller, buyer, hr, heq⟩ := coinpayExpire_spec blk hw.toKeys hm hp ob
  have hleg : deriveReleaseAmount blk m ob seller = m.gives seller.index := if_pos hamt
  have hne : CoinpayStatus.expired ≠ .pending := by decide
  have hmem := (find_some hr.seller_find).1
  rw [heq, hleg] at hwf ⊢
  have hr' := hr.bump
  refine kept_finalizeSeller seller.status hmem hwf ?_ ?_ ?_ ?_ ?_ id ?_ ?_
  · rw [find_resolved]
    exact hr.seller_find
  · intro i x _ hx _
    rw [find_resolved] at hx
    exact hx
  · intro x hx hg hi
    exact account_resolved_ne _ hw.bump hm hp hr' hne hx hg hi
  · intro i
    exact total_resolved _ _ hw.bump hsc hm hr' i
  · exact refundable_resolved hw.bump hsc hr' (remaining_resolved seller)
  · exact fun t a hg => move_resolved hw.bump hsc hm hp hr' hne _ hmem hg
  · intro t a hg _ hsn
    have := sane_resolved (refundTo seller) hw.bump hsc hm hp hr' hne hg hsn
    exact ⟨this, fun _ => this⟩

theorem completeIf_frame (b : Book) (idx : ℕ) (r : Remaining) :
    (completeIf b idx r).matched = b.matched ∧ (completeIf b idx r).obligations = b.obligations := by
  unfold completeIf
  split_ifs <;> exact ⟨rfl, rfl⟩

/-- The book of a COINPAY once the leg is settled and the match row is marked. -/
def paid (blk : Block) (b : Book) (m : OrderMatch) (seller : Order) (dest : ℕ) : Book :=
  updateOrderMatchStatus
    (resolved blk b m seller (m.gives seller.index) dest .fulfilled) m.index .valid

theorem no_pending_paid (blk : Block) (b : Book) (seller : Order) (dest : ℕ) {i : ℕ}
    (hm : b'.matched = (paid blk b m seller dest).matched)
    (ho : b'.obligations = (paid blk b m seller dest).obligations)
    (hlast : ∀ m' ∈ getPendingCoinpayObligationsByOrder b i, m'.index = m.index) :
    getPendingCoinpayObligationsByOrder b' i = [] := by
  have hpend : ∀ x, b'.pending x = (b.pending x && decide (x.index ≠ m.index)) := fun x => by
    have hne : CoinpayStatus.fulfilled ≠ .pending := by decide
    have h1 : b'.pending x = (paid blk b m seller dest).pending x := by
      unfold Book.pending
      rw [ho]
    rw [h1]
    refine (pending_createCoinpayStatus hne x).trans ?_
    unfold Book.pending
    rw [giveOut_obligations]
  refine filter_eq_nil_iff.mpr fun x' hx' hp' => ?_
  rw [hm] at hx'
  obtain ⟨x, hx, rfl⟩ := mem_map.mp hx'
  have hxb : x ∈ b.matched := by
    have : x ∈ (giveOut blk b seller (m.gives seller.index) (fun _ => 64) dest).matched := hx
    rwa [giveOut_matched] at this
  rw [Bool.and_eq_true, hpend, Bool.and_eq_true, decide_eq_true_eq] at hp'
  obtain ⟨hinv, hpx, hidx⟩ := hp'
  split_ifs at hinv hpx hidx with hxm
  · exact hidx hxm
  · exact hidx (hlast x (mem_filter.mpr ⟨hxb, by rw [hinv, hpx]; rfl⟩))

/-- What the statuses of a COINPAY make of an order. -/
def completed (b : Book) (seller buyer x : Order) : Order :=
  let x := if x.index = seller.index ∧ (getOrderAmountsRemaining b seller).finished then
    { x with status := .complete } else x
  if x.index = buyer.index ∧ (getOrderAmountsRemaining b buyer).finished then
    { x with status := .complete } else x

theorem sameTerms_completed (b : Book) (seller buyer x : Order) :
    SameTerms x (completed b seller buyer x) := by
  unfold completed
  dsimp only
  split_ifs <;> exact ⟨rfl, rfl, rfl, rfl⟩

section coinpay

variable {seller buyer : Order} (dest : ℕ)

/-- The book of a COINPAY before its last stage. -/
def settledBook (blk : Block) (b : Book) (m : OrderMatch) (seller buyer : Order) (dest : ℕ) : Book :=
  completeIf (completeIf (paid blk b.bump m seller dest)
    seller.index (getOrderAmountsRemaining b seller)) buyer.index (getOrderAmountsRemaining b buyer)

theorem find_settledBook (i : ℕ) : (settledBook blk b m seller buyer dest).find i =
    (b.find i).map (completed b seller buyer) := by
  unfold settledBook
  have hpaid : (paid blk b.bump m seller dest).find i = b.find i :=
    find_congr (by show (giveOut _ _ _ _ _ _).orders = b.orders; rw [giveOut_orders]) i
  rw [find_completeIf, find_completeIf, hpaid, Option.map_map]
  rfl

theorem settledBook_frame :
    (settledBook blk b m seller buyer dest).matched = (paid blk b.bump m seller dest).matched ∧
      (settledBook blk b m seller buyer dest).obligations = (paid blk b.bump m seller dest).obligations := by
  unfold settledBook
  simp only [completeIf_frame, and_self]

theorem coinpay_eq (blk : Block) (hk : Keys b) (hm : m ∈ b.matched) (hp : b.pending m) :
    ∃ seller buyer : Order, ∃ dest : ℕ, Roles b m seller buyer ∧
      coinpay blk b m = finalizeSeller blk (settledBook blk b m seller buyer dest)
        ⟨seller, getOrderAmountsRemaining b seller⟩ := by
  obtain ⟨seller, buyer, hr, heq⟩ := resolveOrderRoles_spec (hk.roles m hm hp) blk
  refine ⟨seller, buyer, buyer.getAddress, hr, ?_⟩
  unfold coinpay
  dsimp only
  rw [show resolveOrderRoles blk b.bump m = _ from heq]
  rfl

end coinpay

theorem kept_coinpay (hw : Wf sc b) (hsc : blk.scales = sc) (hm : m ∈ b.matched)
    (hp : b.pending m) (hclean : clean → ∀ o ∈ b.orders, ¬ StrandsOnPayment b m o) :
    Kept clean b (coinpay blk b m) := by
  have hwf := hw.of_rewrites (rewrites_coinpay hw.toKeys blk m)
  obtain ⟨seller, buyer, dest, hr, heq⟩ := coinpay_eq blk hw.toKeys hm hp
  have hne : CoinpayStatus.fulfilled ≠ .pending := by decide
  have hmem := (find_some hr.seller_find).1
  have hbs := hr.ne_buyer hr.seller_find hr.seller_tick
  have hr' := hr.bump
  rw [heq] at hwf ⊢
  have hacc : ∀ x, account (settledBook blk b m seller buyer dest) x =
      account (resolved blk b.bump m seller (m.gives seller.index) dest .fulfilled) x := fun x => by
    unfold settledBook
    rw [account_completeIf, account_completeIf]
    exact account_updateOrderMatchStatus _ _ _ _
  refine kept_finalizeSeller
    (if (getOrderAmountsRemaining b seller).finished then .complete else seller.status)
    hmem hwf ?_ ?_ ?_ ?_ ?_ ?_ ?_ ?_
  · rw [find_settledBook, hr.seller_find]
    by_cases hfin : (getOrderAmountsRemaining b seller).finished = true
    · simp [completed, hfin, hbs]
    · simp [completed, hfin, hbs]
  · intro i x hi hx hg
    -- only the two orders of the match are completed, and the buyer gives coin
    rw [find_settledBook, Option.map_eq_some_iff] at hx
    obtain ⟨y, hy, rfl⟩ := hx
    have hyi := (find_some hy).2
    rw [(sameTerms_completed b seller buyer y).give] at hg
    simp only [completed, hyi, hi, hr.ne_buyer hy hg, false_and, if_false]
    exact hy
  · intro x hx hg hi
    exact (hacc x).trans (account_resolved_ne dest hw.bump hm hp hr' hne hx hg hi)
  · intro i
    unfold settledBook
    rw [total_completeIf, total_completeIf]
    exact total_resolved .fulfilled dest hw.bump hsc hm hr' i
  · refine refundable_resolved hw.bump hsc hr' ?_
    rw [hacc]
    exact remaining_resolved seller
  · intro hst
    split_ifs at hst
    exact hst
  · intro t a hg
    rw [hacc]
    exact move_resolved hw.bump hsc hm hp hr' hne dest hmem hg
  · intro t a hg hcl hsn
    have hsn' := sane_resolved dest hw.bump hsc hm hp hr' hne hg hsn
    rw [hacc]
    refine ⟨hsn', fun hfin => ?_⟩
    by_cases hdone : (getOrderAmountsRemaining b seller).finished = true
    · rw [if_pos hdone]
      by_cases hc : closed seller.status = true
      · exact (sane_closed hc).mp hsn'
      · rw [Bool.not_eq_true] at hc
        refine held_eq_pending ((sane_open hc).mp hsn') ?_
        rw [remaining_resolved]
        refine not_strands hg (fun hstr => hclean hcl seller hmem ⟨?_, hstr, fun hparked => ?_⟩) hdone
        · exact (hr.involves_iff _).mpr (Or.inl rfl)
        · refine absurd hfin (finalStatus_parked hparked.1 ?_)
          exact no_pending_paid blk b.bump seller dest (settledBook_frame dest).1
            (settledBook_frame dest).2 hparked.2
    · rw [if_neg hdone]
      exact hsn'

/-! ### SWEEP -/

theorem find_closeOrder_ne {info : OrderInfo} {park : Order → Order} (dest : ℕ)
    (hp : ∀ o, SameTerms o (park o)) {i : ℕ} (hi : i ≠ info.order.index) :
    (closeOrder blk b info dest park st).find i = b.find i := by
  rw [find_closeOrder dest hp]
  cases hf : b.find i with
  | none => rfl
  | some o =>
    have := (find_some hf).2
    rw [map_some, if_neg (by rw [this]; exact hi)]

theorem sameTerms_cancelling (sweptTo : Option ℕ) (o : Order) : SameTerms o (Order.cancelling sweptTo o) :=
  ⟨rfl, rfl, rfl, rfl⟩

theorem kept_sweep (hsc : blk.scales = sc) (dest : ℕ) (orders : List ℕ) : ∀ {clean : Prop} (b : Book),
    Wf sc b → orders.Nodup → (∀ idx ∈ orders, ∃ o, b.find idx = some o) →
    (clean → ∀ idx ∈ orders, ∀ o, b.find idx = some o → o.status = .opened) →
    Kept clean b (orders.foldl (sweepOrder blk dest) b) := by
  induction orders with
  | nil => exact fun b _ _ _ _ => Kept.refl
  | cons idx orders ih =>
    intro clean b hw hnd hknown hopen
    obtain ⟨o, ho⟩ := hknown idx (by simp)
    obtain ⟨hmem, hidx⟩ := find_some ho
    rw [nodup_cons] at hnd
    have hpark : ∀ x, SameTerms x (Order.cancelling (some dest) x) :=
      sameTerms_cancelling (some dest)
    have heq : sweepOrder blk dest b idx = closeOrder blk b ⟨o, getOrderAmountsRemaining b o⟩ dest
        (Order.cancelling (some dest)) .cancelled := by
      unfold sweepOrder getOrderInfo
      rw [ho]
      rfl
    have hothers : ∀ j ∈ orders, (sweepOrder blk dest b idx).find j = b.find j := fun j hj => by
      rw [heq, find_closeOrder_ne dest hpark]
      exact fun he => hnd.1 (by rw [← hidx, ← show j = o.index from he]; exact hj)
    have hfirst : Kept clean b (sweepOrder blk dest b idx) := by
      rw [heq]
      refine kept_closeOrder dest hw hsc hmem rfl (fun hcl => ?_) (fun x => ⟨hpark x, rfl, ?_⟩) rfl
      · rw [hopen hcl idx (by simp) o ho]
        rfl
      · simp [Order.cancelling]
    refine hfirst.trans (ih _ (hw.of_rewrites (same_sweepOrder b blk dest idx
      hw.orders_lt)) hnd.2 (fun j hj => ?_) fun hcl j hj x hx => ?_) fun hcl => ⟨hcl, hcl⟩
    · rw [hothers j hj]
      exact hknown j (by simp [hj])
    · rw [hothers j hj] at hx
      exact hopen hcl j (by simp [hj]) x hx

/-! ### The step -/

theorem opened_of_isCandidate (h : isCandidate o o') : o'.status = .opened := by
  unfold isCandidate at h
  simp only [Bool.and_eq_true, decide_eq_true_eq] at h
  exact h.2

variable {s s' : State} {e : Block × Event}

section
variable (hsound : Sound sc s e) (h : Stepped s e s') (hw : Wf sc s.book)
  (hpass : ∀ p, s.pass = some p → PassOk s.book p)
include hsound h hw hpass

theorem wf_step : Wf sc s'.book := by
  obtain ⟨hsc, hev⟩ := hsound
  cases h with
  | create hacc => exact wf_createOrder hw hacc hev
  | cancel hinfo _ =>
    have hlt := hw.orders_lt _ (getOrderInfo_some hinfo).1
    exact hw.bump.of_rewrites (same_closeOrder _ (Nat.lt_succ_of_lt hlt) (terms_cancelling none))
  | edit _ _ => exact hw.bump.of_rewrites (same_updateOrder _ _ fun _ => rfl)
  | beginMatch _ | stop | skip _ => exact hw
  | coinpay _ _ _ => exact hw.of_rewrites (rewrites_coinpay hw.toKeys _ _)
  | coinpayExpire _ _ _ => exact hw.of_rewrites (rewrites_coinpayExpire hw.toKeys _ _ _)
  | orderExpire hinfo _ =>
    have hlt := hw.orders_lt _ (getOrderInfo_some hinfo).1
    exact hw.bump.of_rewrites (same_closeOrder _ (Nat.lt_succ_of_lt hlt) fun _ => rfl)
  | sweep _ _ => exact hw.bump.of_rewrites (same_sweepOrders _ _ _ _ hw.bump.orders_lt)
  | fill hc hfin ha =>
    exact wf_settleFill hw hsc ⟨(hpass _ rfl).meets hc hfin ha, hsc ▸ hev _ _ _ rfl hc ha⟩

/-- **What a sound step keeps.** -/
theorem keeps_step : Keeps (Clean s e ∧ ∀ p, s.pass = some p → p.taker.status = .opened) s.book s'.book := by
  obtain ⟨hsc, hev⟩ := hsound
  cases h with
  | create hacc => exact keeps_createOrder hw hsc (accepted_sides hacc).1 hev
  | cancel hinfo hopen =>
    obtain ⟨hmem, _, hr⟩ := getOrderInfo_some hinfo
    refine Kept.keeps (Kept.of_bump (kept_closeOrder _ hw.bump hsc hmem hr (fun _ => ?_)
      (fun x => ⟨sameTerms_cancelling none x, rfl, ?_⟩) rfl))
    · rw [hopen]
      rfl
    · simp [Order.cancelling]
  | edit _ _ => exact Kept.keeps (kept_editOrder _ _ _ _ _)
  | beginMatch _ | stop | skip _ => exact Kept.keeps Kept.refl
  | coinpay hfind hm hp => exact Kept.keeps (kept_coinpay hw hsc hm hp fun hc => hc.1 _ hfind)
  | coinpayExpire _ hm hp => exact Kept.keeps (kept_coinpayExpire hw hsc hm hp _ hev)
  | orderExpire hinfo hopen =>
    obtain ⟨hmem, _, hr⟩ := getOrderInfo_some hinfo
    refine Kept.keeps (Kept.of_bump (kept_closeOrder _ hw.bump hsc hmem hr (fun _ => ?_)
      (fun x => ⟨⟨rfl, rfl, rfl, rfl⟩, rfl, OrderStatus.noConfusion⟩) rfl))
    rw [hopen]
    rfl
  | sweep hnd hknown => exact Kept.keeps (Kept.of_bump (kept_sweep hsc _ _ _ hw.bump hnd hknown fun hc => hc.1))
  | fill hc hfin ha =>
    have hp := hpass _ rfl
    have hf : Fillable _ _ _ _ _ := ⟨hp.meets hc hfin ha, hsc ▸ hev _ _ _ rfl hc ha⟩
    refine Kept.keeps (kept_settleFill hw hsc hf fun ⟨hclean, htaker⟩ => ⟨?_, ?_, fun hn => ?_⟩)
    · rw [htaker _ rfl]
      rfl
    · -- a candidate is open when the pass reads it, and still is when the pass comes to it
      rw [opened_of_isCandidate (hp.candidates _ (hc ▸ mem_cons_self)).2.2]
      rfl
    · exact hclean _ _ _ rfl hc ha hn

end

end XChainIndexer.Orders.Fates
