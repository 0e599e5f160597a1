import XChainIndexer.Lib.Keyed
import XChainIndexer.Orders.Step

/-! # The escrow account of an order

An order that gives a token has an account: what is held in escrow for it, what it has left to give,
and what it owes on matches whose coin payment is pending. Abstractly (`Account`) a handler moves it
in four ways, and each keeps `held = remaining + pending` (`Account.Backed`). The rest of the module
says how the table operations change the account that a book gives an order (`account`). -/

namespace XChainIndexer.Orders.Escrow

open Bcmath Orders.Tables List Lib.Decimal

/-! ### Accounts -/

@[ext] structure Account where
  held : ℚ
  remaining : ℚ
  pending : ℚ

/-- What is held covers what is left to give and what is owed. -/
structure Account.Backed (a : Account) : Prop where
  held_eq : a.held = a.remaining + a.pending
  remaining_nonneg : 0 ≤ a.remaining
  pending_nonneg : 0 ≤ a.pending

/-- What a handler does to an account that stays open. -/
inductive Account.Move : Account → Account → Prop
  | idle (a : Account) : Move a a
  | fill (a : Account) (x : ℚ) : x ≤ a.remaining → Move a ⟨a.held - x, a.remaining - x, a.pending⟩
  | reserve (a : Account) (x : ℚ) :
      0 ≤ x → x ≤ a.remaining → Move a ⟨a.held, a.remaining - x, a.pending + x⟩
  | settle (a : Account) (x : ℚ) : x ≤ a.pending → Move a ⟨a.held - x, a.remaining, a.pending - x⟩

theorem Account.Backed.held_nonneg {a : Account} (h : a.Backed) : 0 ≤ a.held := by
  rw [h.held_eq]
  exact add_nonneg h.remaining_nonneg h.pending_nonneg

theorem Account.Move.backed {a a' : Account} (h : a.Move a') (ha : a.Backed) : a'.Backed := by
  obtain ⟨h1, h2, h3⟩ := ha
  rcases h with _ | ⟨x, hx⟩ | ⟨x, hx0, hx⟩ | ⟨x, hx⟩
  · exact ⟨h1, h2, h3⟩
  · exact ⟨by show a.held - x = a.remaining - x + a.pending; linarith,
      by show 0 ≤ a.remaining - x; linarith, h3⟩
  · exact ⟨by show a.held = a.remaining - x + (a.pending + x); linarith,
      by show 0 ≤ a.remaining - x; linarith, by show 0 ≤ a.pending + x; linarith⟩
  · exact ⟨by show a.held - x = a.remaining + (a.pending - x); linarith, h2,
      by show 0 ≤ a.pending - x; linarith⟩

/-! ### The account of an order in a book -/

/-- The net escrow attributed to an order. -/
def held (b : Book) (idx : ℕ) : ℚ := ((b.escrows.filter fun e => e.order = idx).map (·.amount)).sum

/-- The legs an order owes on matches whose obligation is pending. -/
def pendingLegs (b : Book) (idx : ℕ) : ℚ :=
  ((getPendingCoinpayObligationsByOrder b idx).map fun m => m.gives idx).sum

def account (b : Book) (o : Order) : Account where
  held := held b o.index
  remaining := (getOrderAmountsRemaining b o).give
  pending := pendingLegs b o.index

/-- The terms of an order that no handler changes. -/
structure SameTerms (o o' : Order) : Prop where
  index : o'.index = o.index
  source : o'.source = o.source
  give : o'.give = o.give
  get : o'.get = o.get

theorem SameTerms.refl (o : Order) : SameTerms o o := ⟨rfl, rfl, rfl, rfl⟩

variable {o o' : Order}

theorem SameTerms.trans {o'' : Order} (h : SameTerms o o') (h' : SameTerms o' o'') : SameTerms o o'' :=
  ⟨h'.1.trans h.1, h'.2.trans h.2, h'.3.trans h.3, h'.4.trans h.4⟩

theorem SameTerms.remaining (h : SameTerms o o') (b : Book) :
    getOrderAmountsRemaining b o' = getOrderAmountsRemaining b o := by
  unfold getOrderAmountsRemaining
  rw [h.index, h.give, h.get]

theorem SameTerms.account (h : SameTerms o o') (b : Book) : account b o' = account b o := by
  unfold Escrow.account
  rw [h.remaining, h.index]

/-! ### Finding an order -/

variable {b : Book} {idx : ℕ}

theorem find_some (h : b.find idx = some o) : o ∈ b.orders ∧ o.index = idx := by
  refine ⟨mem_of_find?_eq_some h, ?_⟩
  have := find?_some h
  simpa using this

theorem find_of_mem (hnd : (b.orders.map (·.index)).Nodup) (ho : o ∈ b.orders) : b.find o.index = some o :=
  Lib.Keyed.find?_key hnd ho

theorem find_updateOrder (b : Book) (idx : ℕ) (f : Order → Order) (hf : ∀ o, (f o).index = o.index)
    (i : ℕ) : (updateOrder b idx f).find i = (b.find i).map fun o => if o.index = idx then f o else o := by
  unfold updateOrder Book.find
  rw [find?_map]
  congr 1
  apply congrArg (fun p => List.find? p b.orders)
  funext o
  simp only [Function.comp]
  split_ifs <;> simp [hf]

theorem find_createOrderStatus (b : Book) (idx : ℕ) (status : OrderStatus) (i : ℕ) :
    (createOrderStatus b idx status).find i =
      (b.find i).map fun o => if o.index = idx then { o with status } else o :=
  find_updateOrder b idx (fun o => { o with status }) (fun _ => rfl) i

variable {b' : Book}

theorem find_congr (h : b'.orders = b.orders) (i : ℕ) : b'.find i = b.find i := by
  unfold Book.find
  rw [h]

/-! ### What the writes do to an account -/

theorem held_append (b : Book) (es : List Entry) (idx : ℕ) : held { b with escrows := b.escrows ++ es } idx =
      held b idx + ((es.filter fun e => e.order = idx).map (·.amount)).sum := by
  unfold held
  rw [filter_append, map_append, sum_append]

theorem held_of_fresh (h : ∀ e ∈ b.escrows, e.order < idx) : held b idx = 0 := by
  unfold held
  rw [filter_eq_nil_iff.mpr]
  · simp
  · intro e he
    have := h e he
    simp only [decide_eq_true_eq]
    omega

variable {blk : Block}

theorem account_release_self {d p t : ℕ} {x : ℚ} (b : Book) (o : Order) (dest : ℕ)
    (hx : Fits p x) (hp : p ≤ 18) (hd : p ≤ d) (hw : p ≤ blk.writeScale t) (h : o'.index = o.index)
    : account (release blk b o t x d dest) o' =
      ⟨(account b o').held - x, (account b o').remaining, (account b o').pending⟩ := by
  have hheld : held (release blk b o t x d dest) o'.index = held b o'.index - x := by
    have := held_append b [⟨o.index, o.source, -x⟩] o'.index
    rw [filter_cons_of_pos (by simp [h])] at this
    simp only [filter_nil, map_cons, map_nil, sum_singleton] at this
    unfold release
    rw [bcadd_bcsub_zero hx hp hd hw, sub_eq_add_neg]
    exact this
  exact Account.ext hheld rfl rfl

theorem account_append_ne (b : Book) (e : Entry) (h : o'.index ≠ e.order) :
    account { b with escrows := b.escrows ++ [e] } o' = account b o' := by
  refine Account.ext ((held_append b _ _).trans ?_) rfl rfl
  rw [filter_cons_of_neg (by simp [h.symm])]
  simp [account]

theorem account_release_ne (blk : Block) (b : Book) (o : Order) (t : ℕ) (x : ℚ) (d dest : ℕ)
    (h : o'.index ≠ o.index) : account (release blk b o t x d dest) o' = account b o' :=
  account_append_ne b _ h

section
variable (blk : Block) (b : Book) (o : Order) (x : ℚ) (d : ℕ → ℕ) (dest : ℕ)

@[simp] theorem giveOut_orders : (giveOut blk b o x d dest).orders = b.orders := by
  unfold giveOut
  split <;> rfl

@[simp] theorem giveOut_matched : (giveOut blk b o x d dest).matched = b.matched := by
  unfold giveOut
  split <;> rfl

@[simp] theorem giveOut_obligations : (giveOut blk b o x d dest).obligations = b.obligations := by
  unfold giveOut
  split <;> rfl

@[simp] theorem giveOut_nextIndex : (giveOut blk b o x d dest).nextIndex = b.nextIndex := by
  unfold giveOut
  split <;> rfl

theorem giveOut_setMatched (ms : List OrderMatch) : { giveOut blk b o x d dest with matched := ms } =
      giveOut blk { b with matched := ms } o x d dest := by
  unfold giveOut
  split <;> rfl

theorem account_giveOut_ne
    (h : o'.index ≠ o.index) : account (giveOut blk b o x d dest) o' = account b o' := by
  unfold giveOut
  split
  · rfl
  · exact account_release_ne blk b o _ x _ dest h
  · rfl

end

theorem account_giveOut_self {p t : ℕ} {a x : ℚ} {d : ℕ → ℕ} (b : Book) (dest : ℕ)
    (hg : o.give = .token t a) (hx : Fits p x) (hp : p ≤ 18) (hd : p ≤ d t)
    (hw : p ≤ blk.writeScale t) (h : o'.index = o.index) : account (giveOut blk b o x d dest) o' =
      ⟨(account b o').held - x, (account b o').remaining, (account b o').pending⟩ := by
  unfold giveOut
  rw [hg]
  exact account_release_self b o dest hx hp hd hw h

theorem remaining_append (b : Book) (row : OrderMatch) (o : Order) :
    getOrderAmountsRemaining { b with matched := b.matched ++ [row] } o =
      if row.involves o.index then subtractMatch o.index (getOrderAmountsRemaining b o) row
      else getOrderAmountsRemaining b o := by
  unfold getOrderAmountsRemaining
  split_ifs with h <;> simp [h]

theorem remaining_congr (h : b'.matched = b.matched) (o : Order) :
    getOrderAmountsRemaining b' o = getOrderAmountsRemaining b o := by
  unfold getOrderAmountsRemaining
  rw [h]

theorem remaining_of_fresh (h : ∀ m ∈ b.matched, m.giveActionIndex < o.index ∧ m.getActionIndex < o.index) :
    getOrderAmountsRemaining b o = ⟨o.give.amount, o.get.amount⟩ := by
  unfold getOrderAmountsRemaining
  rw [filter_eq_nil_iff.mpr]
  · rfl
  · intro m hm
    have := h m hm
    simp only [OrderMatch.involves, Bool.or_eq_true, decide_eq_true_eq]
    omega

theorem pendingLegs_of_fresh (h : ∀ m ∈ b.matched, m.giveActionIndex < idx ∧ m.getActionIndex < idx)
    : pendingLegs b idx = 0 := by
  unfold pendingLegs getPendingCoinpayObligationsByOrder
  rw [filter_eq_nil_iff.mpr]
  · rfl
  · intro m hm
    have := h m hm
    simp only [OrderMatch.involves, Bool.and_eq_true, Bool.or_eq_true, decide_eq_true_eq]
    omega

theorem pendingLegs_append (b : Book) (row : OrderMatch) (idx : ℕ) :
    pendingLegs { b with matched := b.matched ++ [row] } idx =
      pendingLegs b idx + if row.involves idx && b.pending row then row.gives idx else 0 := by
  show (((b.matched ++ [row]).filter fun m => m.involves idx && b.pending m).map _).sum = _
  rw [filter_append, map_append, sum_append]
  congr 1
  split_ifs with h <;> simp [h]

theorem pendingLegs_congr (hm : b'.matched = b.matched)
    (h : ∀ m ∈ b.matched, m.involves idx → b'.pending m = b.pending m) :
    pendingLegs b' idx = pendingLegs b idx := by
  unfold pendingLegs getPendingCoinpayObligationsByOrder
  rw [hm, filter_congr]
  intro m hmm
  by_cases hi : m.involves idx
  · rw [h m hmm hi]
  · simp [hi]

variable {status : CoinpayStatus}

theorem pending_createCoinpayStatus (hs : status ≠ .pending) (m : OrderMatch) :
    (createCoinpayStatus b idx status).pending m = (b.pending m && decide (m.index ≠ idx)) := by
  unfold createCoinpayStatus Book.pending
  rw [any_map]
  by_cases h : m.index = idx
  · rw [any_eq_false.mpr]
    · simp [h]
    · intro ob _
      by_cases ho : ob.index = idx <;> simp [ho, h, hs]
  · simp only [h, not_false_eq_true, decide_true, Bool.and_true, ne_eq]
    congr 1
    funext ob
    by_cases ho : ob.index = idx
    · have : ¬ idx = m.index := fun e => h e.symm
      simp [ho, this]
    · simp [ho]

/-- Resolving the obligation of a match takes its leg off both orders' pending legs. -/
theorem pendingLegs_createCoinpayStatus (hnd : (b.matched.map (·.index)).Nodup) {m : OrderMatch}
    (hm : m ∈ b.matched) (hp : b.pending m) (hs : status ≠ .pending)
    (idx : ℕ) : pendingLegs (createCoinpayStatus b m.index status) idx =
      pendingLegs b idx - if m.involves idx then m.gives idx else 0 := by
  obtain ⟨as, bs, hab⟩ := append_of_mem hm
  have hne : ∀ x ∈ as ++ bs, x.index ≠ m.index := by
    rw [hab, map_append, nodup_append] at hnd
    obtain ⟨_, h2, h3⟩ := hnd
    intro x hx
    rcases mem_append.mp hx with hx | hx
    · exact h3 x.index (mem_map.mpr ⟨x, hx, rfl⟩) m.index (by simp)
    · have := (nodup_cons.mp h2).1
      exact fun e => this (mem_map.mpr ⟨x, hx, e⟩)
  have hkeep : ∀ l : List OrderMatch, (∀ x ∈ l, x.index ≠ m.index) →
      l.filter (fun x => x.involves idx && (createCoinpayStatus b m.index status).pending x) =
        l.filter fun x => x.involves idx && b.pending x := fun l hl =>
    filter_congr fun x hx => by
      rw [pending_createCoinpayStatus hs]
      simp [hl x hx]
  show ((b.matched.filter _).map _).sum = ((b.matched.filter _).map _).sum - _
  rw [hab, filter_append, filter_append, hkeep as (fun x hx => hne x (by simp [hx])),
    filter_cons_of_neg (by rw [pending_createCoinpayStatus hs]; simp),
    hkeep bs (fun x hx => hne x (by simp [hx]))]
  by_cases hi : m.involves idx = true
  · rw [filter_cons_of_pos (by simp [hi, hp])]
    simp only [map_append, map_cons, sum_append, sum_cons, hi, if_true]
    ring
  · simp [hi]

theorem account_updateOrderMatchStatus (b : Book) (idx : ℕ) (status : MatchStatus) (o : Order) :
    account (updateOrderMatchStatus b idx status) o = account b o := by
  have hf : ∀ m : OrderMatch, (if m.index = idx then { m with status } else m).involves = m.involves ∧
      (if m.index = idx then { m with status } else m).gives = m.gives ∧
      (if m.index = idx then { m with status } else m).gets = m.gets ∧
      (if m.index = idx then { m with status } else m).index = m.index := fun m => by
    split_ifs <;> exact ⟨rfl, rfl, rfl, rfl⟩
  refine Account.ext rfl ?_ ?_
  · show (getOrderAmountsRemaining _ o).give = (getOrderAmountsRemaining b o).give
    unfold getOrderAmountsRemaining updateOrderMatchStatus
    rw [filter_map, foldl_map]
    simp only [Function.comp_def, (hf _).1, subtractMatch, (hf _).2.1, (hf _).2.2.1]
    rfl
  · show pendingLegs _ _ = pendingLegs _ _
    unfold pendingLegs getPendingCoinpayObligationsByOrder updateOrderMatchStatus Book.pending
    rw [filter_map, map_map]
    simp only [Function.comp_def, (hf _).1, (hf _).2.1, (hf _).2.2.2]

end XChainIndexer.Orders.Escrow
