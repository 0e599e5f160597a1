import XChainIndexer.Orders.Escrow

/-! # What every book satisfies

`Keys` collects what holds of the rows of a book whatever the amounts are: indices are fresh and
distinct, and a match with a pending obligation pairs one order that gives coin with one that does
not. `Wf` adds that the amounts a token order has given and has left are exact ledger amounts. Both are
kept by whatever `Rewrites` a book, which the handlers do but for new orders and matches. -/

namespace XChainIndexer.Orders.Invariant

open Bcmath Orders.Tables List Orders.Escrow
open Lib.Keyed (Below)

/-- The GIVE side of a token order is in exact ledger amounts. -/
structure GivesExactly (sc : Scales) (b : Book) (o : Order) (tick : ℕ) : Prop where
  remaining_fits : Fits (sc.precision tick) (getOrderAmountsRemaining b o).give
  remaining_nonneg : 0 ≤ (getOrderAmountsRemaining b o).give
  leg_fits : ∀ m ∈ b.matched, m.involves o.index → Fits (sc.precision tick) (m.gives o.index)
  leg_nonneg : ∀ m ∈ b.matched, m.involves o.index → 0 ≤ m.gives o.index

/-- The two orders of a match exist and exactly one of them gives coin. -/
def OnePaysCoin (b : Book) (m : OrderMatch) : Prop :=
  ∃ maker taker, b.find m.giveActionIndex = some maker ∧ b.find m.getActionIndex = some taker ∧
    (maker.give.tick = none ↔ taker.give.tick ≠ none)

structure Keys (b : Book) : Prop where
  orders_nodup : (b.orders.map (·.index)).Nodup
  orders_lt : ∀ o ∈ b.orders, o.index < b.nextIndex
  matched_nodup : (b.matched.map (·.index)).Nodup
  matched_lt : ∀ m ∈ b.matched, m.index < b.nextIndex
  parties_lt : ∀ m ∈ b.matched, m.giveActionIndex < b.nextIndex ∧ m.getActionIndex < b.nextIndex
  obligations_lt : ∀ ob ∈ b.obligations, ob.index < b.nextIndex
  escrows_lt : ∀ e ∈ b.escrows, e.order < b.nextIndex
  credits_lt : ∀ e ∈ b.credits, e.order < b.nextIndex
  one_tick : ∀ o ∈ b.orders, o.give.tick = none → o.get.tick ≠ none
  roles : ∀ m ∈ b.matched, b.pending m → OnePaysCoin b m

structure Wf (sc : Scales) (b : Book) : Prop extends Keys b where
  amounts : ∀ o ∈ b.orders, 0 ≤ o.give.amount ∧ 0 < o.get.amount
  gives : ∀ o ∈ b.orders, ∀ t a, o.give = .token t a → GivesExactly sc b o t

variable {sc : Scales} {b : Book} {o : Order}

theorem Keys.find (h : Keys b) (ho : o ∈ b.orders) : b.find o.index = some o :=
  find_of_mem h.orders_nodup ho

variable {o' : Order}

theorem Keys.eq_of_index (h : Keys b) (ho : o ∈ b.orders) (ho' : o' ∈ b.orders)
    (hi : o.index = o'.index) : o = o' := by
  have := h.find ho
  rw [hi, h.find ho', Option.some.injEq] at this
  exact this.symm

variable {t : ℕ} {a : ℚ}

theorem pendingLegs_nonneg (h : Wf sc b) (ho : o ∈ b.orders) (hg : o.give = .token t a) :
    0 ≤ pendingLegs b o.index := by
  refine sum_nonneg fun x hx => ?_
  obtain ⟨m, hm, rfl⟩ := mem_map.mp hx
  obtain ⟨hm1, hm2⟩ := mem_filter.mp hm
  rw [Bool.and_eq_true] at hm2
  exact (h.gives o ho t a hg).leg_nonneg m hm1 hm2.1

variable {b' : Book}

theorem GivesExactly.congr (h : GivesExactly sc b o t) (hm : b'.matched = b.matched) :
    GivesExactly sc b' o t := by
  obtain ⟨h1, h2, h3, h4⟩ := h
  rw [← remaining_congr hm] at h1 h2
  rw [← hm] at h3 h4
  exact ⟨h1, h2, h3, h4⟩

variable {m : OrderMatch}

theorem OnePaysCoin.congr (h : OnePaysCoin b m) (ho : b'.orders = b.orders) : OnePaysCoin b' m := by
  unfold OnePaysCoin Book.find at h ⊢
  rw [ho]
  exact h

/-! ### What no handler changes -/

/-- The fields of an order that are written once. -/
structure Terms where
  index : ℕ
  source : ℕ
  getAddress : ℕ
  give : Side
  get : Side
deriving DecidableEq

def terms (o : Order) : Terms := ⟨o.index, o.source, o.getAddress, o.give, o.get⟩

/-- The fields of a match row that are written once. -/
structure Legs where
  index : ℕ
  giveActionIndex : ℕ
  getActionIndex : ℕ
  giveAmount : ℚ
  getAmount : ℚ

def legs (m : OrderMatch) : Legs :=
  ⟨m.index, m.giveActionIndex, m.getActionIndex, m.giveAmount, m.getAmount⟩

/-- The rows say what they said, and no index is given back. -/
structure Same (b b' : Book) : Prop where
  orders : b'.orders.map terms = b.orders.map terms
  matched : b'.matched.map legs = b.matched.map legs
  next : b.nextIndex ≤ b'.nextIndex

/-- And no obligation is new or pending again, and the new ledger rows are of `known` orders. -/
structure Rewrites (known : ℕ → Prop) (b b' : Book) : Prop extends Same b b' where
  obligations : b'.obligations.map (·.index) = b.obligations.map (·.index)
  pending : ∀ m, b'.pending m = true → b.pending m = true
  ledger : ∀ e ∈ b'.escrows ++ b'.credits, e ∈ b.escrows ++ b.credits ∨ known e.order

section same

variable {b' b'' : Book} {known : ℕ → Prop}

theorem sameTerms_of_eq (h : terms o = terms o') : SameTerms o o' :=
  ⟨congrArg Terms.index h.symm, congrArg Terms.source h.symm, congrArg Terms.give h.symm,
    congrArg Terms.get h.symm⟩

section
variable (h : Same b b')
include h

theorem Same.find {i : ℕ} (hf : b.find i = some o) : ∃ o', b'.find i = some o' ∧ SameTerms o o' := by
  have hmap (b : Book) : (b.find i).map terms = (b.orders.map terms).find? fun t => t.index = i := by
    rw [find?_map]
    rfl
  have heq := (hmap b').trans ((congrArg _ h.orders).trans (hmap b).symm)
  rw [hf] at heq
  obtain ⟨o', hf', ht⟩ := Option.map_eq_some_iff.mp heq
  exact ⟨o', hf', sameTerms_of_eq ht.symm⟩

theorem Same.mem_order (ho : o' ∈ b'.orders) : ∃ o ∈ b.orders, SameTerms o o' := by
  obtain ⟨o, hmem, ht⟩ := mem_map.mp (h.orders ▸ mem_map_of_mem ho)
  exact ⟨o, hmem, sameTerms_of_eq ht⟩

theorem Same.mem_match {m' : OrderMatch} (hm : m' ∈ b'.matched) :
    ∃ m ∈ b.matched, m.index = m'.index ∧ m.giveActionIndex = m'.giveActionIndex ∧
      m.getActionIndex = m'.getActionIndex ∧ m.gives = m'.gives := by
  obtain ⟨m, hmem, hl⟩ := mem_map.mp (h.matched ▸ mem_map_of_mem hm)
  simp only [legs, Legs.mk.injEq] at hl
  obtain ⟨h1, h2, h3, h4, h5⟩ := hl
  exact ⟨m, hmem, h1, h2, h3, funext fun i => by simp only [OrderMatch.gives, h3, h4, h5]⟩

theorem Same.remaining (ho : SameTerms o o') :
    getOrderAmountsRemaining b' o' = getOrderAmountsRemaining b o := by
  have hlegs (b : Book) : getOrderAmountsRemaining b o = ((b.matched.map legs).filter
      fun l => l.giveActionIndex = o.index || l.getActionIndex = o.index).foldl
      (fun r l => r.after (if l.getActionIndex = o.index then l.giveAmount else l.getAmount)
        (if l.getActionIndex = o.index then l.getAmount else l.giveAmount))
      ⟨o.give.amount, o.get.amount⟩ := by
    rw [filter_map, foldl_map]
    rfl
  rw [ho.remaining, hlegs, hlegs, h.matched]

end

theorem GivesExactly.of_same (hg : GivesExactly sc b o t) (h : Same b b') (ho : SameTerms o o') :
    GivesExactly sc b' o' t := by
  have hleg {m' : OrderMatch} (hm' : m' ∈ b'.matched) (hinv : m'.involves o'.index) :
      ∃ m ∈ b.matched, m.involves o.index ∧ m'.gives o'.index = m.gives o.index := by
    obtain ⟨m, hm, _, h2, h3, h4⟩ := h.mem_match hm'
    unfold OrderMatch.involves at hinv ⊢
    rw [← h2, ← h3, ho.index] at hinv
    exact ⟨m, hm, hinv, by rw [h4, ho.index]⟩
  refine ⟨h.remaining ho ▸ hg.remaining_fits, h.remaining ho ▸ hg.remaining_nonneg,
    fun m' hm' hinv => ?_, fun m' hm' hinv => ?_⟩ <;> obtain ⟨m, hm, hi, hgives⟩ := hleg hm' hinv
  · exact hgives ▸ hg.leg_fits m hm hi
  · exact hgives ▸ hg.leg_nonneg m hm hi

theorem Keys.of_rewrites (hk : Keys b) (h : Rewrites (fun i => i < b.nextIndex) b b') : Keys b' := by
  have hledger : ∀ e ∈ b'.escrows ++ b'.credits, e.order < b'.nextIndex := fun e he => by
    refine lt_of_lt_of_le ?_ h.next
    rcases h.ledger e he with he | he
    · rcases mem_append.mp he with he | he
      · exact hk.escrows_lt e he
      · exact hk.credits_lt e he
    · exact he
  have horders := congrArg (List.map Terms.index) h.orders
  have hmatched := congrArg (List.map Legs.index) h.matched
  rw [map_map, map_map] at horders hmatched
  refine ⟨horders ▸ hk.orders_nodup, fun o' ho' => ?_, hmatched ▸ hk.matched_nodup, fun m' hm' => ?_,
    fun m' hm' => ?_, fun ob hob => ?_, fun e he => hledger e (mem_append_left _ he),
    fun e he => hledger e (mem_append_right _ he), fun o' ho' => ?_, fun m' hm' hp => ?_⟩
  · obtain ⟨o, ho, ht⟩ := h.mem_order ho'
    exact ht.index ▸ (hk.orders_lt o ho).trans_le h.next
  · obtain ⟨m, hm, h1, _⟩ := h.mem_match hm'
    exact h1 ▸ (hk.matched_lt m hm).trans_le h.next
  · obtain ⟨m, hm, _, h2, h3, _⟩ := h.mem_match hm'
    have hlt := hk.parties_lt m hm
    exact ⟨h2 ▸ hlt.1.trans_le h.next, h3 ▸ hlt.2.trans_le h.next⟩
  · obtain ⟨ob', hob', hi⟩ := mem_map.mp (h.obligations ▸ mem_map_of_mem hob)
    exact hi ▸ (hk.obligations_lt ob' hob').trans_le h.next
  · obtain ⟨o, ho, ht⟩ := h.mem_order ho'
    rw [ht.give, ht.get]
    exact hk.one_tick o ho
  · obtain ⟨m, hm, h1, h2, h3, _⟩ := h.mem_match hm'
    have hp' : b.pending m := by
      have := h.pending m' hp
      unfold Book.pending at this ⊢
      rwa [h1]
    obtain ⟨maker, taker, e1, e2, e3⟩ := hk.roles m hm hp'
    obtain ⟨maker', e1', ht1⟩ := h.find e1
    obtain ⟨taker', e2', ht2⟩ := h.find e2
    exact ⟨maker', taker', h2 ▸ e1', h3 ▸ e2', by rw [ht1.give, ht2.give]; exact e3⟩

theorem Wf.of_rewrites (hw : Wf sc b) (h : Rewrites (fun i => i < b.nextIndex) b b') : Wf sc b' := by
  refine ⟨hw.toKeys.of_rewrites h, fun o' ho' => ?_, fun o' ho' t a hg => ?_⟩
  · obtain ⟨o, ho, ht⟩ := h.mem_order ho'
    rw [ht.give, ht.get]
    exact hw.amounts o ho
  · obtain ⟨o, ho, ht⟩ := h.mem_order ho'
    exact (hw.gives o ho t a (ht.give ▸ hg)).of_same h.toSame ht

/-! ### The writes -/

theorem Rewrites.trans (h : Rewrites known b b') (h' : Rewrites known b' b'') :
    Rewrites known b b'' where
  orders := h'.orders.trans h.orders
  matched := h'.matched.trans h.matched
  next := h.next.trans h'.next
  obligations := h'.obligations.trans h.obligations
  pending m hp := h.pending m (h'.pending m hp)
  ledger e he := (h'.ledger e he).elim (h.ledger e) Or.inr

section
variable (b : Book)

/-- New ledger rows of known orders, another gate and a higher counter. -/
theorem same_ledger {es cs : List Entry} (hk : ∀ e ∈ es ++ cs, known e.order)
    (gate : ℕ → Option ℕ) {n : ℕ} (hn : b.nextIndex ≤ n) : Rewrites known b
      { b with escrows := b.escrows ++ es, credits := b.credits ++ cs, gate, nextIndex := n } where
  orders := rfl
  matched := rfl
  next := hn
  obligations := rfl
  pending _ hp := hp
  ledger e he := by
    grind

theorem same_frame (gate : ℕ → Option ℕ) {n : ℕ} (hn : b.nextIndex ≤ n) :
    Rewrites known b { b with gate, nextIndex := n } := by
  have := @same_ledger known b [] [] (by simp) gate n hn
  rwa [append_nil, append_nil] at this

theorem Rewrites.refl : Rewrites known b b := same_frame b b.gate le_rfl

theorem same_bump : Rewrites known b b.bump :=
  same_frame b b.gate (Nat.le_succ _)

end

theorem Keys.bump (h : Keys b) : Keys b.bump :=
  h.of_rewrites (same_bump b)

theorem Wf.bump (h : Wf sc b) : Wf sc b.bump :=
  h.of_rewrites (same_bump b)

section
variable (b : Book) (idx : ℕ)

theorem same_updateOrder {f : Order → Order} (hf : ∀ o, terms (f o) = terms o) :
    Rewrites known b (updateOrder b idx f) where
  orders := by
    unfold updateOrder
    rw [map_map]
    refine map_congr_left fun o _ => ?_
    simp only [Function.comp]
    split_ifs
    · exact hf o
    · rfl
  matched := rfl
  next := le_rfl
  obligations := rfl
  pending _ hp := hp
  ledger _ := Or.inl

theorem same_status (status : OrderStatus) : Rewrites known b (createOrderStatus b idx status) :=
  same_updateOrder b idx fun _ => rfl

theorem same_matchStatus (status : MatchStatus) :
    Rewrites known b (updateOrderMatchStatus b idx status) where
  orders := rfl
  matched := by
    unfold updateOrderMatchStatus
    rw [map_map]
    refine map_congr_left fun m _ => ?_
    simp only [Function.comp]
    split_ifs <;> rfl
  next := le_rfl
  obligations := rfl
  pending _ hp := hp
  ledger _ := Or.inl

theorem same_coinpayStatus {status : CoinpayStatus} (hs : status ≠ .pending) :
    Rewrites known b (createCoinpayStatus b idx status) where
  orders := rfl
  matched := rfl
  next := le_rfl
  obligations := by
    unfold createCoinpayStatus
    rw [map_map]
    refine map_congr_left fun ob _ => ?_
    simp only [Function.comp]
    split_ifs <;> rfl
  pending m hp := by
    rw [pending_createCoinpayStatus hs, Bool.and_eq_true] at hp
    exact hp.1
  ledger _ := Or.inl

end

section
variable (b : Book) (blk : Block) (ho : known o.index)
include ho

theorem same_release (t : ℕ) (x : ℚ) (d dest : ℕ) : Rewrites known b (release blk b o t x d dest) :=
  same_ledger b (by simpa using ho) b.gate le_rfl

theorem same_lock (t : ℕ) (x : ℚ) : Rewrites known b (lock blk b o t x) := by
  have := @same_ledger known b [⟨o.index, o.source, bcadd x 0 (blk.writeScale t)⟩] []
    (by simpa using ho) b.gate _ le_rfl
  rwa [append_nil] at this

theorem same_giveOut (x : ℚ) (d : ℕ → ℕ) (dest : ℕ) : Rewrites known b (giveOut blk b o x d dest) := by
  unfold giveOut
  split
  · exact same_frame b _ le_rfl
  · exact same_release b blk ho _ _ _ _
  · exact .refl b

end

end same

/-! ### New rows -/

theorem find_append (b : Book) {i n : ℕ} (h : o.index ≠ i) :
    Book.find { b with orders := b.orders ++ [o], nextIndex := n } i = b.find i := by
  unfold Book.find
  simp [h]

theorem Keys.addOrder (h : Keys b) (hi : o.index = b.nextIndex)
    (ht : o.give.tick = none → o.get.tick ≠ none) :
    Keys { b with orders := b.orders ++ [o], nextIndex := b.nextIndex + 1 } where
  orders_nodup := (Below.append ⟨h.orders_nodup, h.orders_lt⟩ hi).nodup
  orders_lt := (Below.append ⟨h.orders_nodup, h.orders_lt⟩ hi).lt
  matched_nodup := h.matched_nodup
  matched_lt := fun m hm => Nat.lt_succ_of_lt (h.matched_lt m hm)
  parties_lt := fun m hm =>
    ⟨Nat.lt_succ_of_lt (h.parties_lt m hm).1, Nat.lt_succ_of_lt (h.parties_lt m hm).2⟩
  obligations_lt := fun ob hob => Nat.lt_succ_of_lt (h.obligations_lt ob hob)
  escrows_lt := fun e he => Nat.lt_succ_of_lt (h.escrows_lt e he)
  credits_lt := fun e he => Nat.lt_succ_of_lt (h.credits_lt e he)
  one_tick := fun o' ho' => by
    rcases mem_append.mp ho' with ho' | ho'
    · exact h.one_tick o' ho'
    · rw [mem_singleton] at ho'
      exact ho' ▸ ht
  roles := fun m hm hp => by
    obtain ⟨maker, taker, h1, h2, h3⟩ := h.roles m hm hp
    have := h.parties_lt m hm
    exact ⟨maker, taker, by rw [find_append b (by omega)]; exact h1,
      by rw [find_append b (by omega)]; exact h2, h3⟩

theorem Keys.not_involves (h : Keys b) (hm : m ∈ b.matched) : ¬ m.involves b.nextIndex := by
  intro hinv
  have := h.parties_lt m hm
  unfold OrderMatch.involves at hinv
  simp only [Bool.or_eq_true, decide_eq_true_eq] at hinv
  omega

theorem Wf.addOrder (h : Wf sc b) (hi : o.index = b.nextIndex)
    (ha : 0 ≤ o.give.amount ∧ 0 < o.get.amount) (ht : o.give.tick = none → o.get.tick ≠ none)
    (hf : ∀ t a, o.give = .token t a → Fits (sc.precision t) a) :
    Wf sc { b with orders := b.orders ++ [o], nextIndex := b.nextIndex + 1 } := by
  refine ⟨h.toKeys.addOrder hi ht, fun o' ho' => ?_, fun o' ho' t a hga => ?_⟩
  · rcases mem_append.mp ho' with ho' | ho'
    · exact h.amounts o' ho'
    · rw [mem_singleton] at ho'
      exact ho' ▸ ha
  · rcases mem_append.mp ho' with ho' | ho'
    · exact (h.gives o' ho' t a hga).congr rfl
    · rw [mem_singleton] at ho'
      subst ho'
      have hr : getOrderAmountsRemaining
          { b with orders := b.orders ++ [o'], nextIndex := b.nextIndex + 1 } o' = _ :=
        remaining_of_fresh (fun m hm => hi ▸ h.parties_lt m hm)
      have hno : ∀ m ∈ b.matched, ¬ m.involves o'.index = true := fun m hm => by
        rw [hi]
        exact h.not_involves hm
      have hg : o'.give.amount = a := by rw [hga]; rfl
      refine ⟨?_, ?_, fun m hm hinv => absurd hinv (hno m hm), fun m hm hinv =>
        absurd hinv (hno m hm)⟩
      · rw [hr]
        exact hg ▸ hf t a hga
      · rw [hr]
        exact ha.1

/-- What a new match row may take from the orders that give tokens. -/
def LegsOk (sc : Scales) (b : Book) (row : OrderMatch) : Prop :=
  ∀ o ∈ b.orders, ∀ t a, o.give = .token t a → row.involves o.index →
    0 ≤ row.gives o.index ∧ row.gives o.index ≤ (getOrderAmountsRemaining b o).give ∧
      Fits (sc.precision t) (row.gives o.index)

section
variable (h : Wf sc b) {row : OrderMatch} (hlegs : LegsOk sc b row) (ho : o ∈ b.orders)
  (hg : o.give = .token t a)
include h hlegs ho hg

theorem remaining_addMatch (hi : row.involves o.index) :
    (getOrderAmountsRemaining { b with matched := b.matched ++ [row] } o).give =
      (getOrderAmountsRemaining b o).give - row.gives o.index := by
  obtain ⟨g1, _, _, _⟩ := h.gives o ho t a hg
  obtain ⟨_, _, l3⟩ := hlegs o ho t a hg hi
  have hp := sc.precision_le t
  rw [remaining_append, if_pos hi]
  exact bcsub_of_fits g1 l3 hp (by omega)

theorem GivesExactly.addMatch : GivesExactly sc { b with matched := b.matched ++ [row] } o t := by
  obtain ⟨g1, g2, g3, g4⟩ := h.gives o ho t a hg
  by_cases hi : row.involves o.index
  · obtain ⟨l1, l2, l3⟩ := hlegs o ho t a hg hi
    have hr := remaining_addMatch h hlegs ho hg hi
    refine ⟨?_, ?_, fun m hm hinv => ?_, fun m hm hinv => ?_⟩
    · rw [hr]
      refine ⟨g1.1.sub l3.1, ?_⟩
      have := lt_of_le_of_lt (le_abs_self _) g1.2
      rw [abs_of_nonneg (by linarith)]
      linarith
    · linarith
    · rcases mem_append.mp hm with hm | hm
      · exact g3 m hm hinv
      · exact mem_singleton.mp hm ▸ l3
    · rcases mem_append.mp hm with hm | hm
      · exact g4 m hm hinv
      · exact mem_singleton.mp hm ▸ l1
  · have hr : getOrderAmountsRemaining { b with matched := b.matched ++ [row] } o =
        getOrderAmountsRemaining b o := by
      rw [remaining_append, if_neg hi]
    refine ⟨by rw [hr]; exact g1, by rw [hr]; exact g2, fun m hm hinv => ?_, fun m hm hinv => ?_⟩
    · rcases mem_append.mp hm with hm | hm
      · exact g3 m hm hinv
      · exact absurd (mem_singleton.mp hm ▸ hinv) hi
    · rcases mem_append.mp hm with hm | hm
      · exact g4 m hm hinv
      · exact absurd (mem_singleton.mp hm ▸ hinv) hi

end

theorem Keys.addMatch (h : Keys b) (row : OrderMatch) {obs : List Obligation}
    (hlt : row.index < b.nextIndex) (hnew : ∀ m ∈ b.matched, m.index < row.index)
    (hparties : row.giveActionIndex < b.nextIndex ∧ row.getActionIndex < b.nextIndex)
    (hobs : ∀ ob ∈ obs, ob.index = row.index) (hold : ∀ ob ∈ b.obligations, ob.index < row.index)
    (hroles : obs ≠ [] → OnePaysCoin b row) :
    Keys { b with matched := b.matched ++ [row], obligations := b.obligations ++ obs } where
  orders_nodup := h.orders_nodup
  orders_lt := h.orders_lt
  matched_nodup := (Below.append ⟨h.matched_nodup, hnew⟩ rfl).nodup
  matched_lt := fun m hm => by
    rcases mem_append.mp hm with hm | hm
    · exact h.matched_lt m hm
    · exact mem_singleton.mp hm ▸ hlt
  parties_lt := fun m hm => by
    rcases mem_append.mp hm with hm | hm
    · exact h.parties_lt m hm
    · exact mem_singleton.mp hm ▸ hparties
  obligations_lt := fun ob hob => by
    rcases mem_append.mp hob with hob | hob
    · exact h.obligations_lt ob hob
    · rw [hobs ob hob]
      exact hlt
  escrows_lt := h.escrows_lt
  credits_lt := h.credits_lt
  one_tick := h.one_tick
  roles := fun m hm hp => by
    have hsplit : b.pending m ∨ ∃ ob ∈ obs, ob.index = m.index := by
      unfold Book.pending at hp ⊢
      simp only [any_append, Bool.or_eq_true] at hp
      rcases hp with hp | hp
      · exact .inl hp
      · obtain ⟨ob, hob, hpo⟩ := any_eq_true.mp hp
        simp only [Bool.and_eq_true, decide_eq_true_eq] at hpo
        exact .inr ⟨ob, hob, hpo.1⟩
    rcases mem_append.mp hm with hm | hm
    · rcases hsplit with hp | ⟨ob, hob, he⟩
      · exact (h.roles m hm hp).congr rfl
      · have := hnew m hm
        rw [hobs ob hob] at he
        omega
    · rw [mem_singleton] at hm
      subst hm
      rcases hsplit with hp | ⟨ob, hob, _⟩
      · obtain ⟨ob, hob, hpo⟩ := any_eq_true.mp hp
        simp only [Bool.and_eq_true, decide_eq_true_eq] at hpo
        have := hold ob hob
        omega
      · exact (hroles (ne_nil_of_mem hob)).congr rfl

end XChainIndexer.Orders.Invariant
