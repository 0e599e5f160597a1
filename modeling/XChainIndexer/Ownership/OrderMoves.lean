import XChainIndexer.Orders.Roles
import XChainIndexer.Ownership.OrderGate

/-! # What the order handlers do to the ownership gate

A create takes a free gate; every handler that opens the gate drops the claim of the order it closes
(`orderMove_step`). COINPAY_EXPIRE is the exception the condition `OrderGuarded` is about: it opens the
gate of the seller whether the seller is parked, and closed here, or still open. -/

namespace XChainIndexer.Ownership.OrderMoves

open Bcmath Lib.Holder List Orders Orders.Tables Orders.Match Orders.Step Orders.Escrow Orders.Invariant
open Orders.Handlers Orders.Pass Orders.Steps
open Orders.Roles (Extended extended_of_step)
open Orders.Fates Ownership.OrderGate

variable {b b' : Book} {blk : Block} {o : Order}

/-! ### ORDER create -/

theorem find_nextIndex (hk : Keys b) : b.find b.nextIndex = none := by
  refine find?_eq_none.mpr fun o ho => ?_
  have := hk.orders_lt o ho
  simp only [decide_eq_true_eq]
  omega

theorem find_createOrder (hk : Keys b) (blk : Block) (sp : OrderSpec) (i : ℕ) :
    (createOrder blk b sp).find i = if i = b.nextIndex then some (sp.row b.nextIndex) else b.find i := by
  have happ : (createOrder blk b sp).find i =
      (b.find i).or ([sp.row b.nextIndex].find? fun o => o.index = i) := by
    unfold Book.find
    rw [createOrder_orders, find?_append]
  rw [happ]
  by_cases hi : i = b.nextIndex
  · rw [if_pos hi, hi, find_nextIndex hk, Option.none_or]
    exact find?_cons_of_pos (by simp [OrderSpec.row])
  · have hne : b.nextIndex ≠ i := fun h => hi h.symm
    rw [if_neg hi, find?_cons_of_neg (by simp [OrderSpec.row, hne]), find?_nil, Option.or_none]

/-- What an order handler does to the gate and the claims on it. -/
inductive OrderMove (b b' : Book) : Prop
  | drops (h : Drops (register b) (register b'))
  | takes (t : ℕ) (hfree : b.gate t = none)
      (h : ((register b).take t b.nextIndex).Same (register b'))

theorem createOrder_gate (blk : Block) (b : Book) (sp : OrderSpec) :
    (createOrder blk b sp).gate = match sp.give with
      | .ownership t => fun t' => if t' = t then some b.nextIndex else b.gate t'
      | _ => b.gate := by
  unfold createOrder
  split <;> rename_i h <;> rw [h] <;> rfl

theorem liveOrder_createOrder (hk : Keys b) (sp : OrderSpec) (t i : ℕ) :
    liveOrder (createOrder blk b sp) t i ↔ liveOrder b t i ∨ (sp.give = .ownership t ∧ i = b.nextIndex) := by
  unfold liveOrder
  rw [find_createOrder hk]
  by_cases hi : i = b.nextIndex
  · rw [if_pos hi, hi, find_nextIndex hk]
    constructor
    · rintro ⟨o, ho, hg, _⟩
      obtain ⟨⟩ := ho
      exact .inr ⟨hg, rfl⟩
    · rintro (⟨o, ho, _⟩ | ⟨hg, _⟩)
      · simp at ho
      · exact ⟨_, rfl, hg, rfl⟩
  · rw [if_neg hi]
    constructor
    · exact Or.inl
    · rintro (hl | hl)
      · exact hl
      · exact absurd hl.2 hi

theorem move_createOrder (hk : Keys b) {sp : OrderSpec} (hacc : sp.accepted blk b) :
    OrderMove b (createOrder blk b sp) := by
  cases hg : sp.give with
  | ownership t =>
    have hfree : b.gate t = none := by
      unfold OrderSpec.accepted at hacc
      simp only [Bool.and_eq_true, decide_eq_true_eq, hg] at hacc
      exact hacc.1.2
    refine .takes t hfree ⟨fun t' => ?_, fun t' i => ?_⟩
    · show (createOrder blk b sp).gate t' = _
      rw [createOrder_gate, hg]
      rfl
    · show liveOrder _ t' i ↔ liveOrder b t' i ∨ (t' = t ∧ i = b.nextIndex)
      rw [liveOrder_createOrder hk, hg, Side.ownership.injEq, eq_comm]
  | coin a | token t a =>
    refine .drops (.same ⟨fun t' => ?_, fun t' i => ?_⟩)
    · show (createOrder blk b sp).gate t' = _
      rw [createOrder_gate, hg]
      rfl
    · show liveOrder _ t' i ↔ liveOrder b t' i
      rw [liveOrder_createOrder hk, hg]
      simp

theorem ownershipOk_createOrder (hk : Keys b) (h : AllOwnershipOk b) (sp : OrderSpec) :
    AllOwnershipOk (createOrder blk b sp) := by
  obtain ⟨hm, hob⟩ : (createOrder blk b sp).matched = b.matched ∧
      (createOrder blk b sp).obligations = b.obligations := by
    unfold createOrder
    split <;> exact ⟨rfl, rfl⟩
  intro i o ho hown
  obtain ⟨hrows, hpend⟩ := rows_congr hm hob o.index
  rw [find_createOrder hk] at ho
  split_ifs at ho with hi
  · -- the new order has no match yet
    obtain ⟨⟩ := ho
    have hnil : rowsOf b b.nextIndex = [] :=
      filter_eq_nil_iff.mpr fun m hm => hk.not_involves hm
    refine ⟨Or.inl (hrows.trans hnil), fun hne => absurd (hpend.trans ?_) hne⟩
    show getPendingCoinpayObligationsByOrder _ b.nextIndex = []
    rw [pending_eq_filter, hnil]
    rfl
  · obtain ⟨h1, h2⟩ := h i o ho hown
    exact ⟨by rw [hrows]; exact h1, fun hne => h2 (by rw [← hpend]; exact hne)⟩

/-! ### Closing and editing an order -/

section close

variable {info : OrderInfo} {park : Order → Order} {st : OrderStatus} (dest : ℕ)

theorem closeOrder_gate : (closeOrder blk b info dest park st).gate =
      if getPendingCoinpayObligationsByOrder b info.order.index ≠ [] then b.gate
      else clears b.gate info.order := by
  unfold closeOrder
  split_ifs
  · rfl
  · exact giveOut_gate blk b _ _ _ dest

theorem drops_closeOrder (hfind : b.find info.order.index = some info.order)
    (hlive : info.order.give.isOwnership → closed info.order.status = false)
    (hp : ∀ o, SameTerms o (park o) ∧ closed (park o).status = false) (hst : closed st) :
    Drops (register b) (register (closeOrder blk b info dest park st)) := by
  by_cases hpend : getPendingCoinpayObligationsByOrder b info.order.index ≠ []
  · have hcl : closing b info.order.index park st = park := if_pos hpend
    refine drops_of_shuts [] (by simp) (by simp) nodup_nil ?_
      ⟨_, find_closeOrder dest fun o => (hp o).1, fun i x hx => ?_⟩
    · rw [closeOrder_gate, if_pos hpend]
      rfl
    · rw [hcl]
      split_ifs with hi
      · have hxe : x = info.order := by
          rw [← (find_some hx).2, hi, hfind, Option.some.injEq] at hx
          exact hx.symm
        subst hxe
        exact ⟨(hp _).1.give, fun hown => by rw [(hp _).2, hlive hown]; rfl⟩
      · exact ⟨rfl, fun _ => by simp⟩
  · have hcl : closing b info.order.index park st = fun o => { o with status := st } := if_neg hpend
    refine drops_of_shuts [info.order] (by simpa using hfind) (by simpa using hlive)
      (by simp) ?_ ⟨_, find_closeOrder dest fun o => (hp o).1, fun i x hx => ?_⟩
    · rw [closeOrder_gate, if_neg hpend]
      rfl
    · have hxi := (find_some hx).2
      rw [hcl]
      split_ifs with hi
      · exact ⟨rfl, fun _ => by simp [← hxi, hi, hst]⟩
      · exact ⟨rfl, fun _ => by simp [← hxi, hi]⟩

theorem ownershipOk_closeOrder (h : AllOwnershipOk b)
    (hp : ∀ o, SameTerms o (park o) ∧ closed (park o).status = false) :
    AllOwnershipOk (closeOrder blk b info dest park st) := by
  obtain ⟨hm, hob⟩ : (closeOrder blk b info dest park st).matched = b.matched ∧
      (closeOrder blk b info dest park st).obligations = b.obligations := by
    unfold closeOrder
    split_ifs
    · exact ⟨rfl, rfl⟩
    · exact ⟨giveOut_matched blk b _ _ _ dest, giveOut_obligations blk b _ _ _ dest⟩
  refine h.keep hm hob (find_closeOrder dest fun o => (hp o).1) fun i x hx => ?_
  have hxi := (find_some hx).2
  split_ifs with hi
  · unfold closing
    split_ifs with hpend
    · exact ⟨(hp x).1, fun _ _ => (hp x).2⟩
    · -- closed for good only when nothing is pending
      refine ⟨⟨rfl, rfl, rfl, rfl⟩, fun hne => ?_⟩
      rw [← hxi, hi] at hne
      exact absurd hne hpend
  · exact ⟨SameTerms.refl x, fun _ hc => hc⟩

end close

variable {idx : ℕ}

theorem shuts_update {f : Order → Order}
    (hf : ∀ o, SameTerms o (f o) ∧ (f o).status = o.status) : Shuts [] b (updateOrder b idx f) := by
  refine ⟨_, find_updateOrder b idx f fun o => (hf o).1.index, fun i x _ => ?_⟩
  split_ifs
  · exact ⟨(hf x).1.give, fun _ => by rw [(hf x).2]; simp⟩
  · exact ⟨rfl, fun _ => by simp⟩

/-! ### A fill -/

theorem completeIf_gate (b : Book) (idx : ℕ) (r : Remaining) : (completeIf b idx r).gate = b.gate := by
  unfold completeIf
  split_ifs <;> rfl

section fill

variable {r : Remaining} {m : OrderInfo}

section
variable (hf : Meets blk b o r m)
include hf

theorem fill_exact (hown : o.give.isOwnership ∨ m.order.give.isOwnership) :
    (computeFillAmounts blk o r m).giveAmount = o.give.amount ∧
      (computeFillAmounts blk o r m).getAmount = o.get.amount := by
  have ha := hf.admitted
  unfold admits isOwnershipFillExact at ha
  simp only [Bool.and_eq_true] at ha
  have hexact := ha.1.2
  rw [if_pos (by rcases hown with h | h <;> simp [h])] at hexact
  simpa using hexact

theorem maker_opened : m.order.status = .opened :=
  opened_of_isCandidate hf.candidate

theorem get_amount_of_maker (hown : m.order.give.isOwnership) : o.get.amount = 1 := by
  have hmir := hf.mirrors
  unfold ownershipMirrors at hmir
  simp only [Bool.and_eq_true, decide_eq_true_eq] at hmir
  exact amount_of_isOwnership (hmir.1 ▸ hown)

theorem fill_gives_one (idx : ℕ) : (o.give.isOwnership →
      (matchRow idx o m.order (computeFillAmounts blk o r m)).gives o.index = 1) ∧ (m.order.give.isOwnership →
      (matchRow idx o m.order (computeFillAmounts blk o r m)).gives m.order.index = 1) := by
  refine ⟨fun hown => ?_, fun hown => ?_⟩
  · rw [gives_taker, (fill_exact hf (Or.inl hown)).1, amount_of_isOwnership hown]
  · rw [gives_maker idx hf.ne, (fill_exact hf (Or.inr hown)).2, get_amount_of_maker hf hown]

end

theorem finished_of_one {q : Remaining} (h : q.give = 1) (get : ℚ) : (q.after 1 get).finished := by
  have h0 : (q.after 1 get).give = 0 := by
    show bcsub q.give 1 64 = 0
    rw [h]
    unfold bcsub
    rw [sub_self, Fill.format_zero]
  unfold Remaining.finished
  rw [h0]
  simp

section
variable (hf : Meets blk b o r m) (hk : Keys b) (hok : AllOwnershipOk b)
include hf hk hok

theorem fill_rows_nil : (o.give.isOwnership → rowsOf b o.index = []) ∧
      (m.order.give.isOwnership → rowsOf b m.order.index = []) := by
  obtain ⟨h1, _, h3, _⟩ := Fill.room hf.admitted
  refine ⟨fun hown => ?_, fun hown => ?_⟩
  · exact (hok _ o (hk.find hf.taker_mem) hown).rows_nil hown (hf.taker_remaining ▸ h1)
  · exact (hok _ m.order (hk.find hf.maker_mem) hown).rows_nil hown (hf.maker_remaining ▸ h3)

theorem fill_finished : (o.give.isOwnership → (r.after (computeFillAmounts blk o r m).giveAmount
      (computeFillAmounts blk o r m).getAmount).finished) ∧
    (m.order.give.isOwnership → (m.remaining.after (computeFillAmounts blk o r m).getAmount
      (computeFillAmounts blk o r m).giveAmount).finished) := by
  obtain ⟨hro, hrm⟩ := fill_rows_nil hf hk hok
  refine ⟨fun hown => ?_, fun hown => ?_⟩
  · rw [(fill_exact hf (Or.inl hown)).1, amount_of_isOwnership hown]
    refine finished_of_one ?_ _
    rw [hf.taker_remaining, remaining_of_rows_nil (hro hown)]
    exact amount_of_isOwnership hown
  · rw [(fill_exact hf (Or.inr hown)).2, get_amount_of_maker hf hown]
    refine finished_of_one ?_ _
    rw [hf.maker_remaining, remaining_of_rows_nil (hrm hown)]
    exact amount_of_isOwnership hown

end

theorem settleFill_gate (o : Order) (r : Remaining) (m : OrderInfo) (f : Fill) :
    (settleFill blk b o r m f).gate =
      if anyNullTick o m.order = true then b.gate else clears (clears b.gate o) m.order := by
  by_cases hn : anyNullTick o m.order
  · rw [settleFill_native hn, if_pos hn]
    rfl
  · rw [settleFill_instant hn, if_neg hn, completeIf_gate, completeIf_gate]
    unfold settled settleOrderGiveSide
    rw [giveOut_gate, giveOut_gate]
    rfl

/-- An instant fill drops the claims of its parties, a native one leaves them. -/
theorem drops_settleFill (hf : Meets blk b o r m) (hk : Keys b) (hok : AllOwnershipOk b)
    (hopen : o.give.isOwnership → o.status = .opened) : Drops (register b)
      (register (settleFill blk b o r m (computeFillAmounts blk o r m))) := by
  by_cases hn : anyNullTick o m.order
  · refine drops_of_shuts [] (by simp) (by simp) nodup_nil ?_ ⟨_, find_settleFill o r m _, fun i x _ => ?_⟩
    · rw [settleFill_gate, if_pos hn]
      rfl
    · rw [if_pos hn]
      exact ⟨rfl, fun _ => by simp⟩
  · obtain ⟨hfo, hfm⟩ := fill_finished hf hk hok
    have hmaker := hk.find hf.maker_mem
    have htaker := hk.find hf.taker_mem
    refine drops_of_shuts [o, m.order] ?_ ?_ ?_ ?_ ⟨_, find_settleFill o r m _, fun i x hx => ?_⟩
    · simpa using ⟨htaker, hmaker⟩
    · intro x hx hown
      rcases mem_pair.mp hx with rfl | rfl
      · rw [hopen hown]
        rfl
      · rw [maker_opened hf]
        rfl
    · simpa using hf.ne.symm
    · rw [settleFill_gate, if_neg hn]
      rfl
    · have hxi := (find_some hx).2
      rw [if_neg hn]
      have hsame {y : Order} (hy : b.find y.index = some y) (he : x.index = y.index) : x = y :=
        Option.some.inj (hx.symm.trans (hxi ▸ he ▸ hy))
      refine ⟨by split_ifs <;> rfl, fun hown => ?_⟩
      by_cases him : x.index = m.order.index
      · rw [if_pos ⟨him, hfm (hsame hmaker him ▸ hown)⟩]
        simp [closed, ← hxi, him]
      · rw [if_neg fun h => him h.1]
        by_cases hio : x.index = o.index
        · rw [if_pos ⟨hio, hfo (hsame htaker hio ▸ hown)⟩]
          simp [closed, ← hxi, hio]
        · simp [← hxi, him, hio]

theorem settleFill_obligations (o : Order) (r : Remaining) (m : OrderInfo) (f : Fill) :
    (settleFill blk b o r m f).obligations = b.obligations ++
      if anyNullTick o m.order = true then [coinpayObligation blk b.nextIndex o m.order f] else [] := by
  by_cases hn : anyNullTick o m.order
  · rw [settleFill_native hn, if_pos hn]
    rfl
  · rw [settleFill_instant hn, if_neg hn, append_nil]
    rw [(completeIf_frame _ _ _).2, (completeIf_frame _ _ _).2]
    unfold settled settleOrderGiveSide
    rw [giveOut_obligations, giveOut_obligations]
    rfl

theorem pending_settleFill (hk : Keys b) (o : Order) (r : Remaining) (m : OrderInfo) (f : Fill)
    {m' : OrderMatch} (hm' : m' ∈ b.matched) : (settleFill blk b o r m f).pending m' = b.pending m' := by
  have hlt := hk.matched_lt m' hm'
  unfold Book.pending
  rw [settleFill_obligations]
  split_ifs
  · have hne : b.nextIndex ≠ m'.index := by omega
    simp [coinpayObligation, hne]
  · rw [append_nil]

theorem ownershipOk_settleFill (hf : Meets blk b o r m) (hk : Keys b) (hok : AllOwnershipOk b)
    (hopen : o.give.isOwnership → o.status = .opened) :
    AllOwnershipOk (settleFill blk b o r m (computeFillAmounts blk o r m)) := by
  set f := computeFillAmounts blk o r m with hfdef
  set row := matchRow b.nextIndex o m.order f with hrowdef
  have hrows : ∀ i, rowsOf (settleFill blk b o r m f) i =
      rowsOf b i ++ if row.involves i = true then [row] else [] := fun i => by
    unfold rowsOf
    rw [settleFill_matched, filter_append]
    simp only [filter_cons, filter_nil, hrowdef]
  obtain ⟨hro, hrm⟩ := fill_rows_nil hf hk hok
  obtain ⟨hgo, hgm⟩ := fill_gives_one hf b.nextIndex
  intro i x' hx' hown
  rw [find_settleFill, Option.map_eq_some_iff] at hx'
  obtain ⟨x, hx, rfl⟩ := hx'
  obtain ⟨hmem, hxi⟩ := find_some hx
  have hgive : x.give.isOwnership := by
    split_ifs at hown <;> exact hown
  by_cases hinv : row.involves x.index
  · -- a party of the fill: it had no match, and this one takes all it gives
    have hparty : x = m.order ∨ x = o := by
      rcases involves_matchRow.mp hinv with h | h
      · exact .inl (hk.eq_of_index hmem hf.maker_mem h)
      · exact .inr (hk.eq_of_index hmem hf.taker_mem h)
    obtain ⟨hnil, hone, hlive⟩ : rowsOf b x.index = [] ∧ row.gives x.index = 1 ∧ closed x.status = false := by
      rcases hparty with rfl | rfl
      · exact ⟨hrm hgive, hgm hgive, by rw [maker_opened hf]; rfl⟩
      · exact ⟨hro hgive, hgo hgive, by rw [hopen hgive]; rfl⟩
    have hrow : rowsOf (settleFill blk b o r m f) x.index = [row] := by
      rw [hrows, hnil, if_pos hinv]
      rfl
    by_cases hn : anyNullTick o m.order
    · rw [if_pos hn]
      exact ⟨Or.inr ⟨row, hrow, hone⟩, fun _ => hlive⟩
    · have hnp : (settleFill blk b o r m f).pending row = false := by
        unfold Book.pending
        rw [settleFill_obligations, if_neg hn, append_nil]
        exact not_pending_of_fresh hk rfl
      have hpend : getPendingCoinpayObligationsByOrder (settleFill blk b o r m f) x.index = [] := by
        rw [pending_eq_filter, hrow]
        simp [hnp]
      refine ⟨?_, fun hne => absurd ?_ hne⟩
      · split_ifs <;> exact .inr ⟨row, hrow, hone⟩
      · split_ifs <;> exact hpend
  · have hxm : ¬ x.index = m.order.index := fun h => hinv (involves_matchRow.mpr (Or.inl h))
    have hxo : ¬ x.index = o.index := fun h => hinv (involves_matchRow.mpr (Or.inr h))
    have hsame : rowsOf (settleFill blk b o r m f) x.index = rowsOf b x.index := by
      rw [hrows, if_neg hinv, append_nil]
    have hpend : getPendingCoinpayObligationsByOrder (settleFill blk b o r m f) x.index =
        getPendingCoinpayObligationsByOrder b x.index := by
      rw [pending_eq_filter, pending_eq_filter, hsame]
      exact filter_congr fun m' hm' =>
        pending_settleFill hk o r m f (mem_filter.mp hm').1
    simp only [hxm, hxo, false_and, if_false, ite_self]
    obtain ⟨h1, h2⟩ := hok i x hx hgive
    exact ⟨by rw [hsame]; exact h1, fun hne => h2 (by rw [← hpend]; exact hne)⟩

end fill

/-! ### Resolving an obligation -/

theorem finalizeSeller_frame (blk : Block) (b : Book) (seller : OrderInfo) :
    (finalizeSeller blk b seller).gate = b.gate ∧ (finalizeSeller blk b seller).matched = b.matched ∧
      (finalizeSeller blk b seller).obligations = b.obligations := by
  unfold finalizeSeller
  split
  · exact ⟨rfl, rfl, rfl⟩
  · split
    · split_ifs <;> exact ⟨rfl, rfl, rfl⟩
    · exact ⟨rfl, rfl, rfl⟩

section resolve

variable {b₁ : Book} {m : OrderMatch} {seller : Order} {G : Order → Order}

/-- The seller after its last stage. -/
def finalized (b₁ : Book) (seller : Order) (G : Order → Order) (x : Order) : Order :=
  if (G x).index = seller.index then
    { G x with status := (finalStatus b₁ seller).getD (G x).status }
  else G x

theorem find_finalized (blk : Block) (r : Remaining) (hb : ∀ i, b₁.find i = (b.find i).map G) (i : ℕ) :
    (finalizeSeller blk b₁ ⟨seller, r⟩).find i = (b.find i).map (finalized b₁ seller G) := by
  rw [find_finalizeSeller, hb, Option.map_map]
  rfl

variable {x : Order}

theorem sameTerms_finalized (h : SameTerms x (G x)) : SameTerms x (finalized b₁ seller G x) := by
  unfold finalized
  split_ifs
  · exact ⟨h.1, h.2, h.3, h.4⟩
  · exact h

/-- `b₁` is `b` with the gate of the seller open and statuses written, `G` what it made of each order:
if the last stage leaves the seller closed, its claim is dropped. -/
theorem drops_finalizeSeller (r : Remaining) (hfind : b.find seller.index = some seller)
    (hlive : seller.give.isOwnership → closed seller.status = false)
    (hgate : b₁.gate = clears b.gate seller) (hb : ∀ i, b₁.find i = (b.find i).map G)
    (hG : ∀ i x, b.find i = some x → SameTerms x (G x) ∧
      (x.give.isOwnership → i ≠ seller.index → (G x).status = x.status))
    (hclosed : seller.give.isOwnership → closed ((finalStatus b₁ seller).getD (G seller).status)) :
    Drops (register b) (register (finalizeSeller blk b₁ ⟨seller, r⟩)) := by
  refine drops_of_shuts [seller] (by simpa using hfind) (by simpa using hlive) (by simp) ?_
    ⟨_, find_finalized blk r hb, fun i x hx => ?_⟩
  · rw [(finalizeSeller_frame _ _ _).1]
    exact hgate
  · obtain ⟨hterms, hstatus⟩ := hG i x hx
    have hxi := (find_some hx).2
    refine ⟨(sameTerms_finalized hterms).give, fun hown => ?_⟩
    unfold finalized
    rw [hterms.index, hxi]
    by_cases hi : i = seller.index
    · have hxe : x = seller := by
        rw [hi, hfind, Option.some.injEq] at hx
        exact hx.symm
      subst hxe
      simp [hclosed hown, hi]
    · rw [if_neg hi, hstatus hown hi]
      simp [hi]

end resolve

variable {m : OrderMatch}

section coinpay

variable {m : OrderMatch} {seller buyer : Order} (dest : ℕ)

theorem settledBook_gate : (settledBook blk b m seller buyer dest).gate = clears b.gate seller := by
  unfold settledBook
  rw [completeIf_gate, completeIf_gate]
  exact giveOut_gate blk _ seller _ _ dest

theorem status_completed (hr : Roles b m seller buyer) {i : ℕ} (hx : b.find i = some x)
    (hown : x.give.isOwnership) (hi : i ≠ seller.index) : (completed b seller buyer x).status = x.status := by
  have hxi := (find_some hx).2
  have hb : i ≠ buyer.index := hr.ne_buyer hx fun ht => by
    cases hg : x.give <;> simp [hg, Side.tick, Side.isOwnership] at ht hown
  unfold completed
  simp [hxi, hi, hb]

end coinpay

theorem drops_coinpay (hk : Keys b) (hok : AllOwnershipOk b) (hm : m ∈ b.matched)
    (hp : b.pending m) : Drops (register b) (register (coinpay blk b m)) := by
  obtain ⟨seller, buyer, dest, hr, heq⟩ := coinpay_eq blk hk hm hp
  have hinv : m.involves seller.index := (hr.involves_iff _).mpr (Or.inl rfl)
  rw [heq]
  refine drops_finalizeSeller _ hr.seller_find
    (fun hown => (hok _ _ hr.seller_find hown).live_of_pending hm hinv hp)
    (settledBook_gate dest) (find_settledBook dest)
    (fun i x hx => ⟨sameTerms_completed b seller buyer x, status_completed hr hx⟩) fun hown => ?_
  -- the match took all of the ownership, so the seller is complete unless it was parked
  have hfin : (getOrderAmountsRemaining b seller).finished = true := by
    have := (hok _ _ hr.seller_find hown).finished hown hm hinv
    unfold Remaining.finished
    simp [this]
  have hcomplete : (completed b seller buyer seller).status = .complete := by
    unfold completed
    simp [hfin]
  rw [hcomplete]
  cases hst : finalStatus (settledBook blk b m seller buyer dest) seller with
  | none => rfl
  | some st => exact (finalStatus_some hst).1

theorem pending_resolved (blk : Block) (b : Book) (m : OrderMatch) (seller : Order) (amount : ℚ)
    (dest : ℕ) {status : CoinpayStatus} (hs : status ≠ .pending) (m' : OrderMatch) :
    (resolved blk b m seller amount dest status).pending m' =
      (b.pending m' && decide (m'.index ≠ m.index)) := by
  unfold resolved
  rw [pending_createCoinpayStatus hs]
  unfold Book.pending
  rw [giveOut_obligations]

section
variable (hk : Keys b) (hok : AllOwnershipOk b) (hm : m ∈ b.matched) (hp : b.pending m)
include hk hok hm hp

theorem ownershipOk_coinpay : AllOwnershipOk (coinpay blk b m) := by
  obtain ⟨seller, buyer, dest, hr, heq⟩ := coinpay_eq blk hk hm hp
  obtain ⟨_, hmat, hob⟩ := finalizeSeller_frame blk (settledBook blk b m seller buyer dest)
    ⟨seller, getOrderAmountsRemaining b seller⟩
  rw [heq]
  refine hok.resolve hm (fun m' => if m'.index = m.index then { m' with status := .valid } else m')
    (fun m' i => ?_) ?_ (fun m' => ?_) (find_finalized blk _ (find_settledBook dest)) fun i x hx => ?_
  · split_ifs <;> exact ⟨rfl, rfl, rfl⟩
  · rw [hmat, (settledBook_frame dest).1]
    show (giveOut _ _ _ _ _ _).matched.map _ = b.matched.map _
    rw [giveOut_matched]
  · unfold Book.pending
    rw [hob, (settledBook_frame dest).2]
    exact pending_resolved blk _ m seller _ dest (by decide) m'
  · have hxi := (find_some hx).2
    refine ⟨sameTerms_finalized (sameTerms_completed b seller buyer x), fun hown hno => ?_⟩
    have hne : i ≠ seller.index := fun he => hno ((hr.involves_iff _).mpr (Or.inl he))
    unfold finalized
    rw [(sameTerms_completed b seller buyer x).index, hxi, if_neg hne, status_completed hr hx hown hne]

/-! ### A missed payment -/

theorem drops_coinpayExpire (ob : Obligation)
    (hparked : ∀ o ∈ b.orders, m.involves o.index → o.give.isOwnership →
      o.status ≠ .opened) : Drops (register b) (register (coinpayExpire blk b m ob)) := by
  obtain ⟨seller, buyer, hr, heq⟩ := coinpayExpire_spec blk hk hm hp ob
  have hinv : m.involves seller.index := (hr.involves_iff _).mpr (Or.inl rfl)
  have hfind := hr.seller_find
  rw [heq]
  set b₁ := resolved blk b.bump m seller (deriveReleaseAmount blk m ob seller) (refundTo seller) .expired
  have hlive : seller.give.isOwnership → closed seller.status = false := fun hown =>
    (hok _ _ hfind hown).live_of_pending hm hinv hp
  refine drops_finalizeSeller _ hfind hlive (giveOut_gate blk _ seller _ _ _)
    (fun i => (find_resolved i).trans Option.map_id'.symm)
    (fun i x _ => ⟨SameTerms.refl x, fun _ _ => rfl⟩) fun hown => ?_
  -- parked, and this was its only match: the last stage closes it
  have hst : seller.status = .cancelling ∨ seller.status = .expiring := by
    have h1 := hlive hown
    have h2 := hparked seller (find_some hfind).1 hinv hown
    cases hs : seller.status <;> simp [hs, closed] at h1 h2 ⊢
  have hnone : getPendingCoinpayObligationsByOrder b₁ seller.index = [] := by
    have hrow : rowsOf b₁ seller.index = [m] := by
      refine Eq.trans ?_ ((hok _ _ hfind hown).rows_eq hm hinv).1
      show (giveOut _ _ _ _ _ _).matched.filter _ = _
      rw [giveOut_matched]
      rfl
    rw [pending_eq_filter, hrow]
    refine filter_eq_nil_iff.mpr fun m' hm' => ?_
    rw [mem_singleton.mp hm', pending_resolved _ _ _ _ _ _ (by decide)]
    simp
  obtain ⟨st, hfin⟩ := Option.ne_none_iff_exists'.mp (finalStatus_parked hst hnone)
  rw [hfin]
  exact (finalStatus_some hfin).1

theorem ownershipOk_coinpayExpire (ob : Obligation) : AllOwnershipOk (coinpayExpire blk b m ob) := by
  obtain ⟨seller, buyer, hr, heq⟩ := coinpayExpire_spec blk hk hm hp ob
  rw [heq]
  set b₁ := resolved blk b.bump m seller (deriveReleaseAmount blk m ob seller) (refundTo seller) .expired
  have hG : ∀ i, b₁.find i = (b.find i).map fun x => x := fun i =>
    (find_resolved i).trans Option.map_id'.symm
  obtain ⟨_, hmat, hob⟩ := finalizeSeller_frame blk b₁ ⟨seller, getOrderAmountsRemaining b seller⟩
  refine hok.resolve hm (fun m' => m') (fun _ _ => ⟨rfl, rfl, rfl⟩) ?_ (fun m' => ?_)
    (find_finalized blk _ hG) fun i x hx => ?_
  · rw [hmat, map_id']
    show (giveOut _ _ _ _ _ _).matched = _
    rw [giveOut_matched]
  · unfold Book.pending
    rw [hob]
    exact pending_resolved blk b.bump m seller _ _ (by decide) m'
  · have hxi := (find_some hx).2
    refine ⟨sameTerms_finalized (SameTerms.refl x), fun _ hno => ?_⟩
    have hne : i ≠ seller.index := fun he => hno ((hr.involves_iff _).mpr (Or.inl he))
    unfold finalized
    rw [hxi, if_neg hne]

end

/-! ### SWEEP -/

theorem sweepOrders_gate (blk : Block) (dest : ℕ) (orders : List ℕ) : ∀ b : Book, Keys b → AllOwnershipOk b →
    orders.Nodup → (∀ idx ∈ orders, ∀ o, b.find idx = some o → o.give.isOwnership →
      closed o.status = false) → Drops (register b) (register (orders.foldl (sweepOrder blk dest) b)) ∧
      AllOwnershipOk (orders.foldl (sweepOrder blk dest) b) := by
  induction orders with
  | nil => exact fun b _ hok _ _ => ⟨.same ⟨fun _ => rfl, fun _ _ => Iff.rfl⟩, hok⟩
  | cons idx orders ih =>
    intro b hk hok hnd hlive
    rw [nodup_cons] at hnd
    have hk' : Keys (sweepOrder blk dest b idx) := hk.of_rewrites (same_sweepOrder b blk dest idx hk.orders_lt)
    cases hinfo : getOrderInfo b idx with
    | none =>
      have heq : sweepOrder blk dest b idx = b := by unfold sweepOrder; rw [hinfo]
      rw [foldl_cons, heq]
      exact ih b hk hok hnd.2 fun j hj => hlive j (mem_cons_of_mem _ hj)
    | some info =>
      obtain ⟨_, hfind, _⟩ := getOrderInfo_some hinfo
      have hidx : info.order.index = idx := by
        unfold getOrderInfo at hinfo
        rw [Option.map_eq_some_iff] at hinfo
        obtain ⟨o, ho, rfl⟩ := hinfo
        exact (find_some ho).2
      have heq : sweepOrder blk dest b idx =
          closeOrder blk b info dest (Order.cancelling (some dest)) .cancelled := by
        unfold sweepOrder
        rw [hinfo]
      have hpark : ∀ o, SameTerms o (Order.cancelling (some dest) o) ∧
          closed (Order.cancelling (some dest) o).status = false :=
        fun o => ⟨sameTerms_cancelling (some dest) o, rfl⟩
      have hdrop : Drops (register b) (register (closeOrder blk b info dest
          (Order.cancelling (some dest)) .cancelled)) :=
        drops_closeOrder dest hfind (hlive idx mem_cons_self _ (hidx ▸ hfind)) hpark rfl
      rw [foldl_cons, heq]
      rw [heq] at hk'
      obtain ⟨h1, h2⟩ := ih _ hk' (ownershipOk_closeOrder dest hok hpark) hnd.2 fun j hj o ho => by
        have hne : j ≠ info.order.index := fun he => hnd.1 (by rw [← hidx, ← he]; exact hj)
        rw [find_closeOrder_ne dest fun o => (hpark o).1] at ho
        · exact hlive j (mem_cons_of_mem _ hj) o ho
        · exact hne
      exact ⟨hdrop.trans h1, h2⟩

/-! ### The step -/

/-- What an order event must meet. A match is looked for from an open order when the order gives
ownership; a native fill has an order that pays the coin; an obligation that expires on an order that
gives ownership finds it parked; a SWEEP finds the ownership orders it lists open. -/
def OrderGuarded (s : Step.State) (blk : Block) : Step.Event → Prop
  | .beginMatch idx => ∀ o, s.book.find idx = some o → o.give.isOwnership = true → o.status = .opened
  | .nextMatch => ∀ p m ms, s.pass = some p → p.candidates = m :: ms →
      admits blk p.taker p.remaining m = true → anyNullTick p.taker m.order = true →
      p.taker.give.tick = none ∨ m.order.give.tick = none
  | .coinpayExpire idx => ∀ m, s.book.findMatch idx = some m → ∀ o ∈ s.book.orders,
      m.involves o.index = true → o.give.isOwnership = true → o.status ≠ .opened
  | .sweep _ _ orders => ∀ idx ∈ orders, ∀ o, s.book.find idx = some o →
      o.give.isOwnership = true → o.status = .opened
  | _ => True

instance (s : Step.State) (blk : Block) (e : Step.Event) : Decidable (OrderGuarded s blk e) := by
  induction e using Event.casesOn <;> dsimp only [OrderGuarded] <;> infer_instance

structure OrdersInv (s : Step.State) : Prop where
  keys : Keys s.book
  owners : AllOwnershipOk s.book
  pass : ∀ p, s.pass = some p → PassOk s.book p
  taker : ∀ p, s.pass = some p → p.taker.give.isOwnership = true → p.taker.status = .opened

theorem OrdersInv.closed (hk : Keys b) (hok : AllOwnershipOk b) : OrdersInv ⟨b, none⟩ :=
  ⟨hk, hok, fun _ h => by simp at h, fun _ h => by simp at h⟩

theorem close_open {info : OrderInfo} {park : Order → Order} {st : OrderStatus} (hk : Keys b)
    (hok : AllOwnershipOk b) (dest : ℕ) (hinfo : getOrderInfo b idx = some info)
    (hopen : info.order.status = .opened)
    (ht : ∀ o, terms (park o) = terms o) (hp : ∀ o, closed (park o).status = false) (hst : closed st) :
    OrdersInv ⟨closeOrder blk b.bump info dest park st, none⟩ ∧
      OrderMove b (closeOrder blk b.bump info dest park st) := by
  obtain ⟨hmem, hfind, _⟩ := getOrderInfo_some hinfo
  have hpark : ∀ o, SameTerms o (park o) ∧ closed (park o).status = false := fun o =>
    ⟨sameTerms_of_eq (ht o).symm, hp o⟩
  refine ⟨OrdersInv.closed (hk.bump.of_rewrites (same_closeOrder dest
    (Nat.lt_succ_of_lt (hk.orders_lt _ hmem)) ht)) (ownershipOk_closeOrder dest hok.bump hpark), ?_⟩
  exact .drops (drops_closeOrder (b := b.bump) dest hfind (fun _ => by rw [hopen]; rfl) hpark hst)

variable {e : Block × Step.Event} {s s' : Step.State}

/-- **A guarded order step** keeps the invariant and moves claims as the gate does. -/
theorem orderMove_step (hg : OrderGuarded s e.1 e.2)
    (h : Step.step s e = some s') (hi : OrdersInv s) : OrdersInv s' ∧ OrderMove s.book s'.book := by
  obtain ⟨hk, hok, hpass, htaker⟩ := hi
  have hpass' := passOk_step (stepped_of_step h) hk hpass
  cases stepped_of_step h with
  | @create blk b sp hacc =>
    refine ⟨OrdersInv.closed ?_ (ownershipOk_createOrder hk hok sp), move_createOrder hk hacc⟩
    exact (hk.addOrder rfl (accepted_sides hacc).2.2).of_rewrites
      (same_createOrder b blk sp (Nat.lt_succ_self _))
  | cancel hinfo hopen =>
    exact close_open hk hok _ hinfo hopen (terms_cancelling none) (fun _ => rfl) rfl
  | edit hfind hopen =>
    refine ⟨OrdersInv.closed (hk.bump.of_rewrites (same_updateOrder _ _ fun _ => rfl)) ?_,
      .drops (drops_of_shuts [] (by simp) (by simp) nodup_nil rfl
        (shuts_update fun o => ⟨sameTerms_edit _ _ _ o, rfl⟩))⟩
    refine hok.keep rfl rfl (find_updateOrder _ _ _ fun _ => rfl) fun i x _ => ?_
    split_ifs
    · exact ⟨sameTerms_edit _ _ _ x, fun _ hc => hc⟩
    · exact ⟨SameTerms.refl x, fun _ hc => hc⟩
  | beginMatch hbegin =>
    refine ⟨⟨hk, hok, hpass', fun q hq hown => ?_⟩, .drops (.same ⟨fun _ => rfl, fun _ _ => Iff.rfl⟩)⟩
    obtain ⟨⟩ := hq
    exact hg _ (beginMatch_spec hbegin).1 hown
  | coinpay _ hm hp =>
    exact ⟨OrdersInv.closed (hk.of_rewrites (rewrites_coinpay hk _ _)) (ownershipOk_coinpay hk hok hm hp),
      .drops (drops_coinpay hk hok hm hp)⟩
  | coinpayExpire hfind hm hp =>
    exact ⟨OrdersInv.closed (hk.of_rewrites (rewrites_coinpayExpire hk _ _ _))
      (ownershipOk_coinpayExpire hk hok hm hp _), .drops (drops_coinpayExpire hk hok hm hp _ (hg _ hfind))⟩
  | orderExpire hinfo hopen =>
    refine close_open hk hok _ hinfo hopen ?_ ?_ rfl
    · exact fun _ => rfl
    · exact fun _ => rfl
  | @sweep blk b source destination orders hnd hknown =>
    have hsweep := sweepOrders_gate blk destination orders _ hk.bump hok.bump hnd
      fun idx hidx o ho hown => by
        rw [hg idx hidx o ho hown]
        rfl
    exact ⟨OrdersInv.closed (hk.bump.of_rewrites (same_sweepOrders _ _ _ _
      hk.bump.orders_lt)) hsweep.2, .drops hsweep.1⟩
  | stop => exact ⟨OrdersInv.closed hk hok, .drops (.same ⟨fun _ => rfl, fun _ _ => Iff.rfl⟩)⟩
  | @skip blk b p m ms hc =>
    refine ⟨⟨hk, hok, hpass', fun q hq hown => ?_⟩, .drops (.same ⟨fun _ => rfl, fun _ _ => Iff.rfl⟩)⟩
    obtain ⟨⟩ := hq
    exact htaker p rfl hown
  | @fill blk b p m ms hc hfin ha =>
    have hp := hpass _ rfl
    have hmeet := hp.meets hc hfin ha
    refine ⟨⟨keys_settleFill hk hmeet _ (hg p m ms rfl hc ha), ownershipOk_settleFill hmeet hk hok
      (htaker p rfl), hpass', fun q hq hown => ?_⟩, .drops (drops_settleFill hmeet hk hok (htaker p rfl))⟩
    obtain ⟨⟩ := hq
    exact htaker p rfl hown

/-! ### The indices -/

/-- The next index does not go down, and the only new order is the one that takes it. -/
def Grows (b b' : Book) : Prop :=
  b.nextIndex ≤ b'.nextIndex ∧ ∀ i, i ≠ b.nextIndex → b.find i = none → b'.find i = none

theorem find_eq_none_iff {i : ℕ} : b.find i = none ↔ ∀ t ∈ b.orders.map terms, t.index ≠ i := by
  unfold Book.find
  simp [terms]

theorem grows_step (h : Step.step s e = some s') : Grows s.book s'.book := by
  cases extended_of_step h with
  | same h => exact ⟨h.next, fun i _ hnone => by rwa [find_eq_none_iff, h.orders, ← find_eq_none_iff]⟩
  | order o hidx _ h =>
    refine ⟨(Nat.le_succ _).trans h.next, fun i hi hnone => ?_⟩
    rw [find_eq_none_iff] at hnone ⊢
    rw [h.orders, map_append]
    exact forall_mem_append.mpr ⟨hnone, forall_mem_singleton.mpr (hidx.trans_ne (Ne.symm hi))⟩
  | fill _ _ h =>
    refine ⟨(Nat.le_succ _).trans h.next, fun i _ hnone => ?_⟩
    rw [find_eq_none_iff] at hnone ⊢
    rwa [h.orders]

end XChainIndexer.Ownership.OrderMoves
