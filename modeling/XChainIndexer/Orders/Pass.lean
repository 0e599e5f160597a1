import XChainIndexer.Orders.Handlers

/-! # A match pass sees the book as it is

The candidates of a pass are read once, when it begins. `PassOk` says that they are still what the
book holds, with the amounts they have left, and that the running amounts of the taker are its own.
A fill changes only the taker and the candidate it is made with, so the pass stays so. -/

namespace XChainIndexer.Orders.Pass

open Orders.Tables Orders.Match List Orders.Escrow Orders.Invariant Orders.Handlers

structure PassOk (b : Book) (p : Pass) : Prop where
  /-- The taker is as it was read, or a fill has completed it and the pass is about to stop. -/
  taker : b.find p.taker.index = some p.taker ∨
    (p.remaining.finished = true ∧ b.find p.taker.index = some { p.taker with status := .complete })
  remaining : p.remaining = getOrderAmountsRemaining b p.taker
  candidates : ∀ c ∈ p.candidates, b.find c.order.index = some c.order ∧
    c.remaining = getOrderAmountsRemaining b c.order ∧ isCandidate p.taker c.order = true
  mirrors : ∀ c ∈ p.candidates, ownershipMirrors p.taker c.order = true
  distinct : (p.candidates.map (·.order.index)).Nodup

variable {b : Book} {blk : Block} {p : Pass} {idx : ℕ}

/-- What a pass begins with: the order and the candidates of the book, with what they have left. -/
theorem beginMatch_spec (hp : beginMatch blk b idx = some p) :
    b.find idx = some p.taker ∧ p.remaining = getOrderAmountsRemaining b p.taker ∧
      ∃ l : List OrderInfo, l.Perm ((b.orders.filter (isCandidate p.taker)).map fun c =>
          (⟨c, getOrderAmountsRemaining b c⟩ : OrderInfo)) ∧
        p.candidates = l.filter fun m => ownershipMirrors p.taker m.order := by
  unfold beginMatch getOrderInfo at hp
  cases hfind : b.find idx with
  | none => simp [hfind] at hp
  | some o =>
    rw [hfind] at hp
    simp only [Option.map_some] at hp
    split_ifs at hp
    obtain ⟨⟩ := hp
    exact ⟨rfl, rfl, _, perm_insertionSort (priceBefore blk.equalPriceOldestFirst) _, rfl⟩

theorem passOk_beginMatch (h : Keys b) (hp : beginMatch blk b idx = some p) : PassOk b p := by
  obtain ⟨htaker, hrem, l, hperm, hcand⟩ := beginMatch_spec hp
  refine ⟨Or.inl ((find_some htaker).2 ▸ htaker), hrem, fun c hc => ?_, fun c hc => ?_, ?_⟩
  · rw [hcand] at hc
    obtain ⟨x, hx, rfl⟩ := mem_map.mp (hperm.mem_iff.mp (mem_of_mem_filter hc))
    obtain ⟨hx1, hx2⟩ := mem_filter.mp hx
    exact ⟨h.find hx1, rfl, hx2⟩
  · rw [hcand] at hc
    exact (mem_filter.mp hc).2
  · rw [hcand]
    refine List.Nodup.sublist (filter_sublist.map _) ?_
    refine (hperm.map _).nodup_iff.mpr ?_
    rw [map_map]
    exact h.orders_nodup.sublist (filter_sublist.map _)

theorem not_finished (h : ¬ (p.remaining.give ≤ 0 || p.remaining.get ≤ 0) = true) :
    ¬ p.remaining.finished = true := by
  unfold Remaining.finished
  rw [Bool.or_comm]
  exact h

variable {ms : List OrderInfo} {m : OrderInfo}

theorem PassOk.meets (hp : PassOk b p) (hc : p.candidates = m :: ms) (hfin : ¬ p.remaining.finished)
    (ha : admits blk p.taker p.remaining m) : Meets blk b p.taker p.remaining m := by
  obtain ⟨hm1, hm2, hm3⟩ := hp.candidates m (by simp [hc])
  have htaker : b.find p.taker.index = some p.taker := by
    rcases hp.taker with h | h
    · exact h
    · exact absurd h.1 hfin
  refine ⟨(find_some htaker).1, (find_some hm1).1, fun he => ?_, hp.remaining, hm2, hm3,
    hp.mirrors m (by simp [hc]), ha⟩
  rw [he, htaker, Option.some.injEq] at hm1
  unfold isCandidate at hm3
  simp [← hm1] at hm3

theorem PassOk.skip {p : Pass} (hp : PassOk b p)
    (hc : p.candidates = m :: ms) : PassOk b ⟨p.taker, p.remaining, ms⟩ := by
  refine ⟨hp.taker, hp.remaining, fun c hcm => hp.candidates c (by simp [hc, hcm]),
    fun c hcm => hp.mirrors c (by simp [hc, hcm]), ?_⟩
  have := hp.distinct
  rw [hc, map_cons, nodup_cons] at this
  exact this.2

/-! ### After a fill -/

section

variable {o : Order} {r : Remaining} {m : OrderInfo}

section
variable (o : Order) (r : Remaining) (m : OrderInfo) (f : Fill)

theorem find_settleFill (i : ℕ) :
    (settleFill blk b o r m f).find i = (b.find i).map fun x =>
      if anyNullTick o m.order = true then x
      else if x.index = m.order.index ∧ (m.remaining.after f.getAmount f.giveAmount).finished then
        { x with status := .complete }
      else if x.index = o.index ∧ (r.after f.giveAmount f.getAmount).finished then
        { x with status := .complete }
      else x := by
  by_cases hn : anyNullTick o m.order
  · rw [settleFill_native hn]
    simp only [hn, if_true, Option.map_id']
    rfl
  · have hs : (settled blk b o m.order f).find i = b.find i :=
      find_congr (by unfold settled settleOrderGiveSide; rw [giveOut_orders, giveOut_orders]; rfl) i
    rw [settleFill_instant hn, find_completeIf, find_completeIf, hs]
    cases b.find i with
    | none => rfl
    | some x =>
      simp only [Option.map_some, hn, Bool.false_eq_true, if_false]
      split_ifs <;> simp_all

theorem settleFill_matched :
    (settleFill blk b o r m f).matched = b.matched ++ [matchRow b.nextIndex o m.order f] := by
  by_cases hn : anyNullTick o m.order
  · rw [settleFill_native hn]
    rfl
  · rw [settleFill_instant hn]
    have hc : ∀ (b : Book) (i : ℕ) (r : Remaining), (completeIf b i r).matched = b.matched :=
      fun b i r => by unfold completeIf; split_ifs <;> rfl
    rw [hc, hc]
    unfold settled settleOrderGiveSide
    rw [giveOut_matched, giveOut_matched]
    rfl

theorem remaining_settleFill (x : Order) : getOrderAmountsRemaining (settleFill blk b o r m f) x =
      if (matchRow b.nextIndex o m.order f).involves x.index then
        subtractMatch x.index (getOrderAmountsRemaining b x) (matchRow b.nextIndex o m.order f)
      else getOrderAmountsRemaining b x := by
  rw [← remaining_append]
  exact remaining_congr (settleFill_matched o r m f) x

end

end

theorem passOk_settleFill (hp : PassOk b p)
    (hc : p.candidates = m :: ms) (hf : Meets blk b p.taker p.remaining m) (h : Keys b) (f : Fill) :
    PassOk (settleFill blk b p.taker p.remaining m f)
      ⟨p.taker, p.remaining.after f.giveAmount f.getAmount, ms⟩ := by
  have hnd := hp.distinct
  rw [hc, map_cons, nodup_cons] at hnd
  refine ⟨?_, ?_, fun c hcm => ?_, fun c hcm => hp.mirrors c (by simp [hc, hcm]), hnd.2⟩
  · rw [find_settleFill, h.find hf.taker_mem]
    by_cases hn : anyNullTick p.taker m.order = true
    · simp [hn]
    · by_cases hfin : (p.remaining.after f.giveAmount f.getAmount).finished = true
      · simp [hn, hfin, hf.ne.symm]
      · simp [hn, hfin, hf.ne.symm]
  · have hi : (matchRow b.nextIndex p.taker m.order f).involves p.taker.index = true :=
      involves_matchRow.mpr (Or.inr rfl)
    show p.remaining.after _ _ = getOrderAmountsRemaining _ p.taker
    rw [remaining_settleFill, if_pos hi, ← hp.remaining]
    congr 1
    · exact (if_pos rfl).symm
    · exact (if_pos rfl).symm
  · obtain ⟨h1, h2, h3⟩ := hp.candidates c (by simp [hc, hcm])
    have hcm' : c.order.index ≠ m.order.index := fun he =>
      hnd.1 (mem_map.mpr ⟨c, hcm, he⟩)
    have hct : c.order.index ≠ p.taker.index := fun he => by
      rw [he, h.find hf.taker_mem, Option.some.injEq] at h1
      unfold isCandidate at h3
      simp [← h1] at h3
    have hno : ¬ (matchRow b.nextIndex p.taker m.order f).involves c.order.index := by
      rw [involves_matchRow]
      tauto
    refine ⟨?_, ?_, h3⟩
    · rw [find_settleFill, h1]
      simp [hcm', hct]
    · rw [remaining_settleFill, if_neg hno]
      exact h2

end XChainIndexer.Orders.Pass
