import XChainIndexer.Orders.Steps

/-! # Fills and limit prices

From the price-cross activation a candidate is passed over when the taker's ask exceeds its bid, and a
fill is sized by the taker's own ratio and then rounded onto the grids of the two ticks. So a fill lies
within a unit of each tick of an exchange at exactly the taker's ratio (`exists_exchange`), and
`fills_within_limits` says that neither order settles worse than its limit by more than a unit of each
tick. For the maker that is its limit as the prices are compared, at 64 decimals. Exactly neither limit
holds: on indivisible ticks a taker that asks 2 for 7 gives 5 for 1 (`filled_below_ask`). -/

namespace XChainIndexer.Orders.Limits

open Bcmath Lib.Run List Orders.Tables Orders.Match Orders.Step Orders.Escrow Orders.Fill
open Orders.Pass Orders.Steps

def unit (sc : Scales) (tick : Option ℕ) : ℚ := 1 / 10 ^ sc.decimalsOf tick

/-- A ratio and what comparing it at 64 decimals can hide. -/
def loosened (ratio : ℚ) : ℚ := ratio * (1 + 1 / 10 ^ 62) + 1 / 10 ^ 63

/-- Both limit prices hold for a match of the taker `o` with the maker `m`, up to a unit of each tick
on either side. -/
structure WithinLimits (sc : Scales) (o m : Order) (row : OrderMatch) : Prop where
  /-- An exchange at exactly the taker's ratio is less than a unit away on either tick. -/
  exchange : ∃ x y, y = x * (o.get.amount / o.give.amount) ∧ 0 < x ∧
    |row.giveAmount - x| < unit sc o.give.tick ∧ |row.getAmount - y| < unit sc o.get.tick
  /-- The taker receives at least its GET/GIVE ratio of what it gives. -/
  taker : (row.giveAmount - unit sc o.give.tick) * (o.get.amount / o.give.amount) ≤
    row.getAmount + unit sc o.get.tick
  /-- The maker gives at most its GIVE/GET ratio of what it receives, as prices are compared. -/
  maker : row.getAmount - unit sc o.get.tick ≤
    (row.giveAmount + unit sc o.give.tick) * loosened (m.give.amount / m.get.amount)
  /-- If the ask is at most the bid the maker's ratio needs no loosening. -/
  crossed : o.get.amount / o.give.amount ≤ m.give.amount / m.get.amount →
    row.getAmount - unit sc o.get.tick ≤
      (row.giveAmount + unit sc o.give.tick) * (m.give.amount / m.get.amount)

/-! ### An exchange at the taker's ratio -/

/-- An order with ledger amounts and no more left than it started with. -/
structure Sized (o : Order) (r : Remaining) : Prop where
  give : Fits 18 o.give.amount ∧ 0 ≤ o.give.amount
  get : Fits 18 o.get.amount ∧ 0 < o.get.amount
  give_le : r.give ≤ o.give.amount
  get_le : r.get ≤ o.get.amount

variable {x : ℚ} {d : ℕ}

theorem bcround_near (hd : d ≤ 18) {n : ℚ} (hn : 0 ≤ n) (hx : x < 10 ^ 42)
    (h : |n - x| ≤ 1 / 10 ^ 20) : |bcround n d - x| < 1 / 10 ^ d := by
  have hunit : (1 : ℚ) / 10 ^ 18 ≤ 1 / 10 ^ d :=
    one_div_le_one_div_of_le (by positivity) (pow_le_pow_right₀ (by norm_num) hd)
  have hn' : n ≤ 10 ^ 42 + 1 := by
    have := (abs_le.mp h).2
    linarith
  have hround := abs_bcround_sub_le hd hn hn'
  calc |bcround n d - x| ≤ |bcround n d - n| + |n - x| := abs_sub_le _ _ _
    _ ≤ 51 / 100 * (1 / 10 ^ d) + 1 / 10 ^ 20 := add_le_add hround h
    _ < 1 / 10 ^ d := by norm_num at hunit ⊢; linarith

theorem lt_of_fits (h : Fits d x) : x < 10 ^ 42 := (le_abs_self x).trans_lt h.2

section Fill

variable {blk : Block} {o : Order} {r : Remaining} {m : OrderInfo}

/-- **A fill is an exchange at the taker's ratio, rounded.** -/
theorem exists_exchange (ho : Sized o r) (ha : admits blk o r m) :
    ∃ x y, y = x * (o.get.amount / o.give.amount) ∧ 0 < x ∧
      |(computeFillAmounts blk o r m).giveAmount - x| < unit blk.scales o.give.tick ∧
      |(computeFillAmounts blk o r m).getAmount - y| < unit blk.scales o.get.tick := by
  have hmg := maxGive_pos ha
  have hmt := maxGet_pos ha
  have hgive : maxGive r m ≤ o.give.amount := (maxGive_le r m).1.trans ho.give_le
  have hget : maxGet r m ≤ o.get.amount := (maxGet_le r m).1.trans ho.get_le
  have hG : 0 < o.give.amount := hmg.trans_le hgive
  have hT := ho.get.2
  have hd1 := decimalsOf_le blk.scales o.give.tick
  have hd2 := decimalsOf_le blk.scales o.get.tick
  have hG' := lt_of_fits ho.give.1
  have hT' := lt_of_fits ho.get.1
  have hself : ∀ x : ℚ, |x - x| ≤ 1 / 10 ^ 20 := fun x => by
    rw [sub_self]
    positivity
  unfold computeFillAmounts
  by_cases hcase : maxGive r m < bcmul (maxGet r m) o.getPrice 64
  · -- the GIVE side is taken in full and the GET side derived
    simp only [hcase, if_true]
    have hle : maxGive r m * o.get.amount / o.give.amount ≤ o.get.amount := by
      rw [div_le_iff₀ hG, mul_comm o.get.amount]
      exact mul_le_mul_of_nonneg_right hgive hT.le
    have hoff := abs_bcmul_bcdiv_sub_le hmg.le (hgive.trans_lt hG') hT.le hG (hle.trans_lt hT')
    refine ⟨maxGive r m, maxGive r m * o.get.amount / o.give.amount, mul_div_assoc _ _ _, hmg, ?_, ?_⟩
    · exact bcround_near hd1 hmg.le (hgive.trans_lt hG') (hself _)
    · refine bcround_near hd2 ?_ (hle.trans_lt hT') hoff
      exact format_nonneg 64 (mul_nonneg hmg.le (price_nonneg hT.le hG.le))
  · simp only [hcase, if_false]
    have hle : maxGet r m * o.give.amount / o.get.amount ≤ o.give.amount := by
      rw [div_le_iff₀ hT, mul_comm o.give.amount]
      exact mul_le_mul_of_nonneg_right hget hG.le
    have hoff := abs_bcmul_bcdiv_sub_le hmt.le (hget.trans_lt hT') hG.le hT (hle.trans_lt hG')
    refine ⟨maxGet r m * o.give.amount / o.get.amount, maxGet r m, ?_, by positivity, ?_, ?_⟩
    · field_simp
    · refine bcround_near hd1 ?_ (hle.trans_lt hG') hoff
      exact format_nonneg 64 (mul_nonneg hmt.le (price_nonneg hG.le hT.le))
    · exact bcround_near hd2 hmt.le (hget.trans_lt hT') (hself _)

theorem ask_le_loosened {T G M N : ℚ} (hT : 0 ≤ T) (hG : 0 < G) (hM : 0 ≤ M) (hN : 0 < N)
    (h : getPrice T G ≤ getPrice M N) : T / G ≤ loosened (M / N) := by
  have hask := (abs_le.mp (abs_format_sub_le (d := 64) (div_nonneg hT hG.le))).1
  have hbid := (abs_le.mp (abs_format_sub_le (d := 64) (div_nonneg hM hN.le))).2
  have hbid0 : 0 ≤ M / N := div_nonneg hM hN.le
  unfold getPrice bcdiv at h
  rw [if_neg hG.ne', if_neg hN.ne'] at h
  unfold loosened
  linarith

/-- **Both limits hold up to a unit of each tick.** -/
theorem withinLimits_of_admits (hcross : blk.priceCross) (ho : Sized o r)
    (hm : Sized m.order m.remaining) (ha : admits blk o r m) (idx : ℕ) :
    WithinLimits blk.scales o m.order (matchRow idx o m.order (computeFillAmounts blk o r m)) := by
  obtain ⟨x, y, rfl, hx, hgive, hget⟩ := exists_exchange ho ha
  obtain ⟨hr1, -, hr3, -⟩ := room ha
  have hG : 0 < o.give.amount := hr1.trans_le ho.give_le
  have hratio : 0 ≤ o.get.amount / o.give.amount := div_nonneg ho.get.2.le hG.le
  have hprice : o.givePrice ≤ m.order.getPrice := by
    unfold admits hasFillRoom at ha
    rw [hcross] at ha
    simp only [Bool.and_eq_true, decide_eq_true_eq, if_true] at ha
    exact ha.1.1.1.2.2
  obtain ⟨hgive1, hgive2⟩ := abs_lt.mp hgive
  obtain ⟨hget1, hget2⟩ := abs_lt.mp hget
  -- whatever ratio is above the ask bounds what the maker gives
  have hmaker : ∀ bid, o.get.amount / o.give.amount ≤ bid →
      (computeFillAmounts blk o r m).getAmount - unit blk.scales o.get.tick ≤
        ((computeFillAmounts blk o r m).giveAmount + unit blk.scales o.give.tick) * bid := by
    intro bid hbid
    calc _ ≤ x * (o.get.amount / o.give.amount) := by linarith
      _ ≤ x * bid := mul_le_mul_of_nonneg_left hbid hx.le
      _ ≤ _ := mul_le_mul_of_nonneg_right (by linarith) (hratio.trans hbid)
  refine ⟨exists_exchange ho ha, ?_, ?_, hmaker _⟩
  · calc _ ≤ x * (o.get.amount / o.give.amount) :=
          mul_le_mul_of_nonneg_right (by change (computeFillAmounts blk o r m).giveAmount - _ ≤ x; linarith) hratio
      _ ≤ _ := by change _ ≤ (computeFillAmounts blk o r m).getAmount + _; linarith
  · exact hmaker _ (ask_le_loosened ho.get.2.le hG hm.give.2 hm.get.2 hprice)

end Fill

/-! ### What an order has left -/

/-- Every order asks and offers ledger amounts, and no match row is negative. -/
structure Listed (b : Book) : Prop where
  amounts : ∀ o ∈ b.orders, (Fits 18 o.give.amount ∧ 0 ≤ o.give.amount) ∧
    Fits 18 o.get.amount ∧ 0 < o.get.amount
  rows : ∀ m ∈ b.matched, 0 ≤ m.giveAmount ∧ 0 ≤ m.getAmount

theorem bcsub_le {amount fill : ℚ} (h : Fits 18 amount ∧ 0 ≤ amount) (hx : x ≤ amount)
    (hf : 0 ≤ fill) : bcsub x fill 64 ≤ amount := by
  rcases le_or_gt (x - fill) 0 with hneg | hpos
  · exact (format_nonpos 64 hneg).trans h.2
  · refine format_le_of_onGrid h.1.1 le_rfl (by norm_num) ?_ (by linarith)
    rw [abs_of_pos hpos]
    have := lt_of_fits h.1
    linarith

variable {o : Order} {r : Remaining}

theorem Sized.after (h : Sized o r) {give get : ℚ} (hgive : 0 ≤ give)
    (hget : 0 ≤ get) : Sized o (r.after give get) :=
  ⟨h.give, h.get, bcsub_le h.give h.give_le hgive, bcsub_le ⟨h.get.1, h.get.2.le⟩ h.get_le hget⟩

theorem sized_foldl {rows : List OrderMatch}
    (hrows : ∀ m ∈ rows, 0 ≤ m.giveAmount ∧ 0 ≤ m.getAmount) (h : Sized o r) :
    Sized o (rows.foldl (subtractMatch o.index) r) := by
  induction rows generalizing r with
  | nil => exact h
  | cons m rows ih =>
    have hm := hrows m (by simp)
    refine ih (fun m' hm' => hrows m' (by simp [hm'])) (h.after ?_ ?_)
    · unfold OrderMatch.gives
      split_ifs
      exacts [hm.1, hm.2]
    · unfold OrderMatch.gets
      split_ifs
      exacts [hm.2, hm.1]

variable {b : Book}

theorem Listed.sized (hb : Listed b) (ho : o ∈ b.orders) : Sized o (getOrderAmountsRemaining b o) := by
  obtain ⟨hgive, hget⟩ := hb.amounts o ho
  exact sized_foldl (fun m hm => hb.rows m (mem_of_mem_filter hm)) ⟨hgive, hget, le_rfl, le_rfl⟩

/-! ### Every fill of a pass -/

structure PassSized (p : Pass) : Prop where
  taker : Sized p.taker p.remaining
  candidates : ∀ c ∈ p.candidates, Sized c.order c.remaining

variable {blk : Block} {p : Pass}

theorem passSized_beginMatch (hb : Listed b) {idx : ℕ}
    (hp : beginMatch blk b idx = some p) : PassSized p := by
  obtain ⟨htaker, hrem, l, hperm, hcand⟩ := beginMatch_spec hp
  refine ⟨hrem ▸ hb.sized (find_some htaker).1, fun c hc => ?_⟩
  rw [hcand] at hc
  obtain ⟨x, hx, rfl⟩ := mem_map.mp (hperm.mem_iff.mp (mem_of_mem_filter hc))
  exact hb.sized (mem_of_mem_filter hx)

/-- The pass `p` on the book `b`, under way: every new row keeps the limits of its two orders. -/
structure Passing (sc : Scales) (b : Book) (p : Pass) (s : State) : Prop where
  pass : ∀ q, s.pass = some q → q.taker = p.taker ∧ q.candidates ⊆ p.candidates ∧ PassSized q
  rows : ∀ row ∈ s.book.matched, row ∈ b.matched ∨ ∃ m ∈ p.candidates,
    row.getActionIndex = p.taker.index ∧ row.giveActionIndex = m.order.index ∧
      WithinLimits sc p.taker m.order row

theorem passing_step (hcross : blk.priceCross) {s s' : State}
    (h : Passing blk.scales b p s) (hs : step s (blk, .nextMatch) = some s') : Passing blk.scales b p s' := by
  cases stepped_of_step hs with
  | stop => exact ⟨fun q hq => by simp at hq, h.rows⟩
  | @skip _ _ q m ms hc =>
    obtain ⟨htaker, hsub, hq⟩ := h.pass q rfl
    refine ⟨fun q' hq' => ?_, h.rows⟩
    obtain ⟨⟩ := hq'
    rw [hc] at hsub
    exact ⟨htaker, fun c hcm => hsub (by simp [hcm]), hq.taker,
      fun c hcm => hq.candidates c (by simp [hc, hcm])⟩
  | @fill _ book q m ms hc _ ha =>
    obtain ⟨htaker, hsub, hq⟩ := h.pass q rfl
    have hm : m ∈ q.candidates := by simp [hc]
    have hlimits := fun idx => withinLimits_of_admits hcross hq.taker (hq.candidates m hm) ha idx
    have hpos := fill_pos ha
    refine ⟨fun q' hq' => ?_, fun row hrow => ?_⟩
    · obtain ⟨⟩ := hq'
      rw [hc] at hsub
      exact ⟨htaker, fun c hcm => hsub (by simp [hcm]), hq.taker.after hpos.1.le hpos.2.le,
        fun c hcm => hq.candidates c (by simp [hc, hcm])⟩
    · rw [settleFill_matched] at hrow
      rcases mem_append.mp hrow with hrow | hrow
      · exact h.rows row hrow
      · obtain rfl := mem_singleton.mp hrow
        rw [htaker] at hlimits ⊢
        exact .inr ⟨m, hsub hm, rfl, rfl, hlimits book.nextIndex⟩

/-- **Every fill is within both limits.** Whatever the book, with ledger amounts, every match row a
pass adds is less than a unit of each tick from an exchange at the taker's ratio, and keeps the limit
prices of the taker and of the candidate it is made with up to one unit of each tick. -/
theorem fills_within_limits {blk : Block} (hcross : blk.priceCross = true) {b : Book} (hb : Listed b)
    {idx : ℕ} {p : Pass} (hp : beginMatch blk b idx = some p) {s : State}
    (hs : Reaches step (fun _ e => e = (blk, .nextMatch)) ⟨b, some p⟩ s) :
    ∀ row ∈ s.book.matched, row ∈ b.matched ∨ ∃ m ∈ p.candidates,
      row.getActionIndex = p.taker.index ∧ row.giveActionIndex = m.order.index ∧
        WithinLimits blk.scales p.taker m.order row := by
  have hpassing : Passing blk.scales b p s := by
    refine hs.invariant ⟨fun q hq => ?_, fun row hrow => .inl hrow⟩ fun s e s' he hstep hi => ?_
    · obtain ⟨⟩ := hq
      exact ⟨rfl, List.Subset.refl _, passSized_beginMatch hb hp⟩
    · subst he
      exact passing_step hcross hi hstep
  exact hpassing.rows

/-! ### Two orders on indivisible ticks -/

def indivisible : Scales where
  decimals := fun _ => 0
  precision := fun _ => 0
  decimals_le := fun _ => le_rfl
  precision_le := fun _ => by norm_num

/-- A block from the price-cross activation on. -/
def crossing : Block where
  time := 1
  matchOriginOpen := true
  equalPriceOldestFirst := true
  sameTokenRefusal := true
  nativeReciprocity := true
  priceCross := true
  expireTokenAmount := true
  settlementBounds := true
  ledgerAmountPrecision := true
  scales := indivisible
  coinpayExpiration := 100
  listAllowed := fun _ _ => true

/-- `give` of a tick for `get` of another. -/
def offer (source giveTick getTick : ℕ) (give get : ℚ) : OrderSpec where
  source := source
  getAddress := source
  give := .token giveTick give
  get := .token getTick get
  expiration := 1000
  allowList := none
  blockList := none

/-- 2 of the tick 8 for 5 of the tick 7, and 7 of the tick 7 for 2 of the tick 8. -/
def asked : Book :=
  createOrder crossing (createOrder crossing init.book (offer 1 8 7 2 5)) (offer 2 7 8 7 2)

/-- The pass of the second order. -/
def askedPass : Pass := ⟨(offer 2 7 8 7 2).row 2, ⟨7, 2⟩, [⟨(offer 1 8 7 2 5).row 1, ⟨2, 5⟩⟩]⟩

theorem fills_within_limits_asked :
    (nextMatch crossing asked askedPass).1.matched.length = 1 ∧
      ∀ row ∈ (nextMatch crossing asked askedPass).1.matched, row ∈ asked.matched ∨
        ∃ m ∈ askedPass.candidates, row.getActionIndex = askedPass.taker.index ∧
          row.giveActionIndex = m.order.index ∧
          WithinLimits crossing.scales askedPass.taker m.order row := by
  have hlisted : Listed asked := by
    refine ⟨?_, nofun⟩
    have hamounts : ∀ o ∈ [(offer 1 8 7 2 5).row 1, (offer 2 7 8 7 2).row 2],
        (Fits 18 o.give.amount ∧ 0 ≤ o.give.amount) ∧ Fits 18 o.get.amount ∧ 0 < o.get.amount := by
      decide +kernel
    exact hamounts
  have hbegin : beginMatch crossing asked 2 = some askedPass := by decide +kernel
  refine ⟨by decide +kernel, ?_⟩
  have hstep : step ⟨asked, some askedPass⟩ (crossing, .nextMatch) =
      some ⟨(nextMatch crossing asked askedPass).1, (nextMatch crossing asked askedPass).2⟩ := rfl
  exact fills_within_limits rfl hlisted hbegin (Reaches.init.next rfl hstep)

/-- **A fill below the taker's ask.** The maker wants 5, the taker's ratio makes that 10/7 of the other
tick, and the fill is rounded to 5 for 1. -/
theorem filled_below_ask : crossing.priceCross = true ∧
    (run step init [(crossing, .create (offer 1 8 7 2 5)), (crossing, .create (offer 2 7 8 7 2)),
      (crossing, .beginMatch 2), (crossing, .nextMatch)]).any (fun s => s.book.matched.any fun row =>
        row.getActionIndex = 2 ∧ row.getAmount / row.giveAmount <
          (offer 2 7 8 7 2).get.amount / (offer 2 7 8 7 2).give.amount) = true := by
  decide +kernel

end XChainIndexer.Orders.Limits
