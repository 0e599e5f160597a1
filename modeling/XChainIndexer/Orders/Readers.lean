import XChainIndexer.Lib.Grouped
import XChainIndexer.Lib.Keyed
import XChainIndexer.Orders.Tables

/-! # The two readers of an order

`db/orders/order_info.js` reads the state of an order in two ways. `getOrderInfo` runs four queries for
one order; `getOrderInfoBatch` runs the same four for all candidates of a match and splits the rows.
They agree on every database and every list of candidates (`getOrderInfoBatch_eq`).

The rows are those of the tables; what both readers copy from the joined rows as it is (ticks,
addresses, memo, payout legs, block) is a parameter. -/

namespace XChainIndexer.Orders.Readers

open Bcmath Lib.Grouped Lib.Keyed Orders.Tables List

/-! ### The tables -/

/-- A row of `orders` with its joins. -/
structure OrderRow (ρ : Type) where
  actionIndex : ℕ
  /-- Every inner join besides that on the statuses finds its row. -/
  joined : Bool
  /-- `status = 'valid'`. -/
  valid : Bool
  getCoin : ℕ
  giveAmount : Option ℚ
  getAmount : Option ℚ
  giveOwnership : Bool
  getOwnership : Bool
  expiration : Option ℕ
  allowList : Option ℕ
  blockList : Option ℕ
  rest : ρ

structure StatusRow where
  actionIndex : ℕ
  order : ℕ
  status : OrderStatus

structure EditRow where
  actionIndex : ℕ
  order : ℕ
  valid : Bool
  expiration : Option ℕ
  allowList : Option ℕ
  blockList : Option ℕ

structure MatchRow where
  actionIndex : ℕ
  giveActionIndex : ℕ
  getActionIndex : ℕ
  giveAmount : ℚ
  getAmount : ℚ
  /-- The status is `valid` or `pending_coinpay`. -/
  live : Bool

def StatusRow.key (s : StatusRow) : Option (ℕ × ℕ) := some (s.order, s.actionIndex)

/-- The tables, with their unique keys. `order_statuses` has none in the schema; its one writer is
`createOrderStatus`, which updates the row of its action and order. -/
structure Tables (ρ : Type) where
  orders : List (OrderRow ρ)
  statuses : List StatusRow
  edits : List EditRow
  matched : List MatchRow
  orders_unique : (orders.map (·.actionIndex)).Nodup
  statuses_unique : (statuses.filterMap StatusRow.key).Nodup
  edits_unique : (edits.map (·.actionIndex)).Nodup
  matched_unique : (matched.map (·.actionIndex)).Nodup

variable {ρ : Type}

def createOrderStatus (t : Tables ρ) (row : StatusRow) : Tables ρ :=
  { t with
    statuses := upsert StatusRow.key t.statuses row
    statuses_unique := nodup_upsert t.statuses_unique row }

/-! ### What the readers share -/

/-- The statuses of the order's latest action. -/
def latestStatuses (t : Tables ρ) (order : ℕ) : List StatusRow :=
  t.statuses.filter fun s => s.order = order &&
    t.statuses.all fun s' => s'.order ≠ order || s'.actionIndex ≤ s.actionIndex

/-- The rows of `orderInfoSql`, with the condition on `orders` as `p`. -/
def orderInfoRows (t : Tables ρ) (p : OrderRow ρ → Bool) : List (OrderRow ρ × OrderStatus) :=
  (t.orders.filter fun o => o.joined && p o).flatMap fun o =>
    (latestStatuses t o.actionIndex).map fun s => (o, s.status)

/-- The edits in force, `none` for `false`. -/
structure Edit where
  expiration : Option ℕ
  allowList : Option ℕ
  blockList : Option ℕ

def emptyOrderEdit : Edit := ⟨none, none, none⟩

def applyEditRow (edit : Edit) (row : EditRow) : Edit where
  expiration := row.expiration.or edit.expiration
  allowList := row.allowList.or edit.allowList
  blockList := row.blockList.or edit.blockList

/-- The GIVE and GET amounts an order has left. -/
structure Amounts where
  give : Option ℚ
  get : Option ℚ

def openingAmounts : Option (OrderRow ρ) → Amounts
  | none => ⟨some 0, some 0⟩
  | some row => ⟨if row.giveOwnership then some 1 else row.giveAmount,
      if row.getOwnership then some 1 else row.getAmount⟩

/-- A missing amount counts as zero in the subtraction. -/
def subtractMatch (order : ℕ) (amounts : Amounts) (row : MatchRow) : Amounts :=
  let give := if row.getActionIndex = order then row.giveAmount else row.getAmount
  let get := if row.getActionIndex = order then row.getAmount else row.giveAmount
  ⟨some (bcsub (amounts.give.getD 0) give 64), some (bcsub (amounts.get.getD 0) get 64)⟩

/-- An order as both readers return it. -/
structure OrderState (ρ : Type) where
  row : OrderRow ρ
  status : OrderStatus
  expiration : ℕ
  allowList : ℕ
  blockList : ℕ
  giveAmount : Option ℚ
  getAmount : Option ℚ
  givePrice : ℚ
  getPrice : ℚ
  remaining : Amounts

/-- `orderFromRow` and `applyOrderState`: an edit to expiration `0` is not applied, one to list `0`
is. -/
def applyOrderState (row : OrderRow ρ × OrderStatus) (edit : Edit) (amounts : Amounts) :
    OrderState ρ :=
  let give := if row.1.giveOwnership then some (row.1.giveAmount.getD 1) else row.1.giveAmount
  let get := if row.1.getOwnership then some (row.1.getAmount.getD 1) else row.1.getAmount
  { row := row.1
    status := row.2
    expiration := (edit.expiration.filter (· ≠ 0)).getD (row.1.expiration.getD 0)
    allowList := edit.allowList.getD (row.1.allowList.getD 0)
    blockList := edit.blockList.getD (row.1.blockList.getD 0)
    giveAmount := give
    getAmount := get
    givePrice := getPrice (get.getD 0) (give.getD 0)
    getPrice := getPrice (give.getD 0) (get.getD 0)
    remaining := amounts }

/-! ### One order -/

def getOrderEdits (t : Tables ρ) (order : ℕ) : Edit :=
  (orderBy EditRow.actionIndex (t.edits.filter fun e => e.order = order && e.valid)).foldl
    applyEditRow emptyOrderEdit

def MatchRow.involves (m : MatchRow) (order : ℕ) : Bool :=
  m.giveActionIndex = order || m.getActionIndex = order

def getOrderAmountsRemaining (t : Tables ρ) (order : ℕ) : Amounts :=
  (orderBy MatchRow.actionIndex (t.matched.filter fun m => m.involves order && m.live)).foldl
    (subtractMatch order)
    (openingAmounts (t.orders.filter fun o => o.actionIndex = order && o.valid).head?)

/-- Without a coin the query has no condition on it. -/
def getOrderInfo (t : Tables ρ) (coin : Option ℕ) (order : ℕ) : Option (OrderState ρ) :=
  (orderInfoRows t fun o => coin.all (o.getCoin = ·) && o.actionIndex = order).head?.map fun row =>
    applyOrderState row (getOrderEdits t order) (getOrderAmountsRemaining t order)

/-! ### All candidates at once -/

structure Candidate where
  coin : Option ℕ
  actionIndex : ℕ

/-- `new Map` of the rows by key: the last row of a key is the one that stays. -/
def lastBy {α : Type} (key : α → ℕ) (rows : List α) (i : ℕ) : Option α :=
  (rows.filter fun r => key r = i).getLast?

/-- A row goes to the lists of its two orders that are among the candidates, once if they are the
same. -/
def pushMatch (indexes : List ℕ) (m : ℕ → List MatchRow) (row : MatchRow) : ℕ → List MatchRow :=
  let m := if row.giveActionIndex ∈ indexes then
    Function.update m row.giveActionIndex (m row.giveActionIndex ++ [row]) else m
  if row.getActionIndex ≠ row.giveActionIndex ∧ row.getActionIndex ∈ indexes then
    Function.update m row.getActionIndex (m row.getActionIndex ++ [row]) else m

def getOrderInfoBatch (t : Tables ρ) (candidates : List Candidate) : List (Option (OrderState ρ)) :=
  let indexes := (candidates.map (·.actionIndex)).dedup
  let orderRows := orderInfoRows t fun o => o.actionIndex ∈ indexes
  let editRows := orderBy (fun e : EditRow => toLex (e.order, e.actionIndex))
    (t.edits.filter fun e => e.order ∈ indexes && e.valid)
  let openingRows := t.orders.filter fun o => o.actionIndex ∈ indexes && o.valid
  let matchRows := orderBy MatchRow.actionIndex (t.matched.filter fun m =>
    (m.giveActionIndex ∈ indexes || m.getActionIndex ∈ indexes) && m.live)
  let edits := editRows.foldl (fun m row =>
    Function.update m row.order (applyEditRow (m row.order) row)) (fun _ => emptyOrderEdit : ℕ → Edit)
  let groups := matchRows.foldl (pushMatch indexes) fun _ => []
  candidates.map fun c =>
    match lastBy (fun row => row.1.actionIndex) orderRows c.actionIndex with
    | none => none
    | some row =>
      if c.coin.any (row.1.getCoin ≠ ·) then none
      else some (applyOrderState row (edits c.actionIndex)
        ((groups c.actionIndex).foldl (subtractMatch c.actionIndex)
          (openingAmounts (lastBy (·.actionIndex) openingRows c.actionIndex))))

/-! ### They agree -/

variable (t : Tables ρ) {i : ℕ}

theorem latestStatuses_unique (i : ℕ) : latestStatuses t i = [] ∨ ∃ s, latestStatuses t i = [s] := by
  have hnd : (t.statuses.map fun s => (s.order, s.actionIndex)).Nodup := by
    rw [← filterMap_eq_map]
    exact t.statuses_unique
  refine (filter_unique hnd fun a ha b hb hpa hpb => ?_).imp_right fun ⟨s, _, _, h⟩ => ⟨s, h⟩
  simp only [Bool.and_eq_true, decide_eq_true_eq, all_eq_true, Bool.or_eq_true] at hpa hpb
  rw [Prod.mk.injEq]
  exact ⟨hpa.1.trans hpb.1.symm, by grind⟩

theorem filter_orderInfoRows (p q : OrderRow ρ → Bool) :
    (orderInfoRows t p).filter (fun row => q row.1) = orderInfoRows t fun o => q o && p o := by
  unfold orderInfoRows
  induction t.orders with
  | nil => rfl
  | cons o l ih =>
    cases hj : o.joined <;> cases hp : p o <;> cases hq : q o <;> simp [hj, hp, hq, ih]

theorem orderInfoRows_unique (i : ℕ) :
    orderInfoRows t (·.actionIndex = i) = [] ∨ ∃ row, orderInfoRows t (·.actionIndex = i) = [row] := by
  unfold orderInfoRows
  obtain h | ⟨o, _, _, h⟩ := filter_unique (p := fun o : OrderRow ρ => o.joined && o.actionIndex = i)
    t.orders_unique (fun a _ b _ ha hb => by simp_all)
  · exact .inl (by rw [h]; rfl)
  · rw [h, flatMap_singleton]
    obtain hs | ⟨s, hs⟩ := latestStatuses_unique t o.actionIndex
    · exact .inl (by rw [hs]; rfl)
    · exact .inr ⟨(o, s.status), by rw [hs]; rfl⟩

variable {indexes : List ℕ}

section
variable (hi : i ∈ indexes)
include hi

theorem lastBy_openingRows :
    lastBy (·.actionIndex) (t.orders.filter fun o => o.actionIndex ∈ indexes && o.valid) i =
      (t.orders.filter fun o => o.actionIndex = i && o.valid).head? := by
  unfold lastBy
  rw [filter_filter]
  have hp : (fun o : OrderRow ρ => decide (o.actionIndex = i) &&
      (decide (o.actionIndex ∈ indexes) && o.valid)) = fun o => o.actionIndex = i && o.valid := by
    funext o
    by_cases ho : o.actionIndex = i <;> simp [ho, hi]
  rw [hp]
  obtain h | ⟨o, _, _, h⟩ := filter_unique (p := fun o : OrderRow ρ => o.actionIndex = i && o.valid)
    t.orders_unique (fun a _ b _ ha hb => by simp_all) <;> rw [h] <;> rfl

theorem edits_eq : (orderBy (fun e : EditRow => toLex (e.order, e.actionIndex))
      (t.edits.filter fun e => e.order ∈ indexes && e.valid)).foldl (fun m row =>
        Function.update m row.order (applyEditRow (m row.order) row))
        (fun _ => emptyOrderEdit : ℕ → Edit) i = getOrderEdits t i := by
  rw [foldl_update_apply, filter_orderBy EditRow.actionIndex
    (t.edits_unique.sublist (filter_sublist.map _)), filter_filter]
  · congr 2
    refine filter_congr fun e _ => ?_
    by_cases he : e.order = i <;> simp [he, hi]
  · intro a b ha hb hab
    rw [decide_eq_true_eq] at ha hb
    rw [Prod.Lex.toLex_le_toLex] at hab
    simpa [ha, hb] using hab

theorem foldl_pushMatch (l : List MatchRow) (m : ℕ → List MatchRow) :
    l.foldl (pushMatch indexes) m i = m i ++ l.filter (·.involves i) := by
  induction l generalizing m with
  | nil => simp
  | cons row l ih =>
    have hpush : pushMatch indexes m row i = m i ++ if row.involves i then [row] else [] := by
      unfold pushMatch MatchRow.involves
      by_cases hgive : row.giveActionIndex = i <;> by_cases hget : row.getActionIndex = i <;> grind
    rw [foldl_cons, ih, hpush]
    cases h : row.involves i <;> simp [h]

theorem remaining_eq : ((orderBy MatchRow.actionIndex (t.matched.filter fun m =>
      (m.giveActionIndex ∈ indexes || m.getActionIndex ∈ indexes) && m.live)).foldl
        (pushMatch indexes) (fun _ => []) i) =
      orderBy MatchRow.actionIndex (t.matched.filter fun m => m.involves i && m.live) := by
  rw [foldl_pushMatch hi, nil_append, filter_orderBy MatchRow.actionIndex
    (t.matched_unique.sublist (filter_sublist.map _)) (fun _ _ _ _ h => h), filter_filter]
  congr 1
  refine filter_congr fun m _ => ?_
  unfold MatchRow.involves
  by_cases h1 : m.giveActionIndex = i <;> by_cases h2 : m.getActionIndex = i <;> simp [h1, h2, hi]

end

/-- **One state for each order.** On every database and every list of candidates, the batched reader
returns for each candidate what the reader of one order returns. -/
theorem getOrderInfoBatch_eq (t : Tables ρ) (candidates : List Candidate) :
    getOrderInfoBatch t candidates =
      candidates.map fun c => getOrderInfo t c.coin c.actionIndex := by
  refine map_congr_left fun c hc => ?_
  have hi : c.actionIndex ∈ (candidates.map (·.actionIndex)).dedup :=
    mem_dedup.mpr (mem_map_of_mem hc)
  have hrows : lastBy (fun row => row.1.actionIndex)
      (orderInfoRows t fun o => o.actionIndex ∈ (candidates.map (·.actionIndex)).dedup)
      c.actionIndex = (orderInfoRows t (·.actionIndex = c.actionIndex)).getLast? := by
    unfold lastBy
    rw [filter_orderInfoRows t _ fun o => decide (o.actionIndex = c.actionIndex)]
    congr 2
    funext o
    by_cases ho : o.actionIndex = c.actionIndex <;> simp [ho, hi]
  unfold getOrderInfo
  rw [hrows, edits_eq t hi, remaining_eq t hi, lastBy_openingRows t hi,
    ← filter_orderInfoRows t (·.actionIndex = c.actionIndex) fun o => c.coin.all (o.getCoin = ·)]
  obtain h | ⟨row, h⟩ := orderInfoRows_unique t c.actionIndex
  · rw [h]
    rfl
  · rw [h]
    cases hcoin : c.coin with
    | none => rfl
    | some coin => by_cases he : row.1.getCoin = coin <;> simp [he, getOrderAmountsRemaining]

end XChainIndexer.Orders.Readers
