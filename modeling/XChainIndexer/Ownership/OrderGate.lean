import XChainIndexer.Lib.Holder
import XChainIndexer.Orders.Fates

/-! # The orders' claims on the ownership gate

The gate of a token and the non-terminal orders that give its ownership form a register in the sense of
`Lib.Holder`. `drops_of_shuts` says when a handler that closes orders and opens their gates drops their
claims; `OwnershipOk` that an order that gives ownership is matched at most once, and in full. -/

namespace XChainIndexer.Ownership.OrderGate

open Bcmath Lib.Holder List Orders Orders.Tables Orders.Match Orders.Escrow Orders.Fates

/-! ### Claims of orders -/

/-- The order `i` gives the ownership of `t` and is not terminal. -/
def liveOrder (b : Book) (t i : ℕ) : Prop :=
  ∃ o, b.find i = some o ∧ o.give = .ownership t ∧ closed o.status = false

def register (b : Book) : Register ℕ ℕ := ⟨b.gate, liveOrder b⟩

/-- The gate after an order handed out its GIVE side. -/
def clears (g : ℕ → Option ℕ) (o : Order) : ℕ → Option ℕ :=
  match o.give with
  | .ownership t => fun t' => if t' = t then none else g t'
  | _ => g

/-- The register after an order gave up its claim. -/
def dropped (r : Register ℕ ℕ) (o : Order) : Register ℕ ℕ :=
  match o.give with
  | .ownership t => r.drop t o.index
  | _ => r

theorem giveOut_gate (blk : Block) (b : Book) (o : Order) (x : ℚ) (d : ℕ → ℕ) (dest : ℕ) :
    (giveOut blk b o x d dest).gate = clears b.gate o := by
  unfold giveOut clears
  split <;> rename_i h <;> rw [h] <;> rfl

section
variable (r : Register ℕ ℕ) (o : Order)

theorem dropped_holder : (dropped r o).holder = clears r.holder o := by
  unfold dropped clears
  split <;> rfl

theorem dropped_live (t i : ℕ) :
    (dropped r o).live t i ↔ r.live t i ∧ ¬ (o.give = .ownership t ∧ i = o.index) := by
  unfold dropped
  split
  · rename_i t' h
    show r.live t i ∧ ¬ (t = t' ∧ i = o.index) ↔ _
    rw [h, Side.ownership.injEq, eq_comm]
  · tauto

end

section
variable (os : List Order) (r : Register ℕ ℕ)

theorem drops_foldl (hnd : (os.map (·.index)).Nodup)
    (h : ∀ o ∈ os, ∀ t, o.give = .ownership t → r.live t o.index) : Drops r (os.foldl dropped r) := by
  induction os generalizing r with
  | nil => exact .same ⟨fun _ => rfl, fun _ _ => Iff.rfl⟩
  | cons o os ih =>
    rw [map_cons, nodup_cons] at hnd
    have hrest : ∀ o' ∈ os, ∀ t, o'.give = .ownership t → (dropped r o).live t o'.index := by
      intro o' ho' t hg
      refine (dropped_live r o t _).mpr ⟨h o' (mem_cons_of_mem _ ho') t hg, fun hne => ?_⟩
      exact hnd.1 (hne.2 ▸ mem_map_of_mem ho')
    refine Drops.trans ?_ (ih (dropped r o) hnd.2 hrest)
    cases hg : o.give with
    | ownership t =>
      have heq : dropped r o = r.drop t o.index := by unfold dropped; rw [hg]
      rw [heq]
      exact .drop (h o mem_cons_self t hg) (.same ⟨fun _ => rfl, fun _ _ => Iff.rfl⟩)
    | coin a | token t a =>
      have heq : dropped r o = r := by unfold dropped; rw [hg]
      rw [heq]
      exact .same ⟨fun _ => rfl, fun _ _ => Iff.rfl⟩

theorem foldl_dropped_holder : (os.foldl dropped r).holder = os.foldl clears r.holder := by
  induction os generalizing r with
  | nil => rfl
  | cons o os ih => rw [foldl_cons, ih, dropped_holder, foldl_cons]

theorem foldl_dropped_live (t i : ℕ) : (os.foldl dropped r).live t i ↔
      r.live t i ∧ ∀ o ∈ os, ¬ (o.give = .ownership t ∧ i = o.index) := by
  induction os generalizing r with
  | nil => simp
  | cons o os ih =>
    rw [foldl_cons, ih, dropped_live, forall_mem_cons, and_assoc]

end

/-- `b'` has the orders of `b` on the same terms, and of those that give ownership it closes exactly the
listed ones. -/
def Shuts (is : List ℕ) (b b' : Book) : Prop :=
  ∃ g : Order → Order, (∀ i, b'.find i = (b.find i).map g) ∧
    ∀ i x, b.find i = some x → (g x).give = x.give ∧
      (x.give.isOwnership = true → closed (g x).status = (closed x.status || decide (i ∈ is)))

variable {b b' : Book}

theorem liveOrder_of_shuts {is : List ℕ} (h : Shuts is b b') (t i : ℕ) :
    liveOrder b' t i ↔ liveOrder b t i ∧ i ∉ is := by
  obtain ⟨g, hfind, hg⟩ := h
  unfold liveOrder
  rw [hfind]
  cases hx : b.find i with
  | none => simp
  | some x =>
    obtain ⟨hgive, hclosed⟩ := hg i x hx
    constructor
    · rintro ⟨o, ho, hown, hc⟩
      obtain ⟨⟩ := ho
      rw [hgive] at hown
      rw [hclosed (by rw [hown]; rfl), Bool.or_eq_false_iff, decide_eq_false_iff_not] at hc
      exact ⟨⟨x, rfl, hown, hc.1⟩, hc.2⟩
    · rintro ⟨⟨o, ho, hown, hc⟩, hi⟩
      obtain ⟨⟩ := ho
      refine ⟨g x, rfl, hgive.trans hown, ?_⟩
      rw [hclosed (by rw [hown]; rfl), hc, Bool.false_or, decide_eq_false_iff_not]
      exact hi

theorem drops_of_shuts (os : List Order) (hfind : ∀ o ∈ os, b.find o.index = some o)
    (hlive : ∀ o ∈ os, o.give.isOwnership → closed o.status = false)
    (hnd : (os.map (·.index)).Nodup) (hgate : b'.gate = os.foldl clears b.gate)
    (hs : Shuts (os.map (·.index)) b b') : Drops (register b) (register b') := by
  have hown : ∀ o ∈ os, ∀ t, o.give = .ownership t → liveOrder b t o.index := fun o ho t hg =>
    ⟨o, hfind o ho, hg, hlive o ho (by rw [hg]; rfl)⟩
  refine (drops_foldl os (register b) hnd hown).trans (.same ⟨fun t => ?_, fun t i => ?_⟩)
  · rw [foldl_dropped_holder]
    exact congrFun hgate t
  · show liveOrder b' t i ↔ _
    rw [liveOrder_of_shuts hs, foldl_dropped_live]
    refine and_congr_right fun hl => ⟨fun hi o ho hne => ?_, fun hi hmem => ?_⟩
    · exact hi (hne.2 ▸ mem_map_of_mem ho)
    · obtain ⟨o, ho, rfl⟩ := mem_map.mp hmem
      obtain ⟨x, hx, hg, _⟩ := hl
      rw [hfind o ho, Option.some.injEq] at hx
      exact hi o ho ⟨hx ▸ hg, rfl⟩

/-! ### An ownership order is matched once -/

def rowsOf (b : Book) (i : ℕ) : List OrderMatch := b.matched.filter fun m => m.involves i

/-- An order that gives ownership has no match, or one that took all of it; while a coin payment is
pending on it, it is not terminal. -/
structure OwnershipOk (b : Book) (o : Order) : Prop where
  rows : rowsOf b o.index = [] ∨ ∃ m, rowsOf b o.index = [m] ∧ m.gives o.index = 1
  live : getPendingCoinpayObligationsByOrder b o.index ≠ [] → closed o.status = false

variable {b b' : Book} {blk : Block} {o : Order}

theorem pending_eq_filter (b : Book) (i : ℕ) :
    getPendingCoinpayObligationsByOrder b i = (rowsOf b i).filter b.pending := by
  unfold getPendingCoinpayObligationsByOrder rowsOf
  rw [filter_filter]
  exact filter_congr fun m _ => Bool.and_comm _ _

theorem amount_of_isOwnership {side : Side} (h : side.isOwnership) : side.amount = 1 := by
  cases side with
  | ownership t => rfl
  | coin a => simp [Side.isOwnership] at h
  | token t a => simp [Side.isOwnership] at h

theorem remaining_of_rows_nil (h : rowsOf b o.index = []) :
    getOrderAmountsRemaining b o = ⟨o.give.amount, o.get.amount⟩ := by
  unfold getOrderAmountsRemaining
  rw [show b.matched.filter (fun m => m.involves o.index) = [] from h]
  rfl

variable {m : OrderMatch}

section
variable (h : OwnershipOk b o)
include h

theorem OwnershipOk.rows_eq (hm : m ∈ b.matched)
    (hi : m.involves o.index) : rowsOf b o.index = [m] ∧ m.gives o.index = 1 := by
  have hmem : m ∈ rowsOf b o.index := mem_filter.mpr ⟨hm, hi⟩
  rcases h.rows with hnil | ⟨m', hrow, hone⟩
  · rw [hnil] at hmem
    simp at hmem
  · rw [hrow, mem_singleton] at hmem
    rw [hmem]
    exact ⟨hrow, hone⟩

theorem OwnershipOk.finished (ho : o.give.isOwnership)
    (hm : m ∈ b.matched) (hi : m.involves o.index) : (getOrderAmountsRemaining b o).give ≤ 0 := by
  obtain ⟨hrow, hone⟩ := h.rows_eq hm hi
  unfold getOrderAmountsRemaining
  rw [show b.matched.filter (fun m => m.involves o.index) = [m] from hrow]
  show bcsub o.give.amount (m.gives o.index) 64 ≤ 0
  rw [amount_of_isOwnership ho, hone]
  unfold bcsub
  rw [sub_self, Fill.format_zero]

theorem OwnershipOk.rows_nil (ho : o.give.isOwnership)
    (hr : 0 < (getOrderAmountsRemaining b o).give) : rowsOf b o.index = [] := by
  rcases h.rows with hnil | ⟨m, hrow, _⟩
  · exact hnil
  · have hmem : m ∈ rowsOf b o.index := by rw [hrow]; exact mem_singleton_self m
    obtain ⟨hm, hi⟩ := mem_filter.mp hmem
    exact absurd hr (not_lt.mpr (h.finished ho hm hi))

theorem OwnershipOk.live_of_pending (hm : m ∈ b.matched)
    (hi : m.involves o.index) (hp : b.pending m) : closed o.status = false := by
  refine h.live fun hnil => ?_
  have hmem : m ∈ getPendingCoinpayObligationsByOrder b o.index :=
    mem_filter.mpr ⟨hm, by rw [hi, hp]; rfl⟩
  rw [hnil] at hmem
  simp at hmem

end

def AllOwnershipOk (b : Book) : Prop :=
  ∀ i o, b.find i = some o → o.give.isOwnership = true → OwnershipOk b o

theorem rows_congr (hm : b'.matched = b.matched) (hob : b'.obligations = b.obligations) (i : ℕ) :
    rowsOf b' i = rowsOf b i ∧
      getPendingCoinpayObligationsByOrder b' i = getPendingCoinpayObligationsByOrder b i := by
  unfold rowsOf getPendingCoinpayObligationsByOrder Book.pending
  rw [hm, hob]
  exact ⟨rfl, rfl⟩

variable {g : Order → Order}

section
variable (h : AllOwnershipOk b)
include h

/-- The rule for a handler that adds no match: what it leaves of an ownership order is on the same
terms, and terminal only when nothing is pending on it. -/
theorem AllOwnershipOk.keep (hm : b'.matched = b.matched)
    (hob : b'.obligations = b.obligations) (hfind : ∀ i, b'.find i = (b.find i).map g)
    (hg : ∀ i x, b.find i = some x → SameTerms x (g x) ∧
      (getPendingCoinpayObligationsByOrder b i ≠ [] → closed x.status = false →
        closed (g x).status = false)) : AllOwnershipOk b' := by
  intro i o' ho' hown
  rw [hfind, Option.map_eq_some_iff] at ho'
  obtain ⟨x, hx, rfl⟩ := ho'
  obtain ⟨hterms, hlive⟩ := hg i x hx
  rw [hterms.give] at hown
  obtain ⟨h1, h2⟩ := h i x hx hown
  have hxi := (find_some hx).2
  refine ⟨?_, fun hne => ?_⟩
  · rw [(rows_congr hm hob _).1, hterms.index]
    exact h1
  · rw [(rows_congr hm hob _).2, hterms.index] at hne
    exact hlive (hxi ▸ hne) (h2 hne)

theorem AllOwnershipOk.bump : AllOwnershipOk b.bump :=
  h.keep rfl rfl (fun _ => Option.map_id'.symm) fun _ x _ => ⟨SameTerms.refl x, fun _ hc => hc⟩

/-- The rule for a handler that resolves the obligation of `m`, and may mark its match row. -/
theorem AllOwnershipOk.resolve (hm : m ∈ b.matched) (mark : OrderMatch → OrderMatch)
    (hmark : ∀ m' i, (mark m').index = m'.index ∧ (mark m').involves i = m'.involves i ∧
      (mark m').gives i = m'.gives i) (hmatched : b'.matched = b.matched.map mark)
    (hpend : ∀ m', b'.pending m' = (b.pending m' && decide (m'.index ≠ m.index)))
    (hfind : ∀ i, b'.find i = (b.find i).map g) (hg : ∀ i x, b.find i = some x → SameTerms x (g x) ∧
      (x.give.isOwnership → ¬ m.involves i → (g x).status = x.status)) : AllOwnershipOk b' := by
  have hrows : ∀ i, rowsOf b' i = (rowsOf b i).map mark := fun i => by
    unfold rowsOf
    rw [hmatched, filter_map]
    exact congrArg _ (filter_congr fun m' _ => (hmark m' i).2.1)
  have hsub : ∀ i m', m' ∈ getPendingCoinpayObligationsByOrder b' i →
      ∃ m₀ ∈ rowsOf b i, b.pending m₀ = true ∧ m₀.index ≠ m.index := fun i m' hm' => by
    rw [pending_eq_filter, hrows] at hm'
    obtain ⟨h1, h2⟩ := mem_filter.mp hm'
    obtain ⟨m₀, h0, rfl⟩ := mem_map.mp h1
    rw [hpend, Bool.and_eq_true, decide_eq_true_eq, (hmark m₀ 0).1] at h2
    refine ⟨m₀, h0, ?_, h2.2⟩
    have hp := h2.1
    unfold Book.pending at hp ⊢
    rwa [(hmark m₀ 0).1] at hp
  intro i o' ho' hown
  rw [hfind, Option.map_eq_some_iff] at ho'
  obtain ⟨x, hx, rfl⟩ := ho'
  obtain ⟨hterms, hstatus⟩ := hg i x hx
  have hxi := (find_some hx).2
  rw [hterms.give] at hown
  have hok := h i x hx hown
  refine ⟨?_, fun hne => ?_⟩
  · rw [hrows, hterms.index]
    rcases hok.rows with hnil | ⟨m', hrow, hone⟩
    · exact .inl (by rw [hnil]; rfl)
    · exact .inr ⟨mark m', by rw [hrow]; rfl, (hmark m' x.index).2.2.trans hone⟩
  · obtain ⟨m', hm'⟩ := exists_mem_of_ne_nil _ hne
    obtain ⟨m₀, h0, hp, hidx⟩ := hsub _ m' hm'
    rw [hterms.index] at h0
    obtain ⟨hmem, hinv⟩ := mem_filter.mp h0
    have hno : ¬ m.involves i := fun hi => by
      rw [← hxi] at hi
      rw [(hok.rows_eq hm hi).1, mem_singleton] at h0
      exact hidx (by rw [h0])
    rw [hstatus hown hno]
    exact hok.live_of_pending hmem hinv hp

end

end XChainIndexer.Ownership.OrderGate
