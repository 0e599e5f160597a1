import XChainIndexer.Lib.Run
import XChainIndexer.Staking.Contract

/-! # What the slash of a contract takes

Under the grid rule the loops of `slashContractStake` are exact: the amounts of the rows have at most
18 decimals, the request is floored onto the grid of the tick, and the take is read back from what
was written (`deduct_drained`). A request too large for exact arithmetic takes everything.

The order is that of the queries: rows not being taken out before cooldown rows, the newest first in
each; under `CONTRACT_SLASH_ACTIVE_FIRST_ACTIVATION` rows past their activation come before pending
ones (`activeStakeRows_ordered`). Main result: `slash_takes_available`. -/

namespace XChainIndexer.Staking.Deduction

open Lib.Decimal Bcmath List Staking.Tables Staking.Contract

/-- The amount of a row: at most 18 decimals, not negative. -/
def IsAmount (x : ℚ) : Prop := OnGrid 18 x ∧ 0 ≤ x

instance (x : ℚ) : Decidable (IsAmount x) := by
  unfold IsAmount; infer_instance

/-! ### The loop -/

variable {x : ℚ}

section
variable (gridOn : Bool) (decimals : ℕ)

theorem deduct_of_nonpos (rows : List Due) (hx : ¬0 < x) : deduct gridOn decimals rows x = ([], x) := by
  cases rows with
  | nil => rfl
  | cons row rows => rw [deduct, if_neg hx]

theorem deduct_append (rows rows' : List Due) (x : ℚ) :
    deduct gridOn decimals (rows ++ rows') x = ((deduct gridOn decimals rows x).1 ++
          (deduct gridOn decimals rows' (deduct gridOn decimals rows x).2).1,
        (deduct gridOn decimals rows' (deduct gridOn decimals rows x).2).2) := by
  induction rows generalizing x with
  | nil => rfl
  | cons row rows ih =>
    by_cases hx : 0 < x
    · simp only [cons_append, deduct, if_pos hx, ih]
    · simp only [deduct_of_nonpos gridOn decimals _ hx, nil_append]

end

variable {row : Due}

theorem deduct_cons (rows : List Due) (hrow : OnGrid 18 row.amount) (hpos : 0 < row.amount)
    (hlt : row.amount < 10 ^ 42) (hx : OnGrid 18 x) (hx0 : 0 < x) :
    OnGrid 18 (min row.amount x) ∧ (deduct true 18 (row :: rows) x).1 =
      ⟨row.index, row.source, row.amount, min row.amount x, row.amount - min row.amount x⟩ ::
        (deduct true 18 rows (bcsub x (min row.amount x) 18)).1 := by
  have hasked : (if x ≤ row.amount then x else row.amount) = min row.amount x := by
    rw [min_comm, min_def]
  have hgrid : OnGrid 18 (min row.amount x) := by
    rcases min_choice row.amount x with h | h <;> rw [h] <;> assumption
  have hmin : 0 < min row.amount x := lt_min hpos hx0
  have hle := min_le_left row.amount x
  have hsmall : ∀ y, 0 ≤ y → y ≤ row.amount → |y| < 10 ^ 46 := by
    intro y hy hy'
    rw [abs_of_nonneg hy]
    exact (hy'.trans_lt hlt).trans (by norm_num)
  have hleft : bcsub row.amount (min row.amount x) 18 = row.amount - min row.amount x :=
    bcsub_of_onGrid le_rfl hrow hgrid (hsmall _ (sub_nonneg.mpr hle) (by linarith))
  have htake : bcsub row.amount (row.amount - min row.amount x) 18 = min row.amount x := by
    rw [bcsub_of_onGrid le_rfl hrow (hrow.sub hgrid), sub_sub_cancel]
    rw [sub_sub_cancel]
    exact hsmall _ hmin.le hle
  refine ⟨hgrid, ?_⟩
  simp only [deduct, if_pos hx0, hasked, hleft, htake, if_true]

/-- The rest of the request covers as much of the other rows as the exact rest. -/
theorem min_rest {rest : ℚ} (hgrid : OnGrid 18 (min row.amount x)) (hpos : 0 < min row.amount x)
    (hsum : row.amount + rest < 10 ^ 42) (hrest : 0 ≤ rest) (hx : OnGrid 18 x) :
    0 ≤ bcsub x (min row.amount x) 18 ∧
      min row.amount x + min (bcsub x (min row.amount x) 18) rest = min x (row.amount + rest) := by
  have hle := min_le_right row.amount x
  rcases lt_or_ge x (10 ^ 46) with hsmall | hlarge
  · have hexact : bcsub x (min row.amount x) 18 = x - min row.amount x := by
      refine bcsub_of_onGrid le_rfl hx hgrid ?_
      rw [abs_of_nonneg (sub_nonneg.mpr hle)]
      exact (sub_le_self x hpos.le).trans_lt hsmall
    rw [hexact]
    refine ⟨sub_nonneg.mpr hle, ?_⟩
    rcases le_total row.amount x with h | h
    · rw [min_eq_left h, ← min_add_add_left, add_sub_cancel]
    · rw [min_eq_right h, sub_self, min_eq_left hrest, add_zero, min_eq_left (by linarith)]
  · -- too much was asked for to be exact: what is left still covers every row
    have hmin : min row.amount x = row.amount := min_eq_left (by norm_num at hlarge hsum; linarith)
    have hread : (10 : ℚ) ^ 45 ≤ bcsub x (min row.amount x) 18 := by
      refine pow_le_format 18 ?_
      linarith
    refine ⟨by linarith, ?_⟩
    rw [min_eq_right (by linarith : rest ≤ _), hmin, min_eq_right (by linarith)]

/-- What it is to take `x` from rows in order. -/
structure Drained (rows : List Due) (x : ℚ) (takes : List Take) : Prop where
  sum : (takes.map Take.amount).sum = min x (rows.map Due.amount).sum
  /-- The takes are from the first rows, -/
  rows : takes.map (fun t => (⟨t.index, t.source, t.prevAmount⟩ : Due)) = rows.take takes.length
  kept : ∀ t ∈ takes, IsAmount t.amount ∧ t.left = t.prevAmount - t.amount ∧ 0 ≤ t.left
  /-- and all but the last of these are emptied. -/
  emptied : ∀ t ∈ takes.dropLast, t.left = 0

theorem sum_map_nonneg {β : Type*} {l : List β} {f : β → ℚ} (h : ∀ x ∈ l, 0 ≤ f x) : 0 ≤ (l.map f).sum := by
  refine sum_nonneg fun y hy => ?_
  obtain ⟨x, hx, rfl⟩ := mem_map.mp hy
  exact h x hx

variable {rows : List Due}

/-- **The loop.** It takes the request from the rows in order. -/
theorem deduct_drained (hrows : ∀ row ∈ rows, OnGrid 18 row.amount ∧ 0 < row.amount)
    (hsum : (rows.map Due.amount).sum < 10 ^ 42) (hx : OnGrid 18 x) (hx0 : 0 ≤ x) :
    Drained rows x (deduct true 18 rows x).1 := by
  induction rows generalizing x with
  | nil => exact ⟨by simpa [deduct] using hx0, rfl, by simp [deduct], by simp [deduct]⟩
  | cons row rows ih =>
    have htail : ∀ r ∈ rows, OnGrid 18 r.amount ∧ 0 < r.amount := fun r hr => hrows r (by simp [hr])
    have hrest : 0 ≤ (rows.map Due.amount).sum := sum_map_nonneg fun r hr => (htail r hr).2.le
    obtain ⟨hgrid, hrow⟩ := hrows row (by simp)
    rw [map_cons, sum_cons] at hsum
    rcases hx0.eq_or_lt with rfl | hpos
    · rw [deduct_of_nonpos _ _ _ (lt_irrefl 0)]
      refine ⟨?_, rfl, by simp, by simp⟩
      rw [map_cons, sum_cons, min_eq_left (by linarith)]
      rfl
    obtain ⟨hmin, heq⟩ := deduct_cons rows hgrid hrow (by linarith) hx hpos
    obtain ⟨hnext, hcover⟩ := min_rest hmin (lt_min hrow hpos) hsum hrest hx
    have hgrid' : OnGrid 18 (bcsub x (min row.amount x) 18) := onGrid_format _ 18
    obtain ⟨hsums, hprefix, hkept, hemptied⟩ := ih htail (by linarith) hgrid' hnext
    rw [heq]
    refine ⟨?_, ?_, ?_, ?_⟩
    · rw [map_cons, sum_cons, map_cons, sum_cons, ← hcover, ← hsums]
    · rw [map_cons, length_cons, take_succ_cons, ← hprefix]
    · rw [forall_mem_cons]
      exact ⟨⟨⟨hmin, (lt_min hrow hpos).le⟩, rfl, sub_nonneg.mpr (min_le_left _ _)⟩, hkept⟩
    · -- when another row is taken from, this one gave all it had
      cases hl : (deduct true 18 rows (bcsub x (min row.amount x) 18)).1 with
      | nil => simp
      | cons t l =>
        rw [← hl, dropLast_cons_of_ne_nil (by rw [hl]; simp), forall_mem_cons]
        refine ⟨?_, hemptied⟩
        rcases le_total row.amount x with h | h
        · exact sub_eq_zero.mpr (min_eq_left h).symm
        · have hzero : bcsub x (min row.amount x) 18 = 0 := by
            rw [min_eq_right h, bcsub, sub_self]
            exact format_of_onGrid (onGrid_zero 18) le_rfl le_rfl (by norm_num)
          rw [hzero, deduct_of_nonpos _ _ _ (lt_irrefl 0)] at hl
          simp at hl

/-! ### The releases -/

variable {releases : List (ℕ × ℚ)}

theorem sum_addRelease {t : Take} (ht : IsAmount t.amount)
    (hr : ∀ p ∈ releases, IsAmount p.2) (hlt : (releases.map Prod.snd).sum + t.amount < 10 ^ 42) :
    ((addRelease 18 releases t).map Prod.snd).sum = (releases.map Prod.snd).sum + t.amount ∧
      ∀ p ∈ addRelease 18 releases t, IsAmount p.2 := by
  induction releases with
  | nil =>
    have hadd : bcadd 0 t.amount 18 = t.amount := by
      rw [bcadd_of_onGrid le_rfl (onGrid_zero 18) ht.1, zero_add]
      rw [zero_add, abs_of_nonneg ht.2]
      simp at hlt
      linarith
    simpa [addRelease, hadd] using ht
  | cons p releases ih =>
    obtain ⟨source, cur⟩ := p
    have hcur := hr (source, cur) (by simp)
    have hrest : ∀ p ∈ releases, IsAmount p.2 := fun p hp => hr p (by simp [hp])
    have hsum : 0 ≤ (releases.map Prod.snd).sum := sum_map_nonneg fun p hp => (hrest p hp).2
    simp only [map_cons, sum_cons] at hlt ⊢
    rw [addRelease]
    split_ifs with h
    · have hadd : bcadd cur t.amount 18 = cur + t.amount := by
        refine bcadd_of_onGrid le_rfl hcur.1 ht.1 ?_
        rw [abs_of_nonneg (add_nonneg hcur.2 ht.2)]
        linarith
      rw [hadd]
      refine ⟨by simp only [map_cons, sum_cons]; ring, ?_⟩
      intro p hp
      rcases mem_cons.mp hp with rfl | hp
      · exact ⟨hcur.1.add ht.1, add_nonneg hcur.2 ht.2⟩
      · exact hrest p hp
    · obtain ⟨hsum', hmem⟩ := ih hrest (by linarith [hcur.2])
      refine ⟨by simp only [map_cons, sum_cons, hsum']; ring, ?_⟩
      intro p hp
      rcases mem_cons.mp hp with rfl | hp
      · exact hcur
      · exact hmem p hp

variable {takes : List Take}

theorem sum_releases (ht : ∀ t ∈ takes, IsAmount t.amount) (hr : ∀ p ∈ releases, IsAmount p.2)
    (hlt : (releases.map Prod.snd).sum + (takes.map Take.amount).sum < 10 ^ 42) :
    ((takes.foldl (addRelease 18) releases).map Prod.snd).sum =
      (releases.map Prod.snd).sum + (takes.map Take.amount).sum := by
  induction takes generalizing releases with
  | nil => simp
  | cons t takes ih =>
    have htail : ∀ t ∈ takes, IsAmount t.amount := fun u hu => ht u (by simp [hu])
    have hsum : 0 ≤ (takes.map Take.amount).sum := sum_map_nonneg fun u hu => (htail u hu).2
    rw [map_cons, sum_cons] at hlt ⊢
    obtain ⟨hone, hmem⟩ := sum_addRelease (ht t (by simp)) hr (by linarith)
    rw [foldl_cons, ih htail hmem (by rw [hone]; linarith), hone]
    ring

/-! ### A slash -/

/-- What is asked for: the amount on the grid of the tick. -/
def requested (decimals : ℕ) (amount : ℚ) : ℚ := max 0 (bcmulfloor amount 1 decimals)

/-- The rows a slash reads of a key in a slot, in its order. -/
def dueRows (R : Rules) (s : State) (slot : Slot) (key block : ℕ) : List Due :=
  (activeStakeRows R s slot key block).map stakeDue ++ (cooldownRows s slot key).map unstakeDue

def available (R : Rules) (s : State) (slot : Slot) (key block : ℕ) : ℚ :=
  ((dueRows R s slot key block).map Due.amount).sum

theorem deductRows_drained {d : ℕ} (hd : d ≤ 18) {stakes unstakes : List Due}
    (hrows : ∀ row ∈ stakes ++ unstakes, OnGrid 18 row.amount ∧ 0 < row.amount)
    (hsum : ((stakes ++ unstakes).map Due.amount).sum < 10 ^ 42) (amount : ℚ) :
    let q := deductRows true d stakes unstakes amount
    Drained (stakes ++ unstakes) (requested d amount) (q.stakes ++ q.unstakes) ∧
      q.total = ((q.stakes ++ q.unstakes).map Take.amount).sum ∧
      (q.releases.map Prod.snd).sum = ((q.stakes ++ q.unstakes).map Take.amount).sum := by
  intro q
  have hnn : 0 ≤ ((stakes ++ unstakes).map Due.amount).sum :=
    sum_map_nonneg fun row hrow => (hrows row hrow).2.le
  by_cases hpos : 0 < bcmulfloor amount 1 d
  swap
  · have hnone : q = ⟨[], [], 0, []⟩ := by simp [q, deductRows, hpos]
    have hzero : requested d amount = 0 := max_eq_left (not_lt.mp hpos)
    rw [hnone, hzero]
    exact ⟨⟨by simpa using hnn, by simp, by simp, by simp⟩, by simp, by simp⟩
  have hreq : requested d amount = bcmulfloor amount 1 d := max_eq_right hpos.le
  have htakes : q.stakes ++ q.unstakes = (deduct true 18 (stakes ++ unstakes) (bcmulfloor amount 1 d)).1 := by
    rw [deduct_append]
    simp [q, deductRows, hpos, slashDeductionPrecision]
  have hdrained := deduct_drained hrows hsum ((onGrid_bcmulfloor amount 1 d).mono hd) hpos.le
  rw [hreq, htakes]
  have hlt : ((deduct true 18 (stakes ++ unstakes) (bcmulfloor amount 1 d)).1.map Take.amount).sum <
      10 ^ 42 := by
    rw [hdrained.sum]
    exact (min_le_right _ _).trans_lt hsum
  refine ⟨hdrained, ?_, ?_⟩
  · have htotal : q.total = ((q.stakes ++ q.unstakes).map Take.amount).foldl
        (fun total x => bcadd total x 18) 0 := by
      rw [foldl_map]
      simp [q, deductRows, hpos, slashDeductionPrecision]
    rw [htotal, htakes, foldl_bcadd le_rfl _ (hlt.trans (by norm_num))]
    intro x hx
    obtain ⟨t, ht, rfl⟩ := mem_map.mp hx
    exact (hdrained.kept t ht).1
  · have hreleases : q.releases = (q.stakes ++ q.unstakes).foldl (addRelease 18) [] := by
      simp [q, deductRows, hpos, slashDeductionPrecision]
    rw [hreleases, htakes, sum_releases (fun t ht => (hdrained.kept t ht).1) (by simp)]
    · simp
    · simpa using hlt

theorem mem_deduct (gridOn : Bool) (decimals : ℕ) (rows : List Due) (x : ℚ) :
    ∀ t ∈ (deduct gridOn decimals rows x).1, (⟨t.index, t.source, t.prevAmount⟩ : Due) ∈ rows := by
  induction rows generalizing x with
  | nil => simp [deduct]
  | cons row rows ih =>
    by_cases hx : 0 < x
    · rw [deduct, if_pos hx, forall_mem_cons]
      exact ⟨by simp, fun t ht => mem_cons_of_mem _ (ih _ t ht)⟩
    · simp [deduct_of_nonpos gridOn decimals _ hx]

/-- What a slash writes to a row: what a take left on it, or nothing. -/
def Written (takes : List Take) (index : ℕ) (before after : ℚ) : Prop :=
  (after = before ∧ ∀ t ∈ takes, t.index ≠ index) ∨
    ∃ t ∈ takes, t.index = index ∧ t.prevAmount = before ∧ t.left = after

theorem leftOf_written (hnd : (rows.map Due.index).Nodup)
    (hmem : ∀ t ∈ takes, (⟨t.index, t.source, t.prevAmount⟩ : Due) ∈ rows) (hrow : row ∈ rows) :
    Written takes row.index row.amount (leftOf takes row.index row.amount) := by
  unfold leftOf
  cases hfind : takes.find? fun t => t.index = row.index with
  | none => exact .inl ⟨rfl, by simpa using hfind⟩
  | some t =>
    have ht := mem_of_find?_eq_some hfind
    have hindex : t.index = row.index := by simpa using find?_some hfind
    refine .inr ⟨t, ht, hindex, ?_, rfl⟩
    exact congrArg Due.amount (inj_on_of_nodup_map hnd (hmem t ht) hrow hindex)

theorem Written.bounds {index : ℕ} {before after : ℚ} (h : Written takes index before after)
    (hbefore : 0 ≤ before)
    (hkept : ∀ t ∈ takes, IsAmount t.amount ∧ t.left = t.prevAmount - t.amount ∧ 0 ≤ t.left) :
    0 ≤ after ∧ after ≤ before := by
  rcases h with ⟨rfl, -⟩ | ⟨t, ht, -, rfl, rfl⟩
  · exact ⟨hbefore, le_rfl⟩
  · obtain ⟨hamount, hleft, hnn⟩ := hkept t ht
    exact ⟨hnn, hleft ▸ sub_le_self _ hamount.2⟩

/-- Tables as the actions leave them: one row for each action, in the order of the actions, with
amounts of at most 18 decimals. -/
structure Rows (s : State) : Prop where
  stakes : s.tables.stakes.Pairwise fun r r' => r.index < r'.index
  unstakes : s.tables.unstakes.Pairwise fun u u' => u.index < u'.index
  stake_amount : ∀ r ∈ s.tables.stakes, IsAmount r.amount
  unstake_amount : ∀ u ∈ s.tables.unstakes, IsAmount u.amount

/-- The order of the rows that are not being taken out. -/
def Precedes (R : Rules) (block : ℕ) (r r' : Stake) : Prop :=
  if R.activeFirst block ∧ ¬(r.activation ≤ block ↔ r'.activation ≤ block) then
    r.activation ≤ block
  else r'.index < r.index

variable {s : State}

/-- **The order of a slash.** The newest first, under the gate after the active ones. -/
theorem activeStakeRows_ordered (hs : Rows s) (R : Rules) (slot : Slot) (key block : ℕ) :
    (activeStakeRows R s slot key block).Pairwise (Precedes R block) := by
  have hrows : ((s.tables.stakes.filter (isDueStake slot key)).reverse).Pairwise
      fun r r' => r'.index < r.index :=
    pairwise_reverse.mpr (hs.stakes.filter _)
  unfold activeStakeRows
  split_ifs with hfirst
  · rw [pairwise_append]
    refine ⟨(hrows.filter _).imp_of_mem fun {r r'} hr hr' h => ?_,
      (hrows.filter _).imp_of_mem fun {r r'} hr hr' h => ?_, fun r hr r' hr' => ?_⟩ <;>
    · have h1 := (mem_filter.mp hr).2
      have h2 := (mem_filter.mp hr').2
      simp only [decide_eq_true_eq, ← not_le] at h1 h2
      simp [Precedes, *]
  · exact hrows.imp fun {r r'} h => by simpa [Precedes, hfirst] using h

theorem mem_activeStakeRows {R : Rules} {slot : Slot} {key block : ℕ} {r : Stake}
    (h : r ∈ activeStakeRows R s slot key block) : r ∈ s.tables.stakes ∧ isDueStake slot key r := by
  unfold activeStakeRows at h
  split_ifs at h
  · simp only [mem_append, mem_filter, mem_reverse] at h
    exact h.elim And.left And.left
  · simpa using h

theorem dueRows_amount (hs : Rows s) (R : Rules) (slot : Slot) (key block : ℕ) :
    ∀ row ∈ dueRows R s slot key block, OnGrid 18 row.amount ∧ 0 < row.amount := by
  intro row hrow
  rcases mem_append.mp hrow with hrow | hrow
  · obtain ⟨r, hr, rfl⟩ := mem_map.mp hrow
    obtain ⟨hmem, hdue⟩ := mem_activeStakeRows hr
    have hgrid := (hs.stake_amount r hmem).1
    simp only [isDueStake, Bool.and_eq_true, decide_eq_true_eq, toFixed_of_onGrid hgrid] at hdue
    exact ⟨hgrid, hdue.1.2⟩
  · obtain ⟨u, hu, rfl⟩ := mem_map.mp hrow
    obtain ⟨hmem, hdue⟩ := mem_filter.mp (mem_reverse.mp hu)
    have hgrid := (hs.unstake_amount u hmem).1
    simp only [isDueUnstake, Bool.and_eq_true, decide_eq_true_eq, toFixed_of_onGrid hgrid] at hdue
    exact ⟨hgrid, hdue.2⟩

theorem mem_deduction (R : Rules) (s : State) (slot : Slot) (key : ℕ) (amount : ℚ) (block : ℕ) :
    (∀ t ∈ (deduction R s slot key amount block).stakes,
      (⟨t.index, t.source, t.prevAmount⟩ : Due) ∈ s.tables.stakes.map stakeDue) ∧
    ∀ t ∈ (deduction R s slot key amount block).unstakes,
      (⟨t.index, t.source, t.prevAmount⟩ : Due) ∈ s.tables.unstakes.map unstakeDue := by
  unfold deduction deductRows
  dsimp only
  split_ifs <;> try (simp; done)
  all_goals
    refine ⟨fun t ht => ?_, fun t ht => ?_⟩
    · obtain ⟨r, hr, heq⟩ := mem_map.mp (mem_deduct _ _ _ _ t ht)
      exact heq ▸ mem_map_of_mem (mem_activeStakeRows hr).1
    · obtain ⟨u, hu, heq⟩ := mem_map.mp (mem_deduct _ _ _ _ t ht)
      exact heq ▸ mem_map_of_mem (mem_filter.mp (mem_reverse.mp hu)).1

/-- **A slash of a contract.** It takes the smaller of the request on the grid and what is there, from
the rows in the order of the queries, all but the last of them emptied. The reductions of the rows
and the releases each add up to the total, and no row is left negative or above what it had. -/
theorem slash_takes_available (R : Rules) {s : State} (hs : Rows s) (slot : Slot) (key : ℕ) (amount : ℚ)
    {block : ℕ} (hgrid : R.slashGrid block = true) (hav : available R s slot key block < 10 ^ 42) :
    let q := deduction R s slot key amount block
    let takes := q.stakes ++ q.unstakes
    let s' := slashContractStake R s slot key amount block
    q.total = min (requested (slotDecimals R slot) amount) (available R s slot key block) ∧
    (IsAmount amount → amount < 10 ^ 42 → requested (slotDecimals R slot) amount =
      ⌊amount * 10 ^ slotDecimals R slot⌋ / 10 ^ slotDecimals R slot) ∧
    (takes.map fun t => t.prevAmount - t.left).sum = q.total ∧
    (q.releases.map Prod.snd).sum = q.total ∧
    takes.map (fun t => (⟨t.index, t.source, t.prevAmount⟩ : Due)) =
      (dueRows R s slot key block).take takes.length ∧
    (∀ t ∈ takes.dropLast, t.left = 0) ∧
    (activeStakeRows R s slot key block).Pairwise (Precedes R block) ∧
    (cooldownRows s slot key).Pairwise (fun u u' => u'.index < u.index) ∧
    List.Forall₂ (fun r r' => Written q.stakes r.index r.amount r'.amount ∧
      0 ≤ r'.amount ∧ r'.amount ≤ r.amount) s.tables.stakes s'.tables.stakes ∧
    List.Forall₂ (fun u u' => Written q.unstakes u.index u.amount u'.amount ∧
      0 ≤ u'.amount ∧ u'.amount ≤ u.amount) s.tables.unstakes s'.tables.unstakes := by
  intro q takes s'
  have hd : slotDecimals R slot ≤ 18 := by
    cases slot with
    | capability => exact (by decide : 8 ≤ 18)
    | contract target tick => exact R.decimals_le tick
  have hq : q = deductRows true (slotDecimals R slot) ((activeStakeRows R s slot key block).map stakeDue)
      ((cooldownRows s slot key).map unstakeDue) amount := by
    simp only [q, deduction, hgrid]
  obtain ⟨hdrained, htotal, hreleases⟩ := deductRows_drained hd (dueRows_amount hs R slot key block) hav
    amount
  rw [← hq] at hdrained htotal hreleases
  obtain ⟨hstakes, hunstakes⟩ := mem_deduction R s slot key amount block
  have hsum := htotal.trans hdrained.sum
  refine ⟨hsum, fun h hlt => ?_, ?_, hreleases.trans htotal.symm, hdrained.rows, hdrained.emptied,
    activeStakeRows_ordered hs R slot key block, pairwise_reverse.mpr (hs.unstakes.filter _), ?_, ?_⟩
  · have h1 := mul_one amount
    rw [requested, bcmulfloor_of_onGrid hd hd (by norm_num) (h1.symm ▸ h.1) (h1.symm ▸ h.2)
      (h1.symm ▸ hlt), h1, max_eq_right]
    exact div_nonneg (by exact_mod_cast Int.floor_nonneg.mpr (mul_nonneg h.2 (by positivity)))
      (by positivity)
  · rw [htotal]
    refine congrArg List.sum (map_congr_left fun t ht => ?_)
    rw [(hdrained.kept t ht).2.1, sub_sub_cancel]
  · have hnd : ((s.tables.stakes.map stakeDue).map Due.index).Nodup := by
      rw [map_map]
      exact (pairwise_map.mpr hs.stakes).imp fun h => Nat.ne_of_lt h
    refine List.forall₂_map_right_iff.mpr (List.forall₂_same.mpr fun r hr => ?_)
    have hwritten := leftOf_written hnd hstakes (mem_map_of_mem hr)
    exact ⟨hwritten, hwritten.bounds (hs.stake_amount r hr).2 fun t ht =>
      hdrained.kept t (mem_append_left _ ht)⟩
  · have hnd : ((s.tables.unstakes.map unstakeDue).map Due.index).Nodup := by
      rw [map_map]
      exact (pairwise_map.mpr hs.unstakes).imp fun h => Nat.ne_of_lt h
    refine List.forall₂_map_right_iff.mpr (List.forall₂_same.mpr fun u hu => ?_)
    have hwritten := leftOf_written hnd hunstakes (mem_map_of_mem hu)
    exact ⟨hwritten, hwritten.bounds (hs.unstake_amount u hu).2 fun t ht =>
      hdrained.kept t (mem_append_right _ ht)⟩

/-! ### A newer row that is spared -/

theorem eight_le_slashDeductionPrecision : 8 ≤ slashDeductionPrecision := by decide

def everyRule : Rules where
  activationDelay := 6
  cooldownBlocks _ := 10
  decimals _ := 8
  decimals_le _ := eight_le_slashDeductionPrecision
  partialUnstake _ := true
  delegatedKey _ := true
  materialize _ := true
  rotateInWindow _ := true
  rowJournal _ := true
  slashGrid _ := true
  activeFirst _ := true

/-- A stake of 10 of which 4 are taken out: a row of 6, and 4 in cooldown. -/
def partlyOut : State :=
  ⟨6, ⟨[⟨0, 1, 7, .contract 3 2, 10, 6, some 12, 0⟩, ⟨1, 1, 7, .contract 3 2, 6, 12, none, 6⟩],
    [⟨1, 1, 7, .contract 3 2, 4, 16, .valid, 6⟩], [], 2⟩, [], []⟩

theorem slash_takes_available_partlyOut :
    Lib.Run.run (step everyRule) init (.stake 1 (.contract 3 2) 7 10 true :: List.replicate 6 .begin ++
        [.unstake 1 (.contract 3 2) 7 (some 4) true]) = some partlyOut ∧
    (deduction everyRule partlyOut (.contract 3 2) 7 9 6).unstakes.map (·.left) = [1] ∧
    (deduction everyRule partlyOut (.contract 3 2) 7 9 6).total =
      min (requested 8 9) (available everyRule partlyOut (.contract 3 2) 7 6) := by
  have hrows : Rows partlyOut := ⟨by decide, by decide, by decide, by decide⟩
  have hav : available everyRule partlyOut (.contract 3 2) 7 6 < 10 ^ 42 := by decide +kernel
  exact ⟨by decide +kernel, by decide +kernel,
    (slash_takes_available everyRule hrows (.contract 3 2) 7 9 rfl hav).1⟩

/-- A stake past its activation and a top-up that is not. -/
def toppedUp : State :=
  ⟨6, ⟨[⟨0, 1, 7, .contract 3 2, 10, 6, none, 0⟩, ⟨1, 1, 7, .contract 3 2, 10, 12, none, 6⟩], [], [], 2⟩,
    [], []⟩

/-- The older row is taken from while the newer one, still pending, keeps all it has. -/
theorem pending_row_spared :
    Lib.Run.run (step everyRule) init
        (.stake 1 (.contract 3 2) 7 10 true :: List.replicate 6 .begin ++
          [.stake 1 (.contract 3 2) 7 10 true]) = some toppedUp ∧
      (slashContractStake everyRule toppedUp (.contract 3 2) 7 5 6).tables.stakes.map
        (fun r => (r.index, r.amount)) = [(0, 5), (1, 10)] := by
  constructor <;> decide +kernel

end XChainIndexer.Staking.Deduction
