import XChainIndexer.Lib.Outcome
import XChainIndexer.StateTree.Balances
import XChainIndexer.StateTree.Touched
import XChainIndexer.StateTree.Updates

/-! # A full build of the balances tree

`Describes` says what the leaves of the tree are: the balance of every pair of an address and a tick, what
it has locked, and nothing else. A full build that is not refused gives such a tree (`isRoot_full`). The
description fixes the root: whatever tree has it, a full build gives its root (`IsRoot.full`). -/

namespace XChainIndexer.StateTree.Rebuild

open Bcmath IndexTables Interning Ledger.Records List Lib.Decimal Lib.NodeStore Lib.Outcome
open Lib.SparseTree (Leaves withLeaf)
open StateTree.Guards StateTree.Balances
open StateTree.Engine (Tree withLeaves tree_blank)
open StateTree.Updates (withLeaves_key withLeaves_of_notMem tree_applyUpdates)

variable {H : Type} {M : EscrowMerkle H}

/-! ### Leaves of amounts -/

/-- The leaf of an amount, the constant for zero. -/
def leafOf (M : EscrowMerkle H) (amount : ℚ) : H := if amount = 0 then M.empty0 else M.amountLeaf amount

def leafOpt (M : EscrowMerkle H) (amount : ℚ) : Option H :=
  if amount = 0 then none else some (M.amountLeaf amount)

section
variable (M : EscrowMerkle H)

theorem leafOpt_getD (amount : ℚ) : (leafOpt M amount).getD M.empty0 = leafOf M amount := by
  unfold leafOpt leafOf
  split_ifs <;> rfl

theorem leafOrNull_eq (entry : Text) (net : ℚ) : leafOrNull M.toMerkle entry net =
      if net < 0 then .error (.nonCanonicalAmount entry) else .ok (leafOpt M net) := rfl

theorem balanceUpdate_eq (b : Pair × ℚ) : balanceUpdate M b =
    if b.2 < 0 then .error (.nonCanonicalAmount (touchedKey b.1.1.name b.1.2.name))
    else .ok (M.balanceKey b.1.1.name b.1.2.name, leafOpt M b.2) := by
  rw [balanceUpdate, leafOrNull_eq]
  split_ifs <;> rfl

theorem escrowUpdate_eq (n : Text × Text) (amount : Option ℚ) :
    escrowUpdate M n amount = if amount.getD 0 < 0 then .error (.nonCanonicalAmount (touchedKey n.1 n.2))
      else .ok (M.escrowKey n.1 n.2, leafOpt M (amount.getD 0)) := by
  cases amount with
  | none => simp [escrowUpdate, escrowLeaf, leafOpt, Except.map]
  | some amount =>
    rw [escrowUpdate, escrowLeaf, leafOrNull_eq]
    simp only [Option.getD_some]
    split_ifs <;> rfl

end

/-! ### Names and sums -/

/-- The unique indexes of the two tables, in the comparison of their columns. -/
structure NamesOk (c : Collation) (names : Names) : Prop where
  addresses : IndexOk names.addresses
  tickers : IndexOk names.tickers
  address_unique : ∀ x ∈ names.addresses, ∀ x' ∈ names.addresses,
    c.generalCi x.name = c.generalCi x'.name → x = x'
  tick_unique : ∀ y ∈ names.tickers, ∀ y' ∈ names.tickers, rtrim y.name = rtrim y'.name → y = y'

variable {names : Names} {q : Pair}

theorem mem_pairs : q ∈ pairs names ↔ q.1 ∈ names.addresses ∧ q.2 ∈ names.tickers := pair_mem_product

section names
variable {c : Collation} {names : Names} (hn : NamesOk c names) {q q' : Pair} (hq : q ∈ pairs names)
  (hq' : q' ∈ pairs names)
include hn hq hq'

theorem eq_of_same (h : same c q.names q'.names) : q = q' := by
  rw [mem_pairs] at hq hq'
  rw [same, Bool.and_eq_true] at h
  exact Prod.ext (hn.address_unique _ hq.1 _ hq'.1 (of_decide_eq_true h.1))
    (hn.tick_unique _ hq.2 _ hq'.2 (of_decide_eq_true h.2))

theorem eq_of_names (h : q.names = q'.names) : q = q' :=
  eq_of_same hn hq hq' (by rw [h]; simp [same])

theorem eq_of_ids (h1 : q.1.id = q'.1.id) (h2 : q.2.id = q'.2.id) : q = q' := by
  rw [mem_pairs] at hq hq'
  exact Prod.ext (hn.addresses.row_unique hq.1 hq'.1 h1) (hn.tickers.row_unique hq.2 hq'.2 h2)

end names

def ofPair (r : LedgerRow) (q : Pair) : Bool := r.addressId = some q.1.id && r.tickId = some q.2.id

variable {db : Db} {n : Text × Text}

theorem mem_joinNames_iff {r : LedgerRow} :
    n ∈ joinNames db r ↔ ∃ q ∈ pairs db.names, ofPair r q ∧ q.names = n := by
  simp only [joinNames, mem_flatMap, mem_filter, mem_map, decide_eq_true_eq]
  constructor
  · rintro ⟨x, ⟨hx, hxid⟩, y, ⟨hy, hyid⟩, rfl⟩
    exact ⟨(x, y), mem_pairs.mpr ⟨hx, hy⟩, by simp [ofPair, ← hxid, ← hyid], rfl⟩
  · rintro ⟨q, hq, hids, rfl⟩
    simp only [ofPair, Bool.and_eq_true, decide_eq_true_eq] at hids
    rw [mem_pairs] at hq
    exact ⟨q.1, ⟨hq.1, hids.1.symm⟩, q.2, ⟨hq.2, hids.2.symm⟩, rfl⟩

section sums
variable {c : Ctx} {db : Db} {q : Pair}

theorem ledgerSum_eq (hn : NamesOk c.collation db.names) (hq : q ∈ pairs db.names)
    (rows : List LedgerRow) : ledgerSum c db rows q.1.name q.2.name = pairSum rows q := by
  unfold ledgerSum pairSum
  congr 2
  refine filter_congr fun r _ => ?_
  rw [Bool.eq_iff_iff, any_eq_true]
  constructor
  · rintro ⟨n, hmem, hsame⟩
    obtain ⟨q', hq', hids, rfl⟩ := mem_joinNames_iff.mp hmem
    obtain rfl := eq_of_same hn hq' hq hsame
    exact hids
  · intro hids
    exact ⟨q.names, mem_joinNames_iff.mpr ⟨q, hq, hids, rfl⟩, by simp [Pair.names]⟩

theorem ledgerSum_eq_zero
    (hno : ∀ q ∈ pairs db.names, same c.collation q.names n = false) (rows : List LedgerRow) :
    ledgerSum c db rows n.1 n.2 = 0 := by
  have hnil : rows.filter (fun r => (joinNames db r).any fun m =>
      c.collation.generalCi m.1 = c.collation.generalCi n.1 && rtrim m.2 = rtrim n.2) = [] := by
    rw [filter_eq_nil_iff]
    intro r _ h
    obtain ⟨m, hmem, hsame⟩ := any_eq_true.mp h
    obtain ⟨q, hq, -, rfl⟩ := mem_joinNames_iff.mp hmem
    exact absurd hsame (by rw [← same, hno q hq]; decide)
  rw [ledgerSum, hnil]
  rfl

/-- Amounts of 18 decimals, and balances that 64 digits can hold. -/
structure Ranged (db : Db) : Prop where
  grid : ∀ r ∈ db.credits ++ db.debits, OnGrid 18 r.amount
  lt : ∀ q ∈ pairs db.names, |pairNet db q| < 10 ^ 46

theorem onGrid_pairSum {rows : List LedgerRow} (h : ∀ r ∈ rows, OnGrid 18 r.amount) (q : Pair) :
    OnGrid 18 (pairSum rows q) := by
  refine onGrid_sum fun x hx => ?_
  obtain ⟨r, hr, rfl⟩ := mem_map.mp hx
  exact h r (mem_of_mem_filter hr)

theorem getNetBalance_eq (hn : NamesOk c.collation db.names) (hr : Ranged db)
    (hq : q ∈ pairs db.names) : getNetBalance c db q.1.name q.2.name = pairNet db q := by
  rw [getNetBalance, ledgerSum_eq hn hq, ledgerSum_eq hn hq]
  have hgrid : OnGrid 18 (pairSum db.credits q - pairSum db.debits q) :=
    (onGrid_pairSum (fun r h => hr.grid r (mem_append_left _ h)) q).sub
      (onGrid_pairSum (fun r h => hr.grid r (mem_append_right _ h)) q)
  exact format_of_onGrid hgrid le_rfl le_rfl (hr.lt q hq)

theorem getNetBalance_eq_zero
    (hno : ∀ q ∈ pairs db.names, same c.collation q.names n = false) : getNetBalance c db n.1 n.2 = 0 := by
  rw [getNetBalance, ledgerSum_eq_zero hno, ledgerSum_eq_zero hno]
  decide +kernel

end sums

/-! ### What a tree holds -/

/-- No two of the names have one key. -/
structure KeysFree (M : EscrowMerkle H) (K : Set (Text × Text)) : Prop where
  balance : ∀ n ∈ K, ∀ n' ∈ K, M.balanceKey n.1 n.2 = M.balanceKey n'.1 n'.2 → n = n'
  escrow : ∀ n ∈ K, ∀ n' ∈ K, M.escrowKey n.1 n.2 = M.escrowKey n'.1 n'.2 → n = n'
  apart : ∀ n ∈ K, ∀ n' ∈ K, M.balanceKey n.1 n.2 ≠ M.escrowKey n'.1 n'.2

/-- The names of the tables are among those. -/
def NamesIn (K : Set (Text × Text)) (names : Names) : Prop := ∀ q ∈ pairs names, q.names ∈ K

def balanceKeyOf (M : EscrowMerkle H) (q : Pair) : List Bool := M.balanceKey q.1.name q.2.name

def escrowKeyOf (M : EscrowMerkle H) (q : Pair) : List Bool := M.escrowKey q.1.name q.2.name

/-- What a pair has locked, from the height on at which the leaves are armed. -/
def lockedOf (armed : Bool) (journal : List JournalRow) (q : Pair) : ℚ :=
  if armed then ((latest journal q).bind JournalRow.lockedAmount).getD 0 else 0

/-- **What the leaves are:** the balance and the locked amount of every pair, and nothing else. -/
structure Describes (M : EscrowMerkle H) (names : Names) (net locked : Pair → ℚ) (f : Leaves H) :
    Prop where
  balance : ∀ q ∈ pairs names, f (balanceKeyOf M q) = leafOf M (net q)
  escrow : ∀ q ∈ pairs names, f (escrowKeyOf M q) = leafOf M (locked q)
  other : ∀ p, (∀ q ∈ pairs names, p ≠ balanceKeyOf M q ∧ p ≠ escrowKeyOf M q) → f p = M.empty0

theorem Describes.eq {net locked : Pair → ℚ} {f g : Leaves H} (hf : Describes M names net locked f)
    (hg : Describes M names net locked g) : f = g := by
  funext p
  by_cases hp : ∀ q ∈ pairs names, p ≠ balanceKeyOf M q ∧ p ≠ escrowKeyOf M q
  · rw [hf.other p hp, hg.other p hp]
  · push Not at hp
    obtain ⟨q, hq, hkey⟩ := hp
    by_cases hb : p = balanceKeyOf M q
    · rw [hb, hf.balance q hq, hg.balance q hq]
    · rw [hkey hb, hf.escrow q hq, hg.escrow q hq]

/-- No amount is negative. -/
def Nonneg (names : Names) (net locked : Pair → ℚ) : Prop :=
  ∀ q ∈ pairs names, 0 ≤ net q ∧ 0 ≤ locked q

/-! ### A full build -/

/-- The balances that a full build writes, in one list. -/
def balanceList (M : EscrowMerkle H) (db : Db) : List (Update H) :=
  ((getNonzeroNetBalances db).map fun b => (balanceKeyOf M b.1, leafOpt M b.2)).filter (·.2.isSome)

def lockers (names : Names) (journal : List JournalRow) : List (Pair × JournalRow) :=
  (pairs names).filterMap fun q => (latest journal q).map fun j => (q, j)

def escrowList (M : EscrowMerkle H) (names : Names) (journal : List JournalRow) : List (Update H) :=
  ((lockers names journal).map fun l =>
    (escrowKeyOf M l.1, leafOpt M (l.2.lockedAmount.getD 0))).filter (·.2.isSome)

theorem mem_getNonzeroNetBalances {b : Pair × ℚ} :
    b ∈ getNonzeroNetBalances db ↔ b.1 ∈ pairs db.names ∧ b.2 = pairNet db b.1 ∧ b.2 ≠ 0 := by
  simp only [getNonzeroNetBalances, mem_filter, mem_map, decide_eq_true_eq]
  constructor
  · rintro ⟨⟨q, hq, rfl⟩, hne⟩
    exact ⟨hq, rfl, hne⟩
  · rintro ⟨hq, hnet, hne⟩
    exact ⟨⟨b.1, hq, by rw [← hnet]⟩, hne⟩

variable {journal : List JournalRow}

theorem mem_lockers {l : Pair × JournalRow} :
    l ∈ lockers names journal ↔ l.1 ∈ pairs names ∧ latest journal l.1 = some l.2 := by
  simp only [lockers, mem_filterMap, Option.map_eq_some_iff]
  constructor
  · rintro ⟨q, hq, j, hj, rfl⟩
    exact ⟨hq, hj⟩
  · rintro ⟨hq, hj⟩
    exact ⟨l.1, hq, l.2, hj, rfl⟩

variable {us : List (Update H)}

theorem allBalances_ok (h : allBalances M db = .ok us) :
    (∀ q ∈ pairs db.names, 0 ≤ pairNet db q) ∧ us = balanceList M db := by
  obtain ⟨l, hl, rfl⟩ := map_ok h
  obtain ⟨hall, rfl⟩ := mapM_ok (balanceUpdate_eq M) hl
  refine ⟨fun q hq => ?_, rfl⟩
  by_cases hzero : pairNet db q = 0
  · exact hzero.ge
  · exact not_lt.mp (hall (q, pairNet db q) (mem_getNonzeroNetBalances.mpr ⟨hq, rfl, hzero⟩))

theorem allBalances_of_nonneg (h : ∀ q ∈ pairs db.names, 0 ≤ pairNet db q) :
    allBalances M db = .ok (balanceList M db) := by
  have hall : ∀ b ∈ getNonzeroNetBalances db, ¬ b.2 < 0 := by
    intro b hb
    obtain ⟨hq, hnet, -⟩ := mem_getNonzeroNetBalances.mp hb
    rw [hnet]
    exact not_lt.mpr (h b.1 hq)
  rw [allBalances, mapM_of_forall (balanceUpdate_eq M) hall]
  rfl

theorem escrowUpdate_locker (M : EscrowMerkle H) (l : Pair × JournalRow) :
    escrowUpdate M l.1.names l.2.lockedAmount = if l.2.lockedAmount.getD 0 < 0 then
      .error (.nonCanonicalAmount (touchedKey l.1.names.1 l.1.names.2))
    else .ok (escrowKeyOf M l.1, leafOpt M (l.2.lockedAmount.getD 0)) :=
  escrowUpdate_eq M l.1.names l.2.lockedAmount

theorem lockedOf_armed {j : JournalRow} (h : latest journal q = some j) :
    lockedOf true journal q = j.lockedAmount.getD 0 := by
  rw [lockedOf, if_pos rfl, h, Option.bind_some]

theorem liveEscrowLeaves_ok (h : liveEscrowLeaves M names journal = .ok us) :
    (∀ q ∈ pairs names, 0 ≤ lockedOf true journal q) ∧ us = escrowList M names journal := by
  obtain ⟨l, hl, rfl⟩ := map_ok h
  obtain ⟨hall, rfl⟩ := mapM_ok (escrowUpdate_locker M) hl
  refine ⟨fun q hq => ?_, rfl⟩
  cases hj : latest journal q with
  | none => simp [lockedOf, hj]
  | some j =>
    rw [lockedOf_armed hj]
    exact not_lt.mp (hall (q, j) (mem_lockers.mpr ⟨hq, hj⟩))

theorem liveEscrowLeaves_of_nonneg (h : ∀ q ∈ pairs names, 0 ≤ lockedOf true journal q) :
    liveEscrowLeaves M names journal = .ok (escrowList M names journal) := by
  have hall : ∀ l ∈ lockers names journal, ¬ l.2.lockedAmount.getD 0 < 0 := by
    intro l hl
    obtain ⟨hq, hj⟩ := mem_lockers.mp hl
    rw [← lockedOf_armed hj]
    exact not_lt.mpr (h l.1 hq)
  unfold liveEscrowLeaves
  rw [← lockers, mapM_of_forall (escrowUpdate_locker M) hall]
  rfl

def fullList (M : EscrowMerkle H) (armed : Bool) (db : Db) (journal : List JournalRow) : List (Update H) :=
  balanceList M db ++ if armed then escrowList M db.names journal else []

variable {armed : Bool}

theorem fullUpdates_ok (h : fullUpdates M armed db journal = .ok us) :
    Nonneg db.names (pairNet db) (lockedOf armed journal) ∧ us = fullList M armed db journal := by
  obtain ⟨balances, hbalances, h⟩ := bind_ok h
  obtain ⟨escrows, hescrows, h⟩ := bind_ok h
  obtain ⟨hnet, rfl⟩ := allBalances_ok hbalances
  obtain rfl := Except.ok.inj h
  cases armed with
  | false =>
    obtain rfl := Except.ok.inj hescrows
    exact ⟨fun q hq => ⟨hnet q hq, by simp [lockedOf]⟩, rfl⟩
  | true =>
    obtain ⟨hlocked, rfl⟩ := liveEscrowLeaves_ok hescrows
    exact ⟨fun q hq => ⟨hnet q hq, hlocked q hq⟩, rfl⟩

theorem fullUpdates_of_nonneg (h : Nonneg db.names (pairNet db) (lockedOf armed journal)) :
    fullUpdates M armed db journal = .ok (fullList M armed db journal) := by
  unfold fullUpdates
  rw [allBalances_of_nonneg fun q hq => (h q hq).1]
  cases armed with
  | false => rfl
  | true =>
    rw [liveEscrowLeaves_of_nonneg fun q hq => (h q hq).2]
    rfl

/-- Updates that set the amounts of pairs, at least those that are not zero. -/
structure Sets (M : EscrowMerkle H) (names : Names) (key : Pair → List Bool) (amount : Pair → ℚ)
    (us : List (Update H)) : Prop where
  sound : ∀ u ∈ us, ∃ q ∈ pairs names, u = (key q, leafOpt M (amount q))
  complete : ∀ q ∈ pairs names, amount q ≠ 0 → (key q, leafOpt M (amount q)) ∈ us

section
variable (M : EscrowMerkle H)

theorem sets_balanceList (db : Db) :
    Sets M db.names (balanceKeyOf M) (pairNet db) (balanceList M db) where
  sound u hu := by
    obtain ⟨b, hb, rfl⟩ := mem_map.mp (mem_of_mem_filter hu)
    obtain ⟨hq, hnet, -⟩ := mem_getNonzeroNetBalances.mp hb
    exact ⟨b.1, hq, by rw [hnet]⟩
  complete q hq hne := by
    refine mem_filter.mpr ⟨?_, by simp [leafOpt, hne]⟩
    exact mem_map.mpr ⟨(q, pairNet db q), mem_getNonzeroNetBalances.mpr ⟨hq, rfl, hne⟩, rfl⟩

theorem sets_escrowList (names : Names) (journal : List JournalRow) :
    Sets M names (escrowKeyOf M) (lockedOf true journal) (escrowList M names journal) where
  sound u hu := by
    obtain ⟨l, hl, rfl⟩ := mem_map.mp (mem_of_mem_filter hu)
    obtain ⟨hq, hj⟩ := mem_lockers.mp hl
    exact ⟨l.1, hq, by rw [lockedOf_armed hj]⟩
  complete q hq hne := by
    cases hj : latest journal q with
    | none => exact absurd (by simp [lockedOf, hj]) hne
    | some j =>
      rw [lockedOf_armed hj] at hne ⊢
      refine mem_filter.mpr ⟨?_, by simp [leafOpt, hne]⟩
      exact mem_map.mpr ⟨(q, j), mem_lockers.mpr ⟨hq, hj⟩, rfl⟩

theorem sets_escrows (names : Names) (armed : Bool) (journal : List JournalRow) :
    Sets M names (escrowKeyOf M) (lockedOf armed journal)
      (if armed then escrowList M names journal else []) := by
  cases armed with
  | true => exact sets_escrowList M names journal
  | false => exact ⟨by simp, fun q _ hne => absurd (by simp [lockedOf]) hne⟩

end

theorem Sets.leaf_eq {key : Pair → List Bool} {amount : Pair → ℚ} {vs : List (Update H)}
    (hus : Sets M names key amount us) (hq : q ∈ pairs names)
    (hkey : ∀ q' ∈ pairs names, key q' = key q → q' = q) (hsub : us ⊆ vs)
    (hvs : ∀ v ∈ vs, v.1 = key q → v ∈ us) :
    withLeaves M.toNodeHash (fun _ => M.empty0) vs (key q) = leafOf M (amount q) := by
  have hamount : ∀ v ∈ vs, v.1 = key q → v.2 = leafOpt M (amount q) := by
    intro v hv he
    obtain ⟨q', hq', rfl⟩ := hus.sound v (hvs v hv he)
    rw [hkey q' hq' he]
  rw [← leafOpt_getD]
  refine withLeaves_key hamount fun hno => ?_
  have hzero : amount q = 0 := by
    by_contra hne
    exact hno _ (hsub (hus.complete q hq hne)) rfl
  rw [hzero]
  rfl

section describes
variable {K : Set (Text × Text)} (hk : KeysFree M K) {c : Collation} {names : Names}
  (hn : NamesOk c names) (hin : NamesIn K names)
include hk hn hin

variable {q q' : Pair}

section
variable (hq : q ∈ pairs names) (hq' : q' ∈ pairs names)
include hq hq'

theorem balanceKeyOf_inj (h : balanceKeyOf M q = balanceKeyOf M q') : q = q' :=
  eq_of_names hn hq hq' (hk.balance _ (hin q hq) _ (hin q' hq') h)

theorem escrowKeyOf_inj (h : escrowKeyOf M q = escrowKeyOf M q') : q = q' :=
  eq_of_names hn hq hq' (hk.escrow _ (hin q hq) _ (hin q' hq') h)

end

omit hn in
theorem balanceKeyOf_ne (hq : q ∈ pairs names) (hq' : q' ∈ pairs names) :
    balanceKeyOf M q ≠ escrowKeyOf M q' := hk.apart _ (hin q hq) _ (hin q' hq')

/-- **A full build** makes a tree of the balances and the locked amounts. -/
theorem describes_full {db : Db} (hdb : db.names = names) (armed : Bool) (journal : List JournalRow) :
    Describes M names (pairNet db) (lockedOf armed journal)
      (withLeaves M.toNodeHash (fun _ => M.empty0) (fullList M armed db journal)) := by
  have hbalance := sets_balanceList M db
  have hescrow := sets_escrows M db.names armed journal
  rw [hdb] at hbalance hescrow
  have hlist : fullList M armed db journal =
      balanceList M db ++ if armed then escrowList M names journal else [] := by
    rw [fullList, hdb]
  rw [hlist]
  refine ⟨fun q hq => ?_, fun q hq => ?_, fun p hp => ?_⟩
  · refine hbalance.leaf_eq hq (fun q' hq' => balanceKeyOf_inj hk hn hin hq' hq)
      (subset_append_left _ _) fun v hv he => ?_
    rcases mem_append.mp hv with hv | hv
    · exact hv
    · obtain ⟨q', hq', rfl⟩ := hescrow.sound v hv
      exact absurd he.symm (balanceKeyOf_ne hk hin hq hq')
  · refine hescrow.leaf_eq hq (fun q' hq' => escrowKeyOf_inj hk hn hin hq' hq)
      (subset_append_right _ _) fun v hv he => ?_
    rcases mem_append.mp hv with hv | hv
    · obtain ⟨q', hq', rfl⟩ := hbalance.sound v hv
      exact absurd he (balanceKeyOf_ne hk hin hq' hq)
    · exact hv
  · refine withLeaves_of_notMem fun v hv he => ?_
    rcases mem_append.mp hv with hv | hv
    · obtain ⟨q, hq, rfl⟩ := hbalance.sound v hv
      exact (hp q hq).1 he.symm
    · obtain ⟨q, hq, rfl⟩ := hescrow.sound v hv
      exact (hp q hq).2 he.symm

end describes

theorem fullList_length (M : EscrowMerkle H) (armed : Bool) (db : Db) (journal : List JournalRow) :
    ∀ u ∈ fullList M armed db journal, u.1.length = M.depth := by
  intro u hu
  rcases mem_append.mp hu with hu | hu
  · obtain ⟨q, -, rfl⟩ := (sets_balanceList M db).sound u hu
    exact M.balanceKey_length _ _
  · obtain ⟨q, -, rfl⟩ := (sets_escrows M db.names armed journal).sound u hu
    exact M.escrowKey_length _ _

/-- The root is one of a tree of the balances and the locked escrows. -/
def IsRoot (M : EscrowMerkle H) (armed : Bool) (db : Db) (journal : List JournalRow)
    (tree : Store H × H) : Prop :=
  Nonneg db.names (pairNet db) (lockedOf armed journal) ∧
    ∃ f, Tree M.toNodeHash M.depth f tree ∧
      Describes M db.names (pairNet db) (lockedOf armed journal) f

section build
variable [DecidableEq H] {K : Set (Text × Text)} (hk : KeysFree M K) {c : Collation}
include hk

section
variable {db : Db} {journal : List JournalRow} {armed : Bool} (hn : NamesOk c db.names)
  (hin : NamesIn K db.names)
include hn hin

theorem isRoot_full {nodes : Store H} (hnodes : Hashed M.toNodeHash nodes) {tree : Store H × H}
    (h : buildFullBalancesRoot M armed db journal nodes = .ok tree) : IsRoot M armed db journal tree := by
  obtain ⟨us, hus, rfl⟩ := map_ok h
  obtain ⟨hnonneg, rfl⟩ := fullUpdates_ok hus
  exact ⟨hnonneg, _, tree_applyUpdates (tree_blank hnodes _) (fullList_length M armed db journal),
    describes_full hk hn hin rfl armed journal⟩

/-- **A full build gives the root** of every tree of the balances. -/
theorem IsRoot.full {nodes nodes' : Store H} {r : H}
    (hroot : IsRoot M armed db journal (nodes', r)) (hnodes : Hashed M.toNodeHash nodes) :
    (buildFullBalancesRoot M armed db journal nodes).map Prod.snd = .ok r := by
  obtain ⟨hnonneg, f, htree, hf⟩ := hroot
  have hfull : Tree M.toNodeHash M.depth _ (applyEscrowLeaves M.toMerkle (fullList M armed db journal) _) :=
    tree_applyUpdates (tree_blank hnodes M.depth) (fullList_length M armed db journal)
  rw [buildFullBalancesRoot, fullUpdates_of_nonneg hnonneg]
  refine congrArg Except.ok (hfull.root_eq.trans ?_)
  rw [(describes_full hk hn hin rfl armed journal).eq hf]
  exact htree.root_eq.symm

end

end build

end XChainIndexer.StateTree.Rebuild
