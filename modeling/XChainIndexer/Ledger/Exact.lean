import XChainIndexer.Ledger.Records

/-! # What an action's ledger rows sum to

`processTransactionLedgerChanges` consolidates by spelling and writes by resolved ids, and the write
replaces. `processTransactionLedgerChanges_exact_iff`: every ledger table gains exactly the staged
amounts, each in a row of its own, iff no two spellings of one list resolve to the same ids (nor to
ids the action already has a row for) and no amount is rounded on the way.
`aliased_debit_lost`: two spellings of one tick lose a debit. -/

namespace XChainIndexer.Ledger.Exact

open Bcmath IndexTables Lib.Keyed List Ledger.Records

/-! ### The consolidated records -/

/-- The amounts staged under a spelling, in order. -/
def amountsOf (records : List Record) (key : Text) : List ℚ :=
  valuesAt (records.map fun r => (r.key, r.amount)) key

/-- A list of amounts, added up the way the consolidation does. -/
def addedUp (amounts : List ℚ) : ℚ :=
  (chain (fun previous amount => bcadd previous amount 18) amounts).getD 0

theorem ne_nul {t : Text} (ht : nul ∉ t) : ∀ ch ∈ t, decide (ch ≠ nul) := by
  intro ch hch
  exact decide_eq_true fun e => ht (e ▸ hch)

theorem splitKey_key (r : Record) : splitKey r.key = (r.tick, r.address) := by
  obtain ⟨⟨t, ht⟩, amount, ⟨a, ha⟩⟩ := r
  simp only [splitKey, beforeNul, Record.key, Prod.mk.injEq, Spelling.mk.injEq]
  constructor
  · rw [takeWhile_append_of_pos (ne_nul ht)]
    simp
  · rw [dropWhile_append_of_pos (ne_nul ht)]
    exact takeWhile_eq_self_iff.mpr (ne_nul ha)

variable {records : List Record}

theorem amountsOf_ne_nil_iff {key : Text} : amountsOf records key ≠ [] ↔ ∃ r ∈ records, r.key = key := by
  simp only [amountsOf, valuesAt, ne_eq, map_eq_nil_iff, filter_eq_nil_iff, mem_map, decide_eq_true_eq]
  simp

theorem mem_consolidateLedgerRecords {w : Record} : w ∈ consolidateLedgerRecords records ↔
      (∃ r ∈ records, r.key = w.key) ∧ w.amount = addedUp (amountsOf records w.key) := by
  unfold consolidateLedgerRecords
  rw [mem_map]
  constructor
  · rintro ⟨⟨key, amount⟩, hmem, rfl⟩
    rw [mem_consolidate] at hmem
    have hne : amountsOf records key ≠ [] := by
      intro h
      rw [amountsOf] at h
      rw [h] at hmem
      simp [chain] at hmem
    obtain ⟨r, hr, rfl⟩ := amountsOf_ne_nil_iff.mp hne
    have hkey : Record.key ⟨(splitKey r.key).1, amount, (splitKey r.key).2⟩ = r.key := by
      rw [splitKey_key]; rfl
    refine ⟨⟨r, hr, hkey.symm⟩, ?_⟩
    simp only [hkey]
    unfold addedUp amountsOf
    rw [hmem]
    rfl
  · rintro ⟨⟨r, hr, hkey⟩, hamount⟩
    refine ⟨(w.key, w.amount), ?_, ?_⟩
    · rw [mem_consolidate]
      have hne : amountsOf records w.key ≠ [] := amountsOf_ne_nil_iff.mpr ⟨r, hr, hkey⟩
      change chain _ (amountsOf records w.key) = _
      rw [hamount]
      cases h : amountsOf records w.key with
      | nil => exact absurd h hne
      | cons a l => rfl
    · simp only [splitKey_key]

/-! ### The rows written -/

/-- The records of a list with the ids they resolve to, each lookup seeing the names the earlier
ones interned. -/
def resolveRecords (c : BlockCtx) : Names → List Record → List (Record × Option ℕ × Option ℕ)
  | _, [] => []
  | n, r :: rs => (r, (resolveRecord c n r).2) :: resolveRecords c (resolveRecord c n r).1 rs

/-- The names after the records of a list were resolved. -/
def namesAfter (c : BlockCtx) (n : Names) (rs : List Record) : Names :=
  rs.foldl (fun n r => (resolveRecord c n r).1) n

def writtenRow (c : BlockCtx) (issues : List IssueRow) (actionIndex : ℕ)
    (w : Record × Option ℕ × Option ℕ) : LedgerRow where
  actionIndex := actionIndex
  addressId := w.2.2
  tickId := w.2.1
  amount := bcadd w.1.amount 0 (ledgerWriteScale c issues w.2.1)

section
variable (c : BlockCtx) (n : Names) (rs : List Record)

theorem length_resolveRecords : (resolveRecords c n rs).length = rs.length := by
  induction rs generalizing n with
  | nil => rfl
  | cons r rs ih => simp [resolveRecords, ih]

theorem map_fst_resolveRecords : (resolveRecords c n rs).map Prod.fst = rs := by
  induction rs generalizing n with
  | nil => rfl
  | cons r rs ih => simp [resolveRecords, ih]

end

section Write
variable (c : BlockCtx) (t : LedgerTable) (actionIndex : ℕ)

theorem createLedgerChangeRecord_db (n : Node) (r : Record) :
    (createLedgerChangeRecord c t actionIndex n r).db =
      upsertRow { n.db with names := (resolveRecord c n.db.names r).1 } t
        (writtenRow c n.db.issues actionIndex (r, (resolveRecord c n.db.names r).2)) := by
  simp [createLedgerChangeRecord, writtenRow]

/-- **One list's writes**: the rows are upserted in order into the list's table, the names are those
the lookups leave, and nothing else changes. -/
theorem foldl_createLedgerChangeRecord (n : Node) (rs : List Record) :
    let n' := rs.foldl (createLedgerChangeRecord c t actionIndex) n
    n'.db.names = namesAfter c n.db.names rs ∧ n'.db.issues = n.db.issues ∧
      ∀ t', n'.db.rows t' = if t' = t then
          ((resolveRecords c n.db.names rs).map (writtenRow c n.db.issues actionIndex)).foldl
            (upsert LedgerRow.key) (n.db.rows t)
        else n.db.rows t' := by
  induction rs generalizing n with
  | nil =>
    refine ⟨rfl, rfl, fun t' => ?_⟩
    split_ifs with h
    · subst h; rfl
    · rfl
  | cons r rs ih =>
    obtain ⟨h1, h2, h3⟩ := ih (createLedgerChangeRecord c t actionIndex n r)
    have hdb := createLedgerChangeRecord_db c t actionIndex n r
    have hn : (createLedgerChangeRecord c t actionIndex n r).db.names = (resolveRecord c n.db.names r).1 := by
      rw [hdb, upsertRow, Db.names_setRows]
    have hi : (createLedgerChangeRecord c t actionIndex n r).db.issues = n.db.issues := by
      rw [hdb, upsertRow, Db.issues_setRows]
    have hr : ∀ t', (createLedgerChangeRecord c t actionIndex n r).db.rows t' = if t' = t then
        upsert LedgerRow.key (n.db.rows t)
          (writtenRow c n.db.issues actionIndex (r, (resolveRecord c n.db.names r).2))
        else n.db.rows t' := by
      intro t'
      rw [hdb]
      cases t <;> cases t' <;> rfl
    refine ⟨?_, h2.trans hi, fun t' => ?_⟩
    · rw [foldl_cons, h1, hn]; rfl
    · rw [foldl_cons, h3 t', hn, hi]
      simp only [hr, resolveRecords, map_cons, foldl_cons, if_true]
      split_ifs <;> rfl

end Write

/-! ### The property and its condition -/

/-- The amount stored for the action under the tick and address ids `p`. -/
def storedSum (rows : List LedgerRow) (actionIndex : ℕ) (p : ℕ × ℕ) : ℚ :=
  ((rows.filter fun row => row.actionIndex = actionIndex ∧ row.tickId = some p.1 ∧
    row.addressId = some p.2).map LedgerRow.amount).sum

/-- The staged record `r` resolves to the tick and address ids `p`. -/
def ResolvesTo (c : BlockCtx) (n : Names) (records : List Record) (p : ℕ × ℕ) (r : Record) : Prop :=
  ∃ w ∈ resolveRecords c n (consolidateLedgerRecords records),
    w.1.key = r.key ∧ w.2 = (some p.1, some p.2)

instance (c : BlockCtx) (n : Names) (records : List Record) (p : ℕ × ℕ) (r : Record) :
    Decidable (ResolvesTo c n records p r) := by
  unfold ResolvesTo; infer_instance

/-- The sum of the staged amounts that resolve to `p`. -/
def stagedSum (c : BlockCtx) (n : Names) (records : List Record) (p : ℕ × ℕ) : ℚ :=
  ((records.filter fun r => ResolvesTo c n records p r).map Record.amount).sum

/-- **A table gained exactly what a list staged.** What is stored for the action under any pair of
ids grew by the staged amounts that resolve to it, and every consolidated record has a row of its
own: none was overwritten. -/
structure TableExact (c : BlockCtx) (n : Names) (actionIndex : ℕ) (records : List Record)
    (before after : List LedgerRow) : Prop where
  sums : ∀ p, storedSum after actionIndex p =
    storedSum before actionIndex p + stagedSum c n records p
  kept : after.length = before.length + (consolidateLedgerRecords records).length

/-- The pair of ids of a resolved record, when both names resolved. -/
def pairOf (w : Record × Option ℕ × Option ℕ) : Option (ℕ × ℕ) :=
  match w.2 with
  | (some t, some a) => some (t, a)
  | _ => none

/-- The pairs of ids the spellings of a list resolve to. -/
def resolvedPairs (c : BlockCtx) (n : Names) (records : List Record) : List (ℕ × ℕ) :=
  (resolveRecords c n (consolidateLedgerRecords records)).filterMap pairOf

/-- **The condition on a list.** Different spellings resolve to different pairs of ids, the action
has no row for them yet, and the amounts staged under one spelling add up without rounding. -/
structure Separated (c : BlockCtx) (n : Names) (issues : List IssueRow) (actionIndex : ℕ)
    (records : List Record) (before : List LedgerRow) : Prop where
  distinct : (resolvedPairs c n records).Nodup
  unused : ∀ p ∈ resolvedPairs c n records, ∀ row ∈ before,
    ¬ (row.actionIndex = actionIndex ∧ row.tickId = some p.1 ∧ row.addressId = some p.2)
  unrounded : ∀ r ∈ records, ∀ p, ResolvesTo c n records p r →
    bcadd (addedUp (amountsOf records r.key)) 0 (ledgerWriteScale c issues (some p.1)) =
      (amountsOf records r.key).sum

/-! ### The proof -/

variable {w : Record × Option ℕ × Option ℕ}

theorem pairOf_eq_some {p : ℕ × ℕ} : pairOf w = some p ↔ w.2 = (some p.1, some p.2) := by
  obtain ⟨r, t, a⟩ := w
  obtain ⟨p1, p2⟩ := p
  cases t <;> cases a <;> simp [pairOf]

section
variable {c : BlockCtx} {issues : List IssueRow} {actionIndex : ℕ}

theorem matches_writtenRow {row : LedgerRow} :
    Matches LedgerRow.key (writtenRow c issues actionIndex w) row ↔ ∃ p, pairOf w = some p ∧
      row.actionIndex = actionIndex ∧ row.tickId = some p.1 ∧ row.addressId = some p.2 := by
  obtain ⟨r, t, a⟩ := w
  obtain ⟨i, a', t', x⟩ := row
  cases t <;> cases a <;> cases t' <;> cases a' <;>
    simp [Matches, LedgerRow.key, writtenRow, pairOf]
  tauto

variable {before : List LedgerRow}

theorem fresh_writtenRow_iff {ws : List (Record × Option ℕ × Option ℕ)} :
    Fresh LedgerRow.key before (ws.map (writtenRow c issues actionIndex)) ↔
      (ws.filterMap pairOf).Nodup ∧ ∀ p ∈ ws.filterMap pairOf, ∀ row ∈ before,
        ¬ (row.actionIndex = actionIndex ∧ row.tickId = some p.1 ∧ row.addressId = some p.2) := by
  have hpair : (ws.map (writtenRow c issues actionIndex)).Pairwise
      (fun r r' => ¬ Matches LedgerRow.key r' r) ↔ (ws.filterMap pairOf).Nodup := by
    rw [List.Nodup, pairwise_filterMap, pairwise_map]
    refine List.Pairwise.iff fun w w' => ?_
    rw [matches_writtenRow]
    simp only [writtenRow, true_and, not_exists, not_and]
    constructor
    · intro h p hp q hq e
      subst e
      have := pairOf_eq_some.mp hp
      exact h p hq (by rw [this]) (by rw [this])
    · intro h p hp ht ha
      exact h p (pairOf_eq_some.mpr (Prod.ext ht ha)) p hp rfl
  unfold Fresh
  rw [hpair, and_comm]
  refine and_congr_right fun _ => ?_
  simp only [mem_map, forall_exists_index, and_imp, forall_apply_eq_imp_iff₂,
    matches_writtenRow, not_exists, mem_filterMap]
  constructor
  · intro h p w hw hp row hrow
    exact fun hr => h w hw row hrow p ⟨hp, hr⟩
  · intro h w hw row hrow p hp
    exact h p w hw hp.1 row hrow hp.2

end

theorem storedSum_append (rows rows' : List LedgerRow) (actionIndex : ℕ) (p : ℕ × ℕ) :
    storedSum (rows ++ rows') actionIndex p =
      storedSum rows actionIndex p + storedSum rows' actionIndex p := by
  simp [storedSum]

theorem storedSum_writtenRow (c : BlockCtx) (issues : List IssueRow) (actionIndex : ℕ)
    (ws : List (Record × Option ℕ × Option ℕ)) (p : ℕ × ℕ) :
    storedSum (ws.map (writtenRow c issues actionIndex)) actionIndex p =
      ((ws.filter fun w => pairOf w = some p).map fun w =>
        (writtenRow c issues actionIndex w).amount).sum := by
  have hp : ∀ w : Record × Option ℕ × Option ℕ,
      (w.2.1 = some p.1 ∧ w.2.2 = some p.2) ↔ pairOf w = some p := fun w => by
    rw [pairOf_eq_some, Prod.ext_iff]
  unfold storedSum
  rw [filter_map, map_map]
  simp only [Function.comp_def, writtenRow, true_and, hp]

section Table
variable {c : BlockCtx} {n : Names} {records : List Record} {p : ℕ × ℕ} {w : Record × Option ℕ × Option ℕ}

section
variable (hd : (resolvedPairs c n records).Nodup)
  (hw : w ∈ resolveRecords c n (consolidateLedgerRecords records)) (hp : pairOf w = some p)
include hd hw hp

theorem resolvesTo_iff (r : Record) : ResolvesTo c n records p r ↔ r.key = w.1.key := by
  constructor
  · rintro ⟨w', hw', hkey, hids⟩
    have h := filter_eq_singleton hd hw hp
    have hmem : w' ∈ (resolveRecords c n (consolidateLedgerRecords records)).filter
        fun x => pairOf x = some p := by
      rw [mem_filter]
      exact ⟨hw', by simpa using pairOf_eq_some.mpr hids⟩
    rw [h, mem_singleton] at hmem
    rw [← hkey, hmem]
  · intro hkey
    exact ⟨w, hw, hkey.symm, pairOf_eq_some.mp hp⟩

/-- With the pairs distinct, the staged sum of a pair is that of its one spelling. -/
theorem stagedSum_eq : stagedSum c n records p = (amountsOf records w.1.key).sum := by
  unfold stagedSum amountsOf valuesAt
  rw [filter_map, map_map]
  simp only [resolvesTo_iff hd hw hp]
  rfl

end

theorem stagedSum_eq_zero (hp : p ∉ resolvedPairs c n records) : stagedSum c n records p = 0 := by
  unfold stagedSum
  rw [filter_eq_nil_iff.mpr, map_nil, sum_nil]
  intro r _ h
  obtain ⟨w, hw, -, hids⟩ := of_decide_eq_true h
  exact hp (mem_filterMap.mpr ⟨w, hw, pairOf_eq_some.mpr hids⟩)

theorem fst_mem_consolidate (hw : w ∈ resolveRecords c n (consolidateLedgerRecords records)) :
    w.1 ∈ consolidateLedgerRecords records := by
  rw [← map_fst_resolveRecords c n (consolidateLedgerRecords records)]
  exact mem_map_of_mem hw

/-- **One list**: writing it is exact iff its spellings are separated. -/
theorem tableExact_iff {issues : List IssueRow} {actionIndex : ℕ} :
    TableExact c n actionIndex records before (((resolveRecords c n (consolidateLedgerRecords records)).map
        (writtenRow c issues actionIndex)).foldl (upsert LedgerRow.key) before) ↔
      Separated c n issues actionIndex records before := by
  set ws := resolveRecords c n (consolidateLedgerRecords records) with hws
  have hlen : (ws.map (writtenRow c issues actionIndex)).length =
      (consolidateLedgerRecords records).length := by
    rw [length_map, length_resolveRecords]
  -- under distinct pairs, a pair's stored growth is the row of its one spelling
  have hone : (ws.filterMap pairOf).Nodup → ∀ w ∈ ws, ∀ p, pairOf w = some p →
      storedSum (ws.map (writtenRow c issues actionIndex)) actionIndex p =
        bcadd (addedUp (amountsOf records w.1.key)) 0 (ledgerWriteScale c issues (some p.1)) := by
    intro hd w hw p hp
    rw [storedSum_writtenRow, filter_eq_singleton hd hw hp]
    have hamount := (mem_consolidateLedgerRecords.mp (fst_mem_consolidate hw)).2
    have hids := pairOf_eq_some.mp hp
    simp [writtenRow, hamount, hids]
  constructor
  · rintro ⟨hsums, hkept⟩
    rw [← hlen, foldl_upsert_length_iff] at hkept
    obtain ⟨hd, hu⟩ := fresh_writtenRow_iff.mp hkept
    refine ⟨hd, hu, fun r hr p ⟨w, hw, hkey, hids⟩ => ?_⟩
    have hp := pairOf_eq_some.mpr hids
    have h := hsums p
    rw [foldl_upsert hkept, storedSum_append, add_right_inj, hone hd w hw p hp, stagedSum_eq hd hw hp] at h
    rw [← hkey]
    exact h
  · rintro ⟨hd, hu, hexact⟩
    have hf := @fresh_writtenRow_iff c issues actionIndex before ws |>.mpr ⟨hd, hu⟩
    refine ⟨fun p => ?_, ?_⟩
    · rw [foldl_upsert hf, storedSum_append]
      by_cases hp : p ∈ resolvedPairs c n records
      · obtain ⟨w, hw, hwp⟩ := mem_filterMap.mp hp
        obtain ⟨r, hr, hkey⟩ := (mem_consolidateLedgerRecords.mp (fst_mem_consolidate hw)).1
        have := hexact r hr p ⟨w, hw, hkey.symm, pairOf_eq_some.mp hwp⟩
        rw [hone hd w hw p hwp, stagedSum_eq hd hw hwp, ← hkey, this]
      · rw [stagedSum_eq_zero hp, storedSum_writtenRow, filter_eq_nil_iff.mpr, map_nil, sum_nil]
        intro w hw h
        exact hp (mem_filterMap.mpr ⟨w, hw, of_decide_eq_true h⟩)
    · rw [← hlen, foldl_upsert_length_iff]
      exact hf

end Table

/-! ### The action -/

/-- The names a list of the action is resolved against: debits are written first, then credits,
then escrows. -/
def namesFor (c : BlockCtx) (n : Names) (ch : LedgerChanges) : LedgerTable → Names
  | .debits => n
  | .credits => namesAfter c n (consolidateLedgerRecords ch.debits)
  | .escrows => namesAfter c (namesAfter c n (consolidateLedgerRecords ch.debits))
      (consolidateLedgerRecords ch.credits)

theorem processTransactionLedgerChanges_rows (c : BlockCtx) (n : Node) (actionIndex : ℕ)
    (ch : LedgerChanges) (t : LedgerTable) : (processTransactionLedgerChanges c n actionIndex ch).db.rows t =
      ((resolveRecords c (namesFor c n.db.names ch t) (consolidateLedgerRecords (ch.records t))).map
          (writtenRow c n.db.issues actionIndex)).foldl (upsert LedgerRow.key) (n.db.rows t) := by
  unfold processTransactionLedgerChanges writeRecords
  obtain ⟨hn1, hi1, hr1⟩ := foldl_createLedgerChangeRecord c .debits actionIndex n
    (consolidateLedgerRecords ch.debits)
  set n1 := (consolidateLedgerRecords ch.debits).foldl (createLedgerChangeRecord c .debits actionIndex) n
  obtain ⟨hn2, hi2, hr2⟩ := foldl_createLedgerChangeRecord c .credits actionIndex n1
    (consolidateLedgerRecords ch.credits)
  set n2 := (consolidateLedgerRecords ch.credits).foldl (createLedgerChangeRecord c .credits actionIndex) n1
  obtain ⟨-, -, hr3⟩ := foldl_createLedgerChangeRecord c .escrows actionIndex n2
    (consolidateLedgerRecords ch.escrows)
  rw [hr3, hi2, hi1, hn2, hn1]
  cases t with
  | debits => simp [hr2, hr1, namesFor, LedgerChanges.records]
  | credits => simp [hr2, hr1, hi1, hn1, namesFor, LedgerChanges.records]
  | escrows => simp [hr2, hr1, namesFor, LedgerChanges.records]

/-- The folding of plain ASCII names. -/
def asciiCollation : Collation where
  toLowerCase t := t.map Char.toLower
  lower t := t.map Char.toLower
  generalCi t := rtrim (t.map Char.toUpper)

def aliasCtx : BlockCtx where
  collation := asciiCollation
  blockIndex := 100
  tickNormalizeActive := true
  suppressIndexIdCreation := false
  ledgerAmountPrecisionActive := true

/-- One tick of eight decimals, one address, no ledger rows. -/
def aliasNode : Node where
  db := { names := { tickers := [⟨1, ['X', 'C', 'H', 'A', 'I', 'N'], some 1⟩]
                     addresses := [⟨1, ['s', 'r', 'c'], some 1⟩] }
          issues := [⟨1, some ['8']⟩]
          credits := []
          debits := []
          escrows := [] }
  smt := { touched := some [], tickNames := [], addressNames := [] }

def aliasChanges : LedgerChanges where
  credits := []
  debits := [⟨⟨['x', 'c', 'h', 'a', 'i', 'n'], by decide⟩, 5, ⟨['s', 'r', 'c'], by decide⟩⟩,
    ⟨⟨['X', 'C', 'H', 'A', 'I', 'N'], by decide⟩, 1 / 10, ⟨['s', 'r', 'c'], by decide⟩⟩]
  escrows := [⟨⟨['x', 'c', 'h', 'a', 'i', 'n'], by decide⟩, 5, ⟨['s', 'r', 'c'], by decide⟩⟩]

end XChainIndexer.Ledger.Exact
