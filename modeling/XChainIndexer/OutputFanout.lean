import XChainIndexer.IndexTables
import XChainIndexer.Lib.Outcome

/-! # The fan-out of outputs

The decoder's rows of a block are one per output, and every row of a transaction carries the
transaction's data. `collapseOutputFanout` (`chain/output_fanout.js`) groups them by transaction and keeps
one row of each that carries an action other than COINPAY; before the activation such a transaction with
several rows is a fault. `collapse_outputs` says it transaction by transaction: what is kept is in the order
of the rows, every settlement row is kept, a transaction that carries an action is left one row, and a
second pass changes nothing. -/

namespace XChainIndexer.OutputFanout

open IndexTables Lib.Outcome List

/-- The text functions of the language. -/
structure Runtime where
  trim : Text → Text
  toUpperCase : Text → Text

/-- A row of `getDecoderBlockData`; the columns that are only carried along are `other`. -/
structure Row (α : Type) where
  txHash : Text
  data : Option Text
  vout : ℕ
  other : α

variable {α : Type} (rt : Runtime)

def isPerOutputSettlementRow (row : Row α) : Bool :=
  let data := row.data.elim [] rt.trim
  data = [] || rt.toUpperCase (rt.trim (data.takeWhile (· ≠ '|'))) = "COINPAY".toList

/-- A row joins the group of its transaction, a new transaction comes last. -/
def push : List (List (Row α)) → Row α → List (List (Row α))
  | [], row => [[row]]
  | rows :: groups, row =>
    if rows.any (·.txHash = row.txHash) then (rows ++ [row]) :: groups else rows :: push groups row

def groupByTx (rows : List (Row α)) : List (List (Row α)) := rows.foldl push []

/-- The row of the lowest output, the first of several. -/
def lowest (first : Row α) (rows : List (Row α)) : Row α :=
  rows.foldl (fun chosen row => if row.vout < chosen.vout then row else chosen) first

/-- Rows that pass unchanged: a single one, or those of a settlement. -/
def passes (rows : List (Row α)) : Bool :=
  rows.length < 2 || rows.head?.any (isPerOutputSettlementRow rt)

/-- The rows of a transaction that are left. -/
def kept (rows : List (Row α)) : List (Row α) :=
  if passes rt rows then rows else (rows.head?.map fun first => lowest first rows).toList

def fault (rows : List (Row α)) : Text :=
  "CONSENSUS-CRITICAL: transaction ".toList ++ (rows.head?.map (·.txHash)).getD [] ++
    " carries action data and produced ".toList ++ (toString rows.length).toList ++
    " native-output rows; per-output fan-out would double-execute the action. Aborting block (FIX_OUTPUT_FANOUT not yet active).".toList

def collapseTx (enabled : Bool) (rows : List (Row α)) : Except Text (List (Row α)) :=
  if passes rt rows = false ∧ enabled = false then .error (fault rows) else .ok (kept rt rows)

def collapseOutputFanout (enabled : Bool) (blockTransactions : List (Row α)) :
    Except Text (List (Row α)) :=
  if blockTransactions.length < 2 then .ok blockTransactions
  else ((groupByTx blockTransactions).mapM (collapseTx rt enabled)).map flatten

/-- The rows of a block by transaction: each has a row, its rows have one hash and one data, and no two
transactions have the same hash. -/
structure Decoded (txs : List (List (Row α))) : Prop where
  nonempty : ∀ rows ∈ txs, rows ≠ []
  same : ∀ rows ∈ txs, ∀ r ∈ rows, ∀ r' ∈ rows, r.txHash = r'.txHash ∧ r.data = r'.data
  distinct : txs.Pairwise fun rows rows' => ∀ r ∈ rows, ∀ r' ∈ rows', r.txHash ≠ r'.txHash

/-! ### Grouping -/

variable {groups : List (List (Row α))}

theorem push_append {row : Row α}
    (h : ∀ rows ∈ groups, ∀ r ∈ rows, r.txHash ≠ row.txHash) (last : List (List (Row α))) :
    push (groups ++ last) row = groups ++ push last row := by
  induction groups with
  | nil => rfl
  | cons rows groups ih =>
    rw [forall_mem_cons] at h
    have hany : (rows.any fun r => r.txHash = row.txHash) = false := by simpa using h.1
    rw [cons_append, push, if_neg (by simp [hany]), ih h.2, cons_append]

/-- The rows of one transaction after those of others. -/
theorem foldl_push {before rows : List (Row α)} (hb : before ≠ [])
    (h : ∀ g ∈ groups, ∀ r ∈ g, ∀ r' ∈ rows, r.txHash ≠ r'.txHash)
    (hsame : ∀ r ∈ before ++ rows, ∀ r' ∈ before ++ rows, r.txHash = r'.txHash) :
    rows.foldl push (groups ++ [before]) = groups ++ [before ++ rows] := by
  induction rows generalizing before with
  | nil => rw [foldl_nil, append_nil]
  | cons row rows ih =>
    have happend : before ++ row :: rows = before ++ [row] ++ rows := by simp
    rw [happend] at hsame ⊢
    have hany : (before.any fun r => r.txHash = row.txHash) = true := by
      obtain ⟨r, hr⟩ := exists_mem_of_ne_nil before hb
      exact any_eq_true.mpr ⟨r, hr, by simpa using hsame r (by simp [hr]) row (by simp)⟩
    rw [foldl_cons, push_append fun g hg r hr => h g hg r hr row mem_cons_self, push, if_pos hany]
    exact ih (by simp) (fun g hg r hr r' hr' => h g hg r hr r' (mem_cons_of_mem _ hr')) hsame

/-- **Grouping finds the transactions.** -/
theorem groupByTx_flatten {txs : List (List (Row α))} (h : Decoded txs) : groupByTx txs.flatten = txs := by
  induction txs using List.reverseRecOn with
  | nil => rfl
  | append_singleton txs rows ih =>
    have hpair := pairwise_append.mp h.distinct
    have hinit : Decoded txs :=
      ⟨fun g hg => h.nonempty g (by simp [hg]), fun g hg => h.same g (by simp [hg]), hpair.1⟩
    have hlast : ∀ g ∈ txs, ∀ r ∈ g, ∀ r' ∈ rows, r.txHash ≠ r'.txHash :=
      fun g hg => hpair.2.2 g hg rows (mem_singleton_self rows)
    have hsame := h.same rows (by simp)
    have hgroup := ih hinit
    unfold groupByTx at hgroup ⊢
    rw [flatten_append, foldl_append, hgroup]
    obtain ⟨row, rest, rfl⟩ := exists_cons_of_ne_nil (h.nonempty rows (by simp))
    have hpush : push txs row = txs ++ [[row]] := by
      have := push_append (fun g hg r hr => hlast g hg r hr row mem_cons_self) []
      rwa [append_nil] at this
    rw [flatten_singleton, foldl_cons, hpush, foldl_push (by simp)
      (fun g hg r hr r' hr' => hlast g hg r hr r' (mem_cons_of_mem _ hr'))
      fun r hr r' hr' => (hsame r hr r' hr').1]
    rfl

/-! ### Collapsing -/

variable {txs : List (List (Row α))} {rows : List (Row α)}

theorem lowest_mem (first : Row α) (rows : List (Row α)) : lowest first rows ∈ first :: rows := by
  induction rows generalizing first with
  | nil => exact mem_singleton_self first
  | cons row rows ih =>
    have hrest := ih (if row.vout < first.vout then row else first)
    have hsub : (if row.vout < first.vout then row else first) :: rows ⊆ first :: row :: rows := by
      split_ifs <;> simp
    exact hsub hrest

/-- A transaction keeps the rows of a settlement, and of an action exactly one. -/
theorem kept_spec (h : Decoded txs) (hr : rows ∈ txs) :
    if rows.any (isPerOutputSettlementRow rt) then kept rt rows = rows
    else ∃ r ∈ rows, kept rt rows = [r] := by
  obtain ⟨first, rest, rfl⟩ := exists_cons_of_ne_nil (h.nonempty rows hr)
  have hdata : ∀ r ∈ first :: rest,
      isPerOutputSettlementRow rt r = isPerOutputSettlementRow rt first := fun r hr' => by
    rw [isPerOutputSettlementRow, isPerOutputSettlementRow, (h.same _ hr r hr' first mem_cons_self).2]
  split_ifs with hs
  · obtain ⟨r, hr', hset⟩ := any_eq_true.mp hs
    rw [hdata r hr'] at hset
    simp [kept, passes, hset]
  · rw [Bool.not_eq_true, any_eq_false] at hs
    cases rest with
    | nil => exact ⟨first, mem_cons_self, by simp [kept, passes]⟩
    | cons second rest =>
      refine ⟨lowest first (first :: second :: rest), ?_, by simp [kept, passes, hs first mem_cons_self]⟩
      simpa using lowest_mem first (first :: second :: rest)

theorem kept_sublist (h : Decoded txs) (hr : rows ∈ txs) : kept rt rows <+ rows := by
  have hspec := kept_spec rt h hr
  split_ifs at hspec
  · rw [hspec]
  · obtain ⟨r, hr', heq⟩ := hspec
    rw [heq]
    exact singleton_sublist.mpr hr'

theorem passes_kept (rows : List (Row α)) : passes rt (kept rt rows) := by
  unfold kept
  split_ifs with hp
  · exact hp
  · cases rows <;> simp [passes]

theorem decoded_kept (h : Decoded txs) : Decoded (txs.map (kept rt)) := by
  have hsub : ∀ rows ∈ txs, kept rt rows ⊆ rows := fun rows hr => (kept_sublist rt h hr).subset
  refine ⟨forall_mem_map.mpr fun rows hr => ?_, forall_mem_map.mpr fun rows hr r hr' r' hr'' =>
    h.same rows hr r (hsub rows hr hr') r' (hsub rows hr hr''), pairwise_map.mpr (h.distinct.imp_of_mem
      fun ha hb hne r hr r' hr' => hne r (hsub _ ha hr) r' (hsub _ hb hr'))⟩
  have hspec := kept_spec rt h hr
  split_ifs at hspec
  · rw [hspec]
    exact h.nonempty rows hr
  · obtain ⟨r, -, heq⟩ := hspec
    simp [heq]

/-- The pass transaction by transaction. -/
theorem collapse_eq (h : Decoded txs) (enabled : Bool) :
    collapseOutputFanout rt enabled txs.flatten = (txs.mapM (collapseTx rt enabled)).map flatten := by
  unfold collapseOutputFanout
  split_ifs with hlen
  · -- fewer than two rows: no transaction has two
    have hpass : ∀ rows ∈ txs, passes rt rows := fun rows hr => by
      have := (sublist_flatten_of_mem hr).length_le
      simp [passes, this.trans_lt hlen]
    have hkept : txs.map (kept rt) = txs.map id :=
      map_congr_left fun rows hr => if_pos (hpass rows hr)
    rw [mapM_of_forall (collapseTx.eq_1 rt enabled) fun rows hr hbad => by simp [hpass rows hr] at hbad,
      hkept, map_id]
    rfl
  · rw [groupByTx_flatten h]

/-- **The fan-out is collapsed.** From the activation on the pass returns. Whenever it returns, what is
left is in the order of the rows, every settlement row is left, each transaction is left all its rows or,
if its data is an action, exactly one, and a second pass changes nothing. -/
theorem collapse_outputs (h : Decoded txs) :
    (∃ out, collapseOutputFanout rt true txs.flatten = .ok out) ∧
    ∀ enabled out, collapseOutputFanout rt enabled txs.flatten = .ok out →
      out <+ txs.flatten ∧
      out.filter (isPerOutputSettlementRow rt) = txs.flatten.filter (isPerOutputSettlementRow rt) ∧
      Forall₂ (fun rows left => if rows.any (isPerOutputSettlementRow rt) then left = rows
        else ∃ r ∈ rows, left = [r]) txs (groupByTx out) ∧
      collapseOutputFanout rt enabled out = .ok out := by
  refine ⟨⟨(txs.map (kept rt)).flatten, ?_⟩, fun enabled out hout => ?_⟩
  · rw [collapse_eq rt h, mapM_of_forall (collapseTx.eq_1 rt true) fun rows _ hbad => by simp at hbad]
    rfl
  · rw [collapse_eq rt h] at hout
    obtain ⟨left, hleft, rfl⟩ := map_ok hout
    obtain ⟨-, rfl⟩ := mapM_ok (collapseTx.eq_1 rt enabled) hleft
    have hdecoded := decoded_kept rt h
    refine ⟨?_, ?_, ?_, ?_⟩
    · have hsub : Forall₂ Sublist (txs.map (kept rt)) txs :=
        forall₂_map_left_iff.mpr (forall₂_same.mpr fun rows hr => kept_sublist rt h hr)
      clear * - hsub
      generalize txs.map (kept rt) = left at hsub ⊢
      induction hsub with
      | nil => exact .slnil
      | cons hrows _ ih => exact hrows.append ih
    · rw [filter_flatten, filter_flatten, map_map]
      refine congrArg flatten (map_congr_left fun rows hr => ?_)
      have hspec := kept_spec rt h hr
      have hsub := (kept_sublist rt h hr).subset
      split_ifs at hspec with hs
      · exact congrArg _ hspec
      · rw [Bool.not_eq_true, any_eq_false] at hs
        exact (filter_eq_nil_iff.mpr fun r hr' => hs r (hsub hr')).trans (filter_eq_nil_iff.mpr hs).symm
    · rw [groupByTx_flatten hdecoded]
      exact forall₂_map_right_iff.mpr (forall₂_same.mpr fun rows hr => kept_spec rt h hr)
    · have hagain : ∀ rows ∈ txs, kept rt (kept rt rows) = kept rt rows := fun rows _ =>
        if_pos (passes_kept rt rows)
      rw [collapse_eq rt hdecoded, mapM_of_forall (collapseTx.eq_1 rt enabled) (forall_mem_map.mpr
        fun rows _ hbad => by simp [passes_kept rt rows] at hbad), map_map]
      exact congrArg (fun l => Except.ok (flatten l)) (map_congr_left hagain)

/-- A SEND with two outputs and a COINPAY with two: three rows are left. -/
theorem collapse_outputs_two :
    let row := fun (hash data : String) vout => Row.mk hash.toList (some data.toList) vout ()
    let rows := [row "a" "SEND" 0, row "a" "SEND" 1, row "b" "COINPAY" 0, row "b" "COINPAY" 1]
    (∃ out, collapseOutputFanout ⟨id, id⟩ true rows = .ok out) ∧
      (collapseOutputFanout ⟨id, id⟩ true rows).toOption.map length = some 3 := by
  intro row rows
  have h : Decoded [[row "a" "SEND" 0, row "a" "SEND" 1], [row "b" "COINPAY" 0, row "b" "COINPAY" 1]] := by
    constructor <;> simp [row]
  exact ⟨(collapse_outputs ⟨id, id⟩ h).1, by decide⟩

end XChainIndexer.OutputFanout
