import XChainIndexer.StateTree.Rebuild

/-! # The threaded root and the full build

Over a run of blocks from the activation on, the root that a block stores is the one that a full build
gives at that block, if what a block touches names every balance that it moves (`threaded_root_is_full`).
A full build gives a tree of the balances and of what is locked, and a threaded block carries one over.

The names that are touched have to be those of the index tables. The balance of a touched name is read
with the comparison of the columns, but the key of its leaf is made of the name itself: a name that was
touched before a savepoint was rolled back, and that differs in case from one that is there, gets a second
leaf (`case_variant_adds_leaf`).

Hashes of nodes are of any type, and the hash of a pair is taken to be injective. -/

namespace XChainIndexer.StateTree.Threading

open IndexTables Ledger.Records List Lib.NodeStore Lib.Outcome Lib.Run
open Lib.SparseTree (Leaves)
open StateTree.Guards StateTree.Balances StateTree.Rebuild
open StateTree.Engine (Tree withLeaves)
open StateTree.Updates

variable {H : Type} {M : EscrowMerkle H}

/-! ### A threaded block -/

theorem splitEntry_eq {e x y : Text} (hwhole : touchedKey (splitEntry e).1 (splitEntry e).2 = e)
    (he : e = touchedKey x y) : splitEntry e = (x, y) := by
  have hfst : '\t' ∉ (splitEntry e).1 := by
    intro hmem
    simpa using mem_takeWhile_imp hmem
  have hsnd : '\t' ∉ (splitEntry e).2 := by
    intro hmem
    simpa using mem_takeWhile_imp hmem
  -- an entry has one tab, so the parts are the names
  have hcount : List.count '\t' x + List.count '\t' y = 0 := by
    have := congrArg (List.count '\t') (hwhole.trans he)
    simp only [touchedKey, count_append, count_cons_self, count_eq_zero.mpr hfst,
      count_eq_zero.mpr hsnd] at this
    omega
  have hx : '\t' ∉ x := count_eq_zero.mp (by omega)
  have hlen : (splitEntry e).1 = x := by
    have htake : ∀ z : Text, '\t' ∉ z → ∀ w, (touchedKey z w).takeWhile (· ≠ '\t') = z := by
      intro z hz w
      have hne : ∀ a ∈ z, (decide (a ≠ '\t')) := fun a ha =>
        decide_eq_true fun h => hz (h ▸ ha)
      rw [touchedKey, takeWhile_append_of_pos hne, takeWhile_cons_of_neg (by simp), append_nil]
    rw [← htake (splitEntry e).1 hfst (splitEntry e).2, hwhole, he, htake x hx y]
  refine Prod.ext hlen ?_
  have hkeys := hwhole.trans he
  rw [hlen, touchedKey, touchedKey, append_cancel_left_eq, List.cons.injEq] at hkeys
  exact hkeys.2

def balanceTouched (M : EscrowMerkle H) (c : Ctx) (db : Db) (entries : List Text) : List (Update H) :=
  entries.map fun e => (entryKey M.toMerkle e,
    leafOpt M (getNetBalance c db (splitEntry e).1 (splitEntry e).2))

def escrowTouched (M : EscrowMerkle H) (c : Collation) (names : Names) (journal : List JournalRow)
    (blockIndex : ℕ) : List (Update H) :=
  (touchedEscrowKeys names journal blockIndex).map fun n =>
    (M.escrowKey n.1 n.2, leafOpt M ((latestLockedAmount c names journal n).getD 0))

section thread
variable [DecidableEq H]

theorem applyBalances_ok {c : Ctx} {db : Db} {entries : List Text} {tree tree' : Store H × H}
    (h : applyBalances M.toMerkle c db entries tree = .ok tree') :
    (∀ e ∈ entries, touchedKey (splitEntry e).1 (splitEntry e).2 = e ∧
      0 ≤ getNetBalance c db (splitEntry e).1 (splitEntry e).2) ∧
      tree' = applyEscrowLeaves M.toMerkle (balanceTouched M c db entries) tree := by
  induction entries generalizing tree with
  | nil => exact ⟨by simp, (Except.ok.inj h).symm⟩
  | cons e entries ih =>
    rw [applyBalances] at h
    cases hleaf : entryLeaf M.toMerkle c db e with
    | error refusal =>
      rw [hleaf] at h
      cases h
    | ok leaf =>
      rw [hleaf] at h
      obtain ⟨hall, rfl⟩ := ih h
      unfold entryLeaf at hleaf
      dsimp only at hleaf
      split_ifs at hleaf with hwhole
      rw [leafOrNull_eq] at hleaf
      split_ifs at hleaf with hneg
      obtain rfl := Except.ok.inj hleaf
      exact ⟨forall_mem_cons.mpr ⟨⟨hwhole, not_lt.mp hneg⟩, hall⟩, rfl⟩

end thread

/-- The balance of a pair, zero if the tables do not have it. -/
def balanceOf (db : Db) (q : Pair) : ℚ := if q ∈ pairs db.names then pairNet db q else 0

/-- The rows of the block, stamped with its height. -/
def stamped (blockIndex : ℕ) (rows : List JournalRow) : List JournalRow :=
  rows.map fun j => { j with blockIndex }

/-- The row is one of the pair. -/
def JournalRow.of (j : JournalRow) (q : Pair) : Prop := j.addressId = q.1.id ∧ j.tickId = q.2.id

/-- **A block on a chain.** The tables of names keep their unique indexes and their rows, the rows of the
journal name lockers of the tables; every balance that the block moves is touched. Moreover the balances
are amounts that the ledger can hold, and what is touched is not spelled unlike a name of the tables that
it compares equal to. -/
structure BlockOk (K : Set (Text × Text)) (cfg : Config) (chain : Chain H) (c : BlockCtx)
    (s : Ledger.Block.State) (rows : List JournalRow) : Prop where
  collation : c.collation = cfg.collation
  names : NamesOk cfg.collation s.db.names
  grow : pairs chain.db.names ⊆ pairs s.db.names
  keys : NamesIn K s.db.names
  rows : ∀ j ∈ rows, ∃ q ∈ pairs s.db.names, JournalRow.of j q
  complete : ∀ q ∈ pairs s.db.names, balanceOf s.db.toDb q ≠ balanceOf chain.db q →
    touchedKey q.1.name q.2.name ∈ touchedEntries s.smt
  ranged : Ranged s.db.toDb
  touched : ∀ e ∈ touchedEntries s.smt, splitEntry e ∈ K
  canonical : ∀ e ∈ touchedEntries s.smt, ∀ q ∈ pairs s.db.names,
    same cfg.collation q.names (splitEntry e) = true → splitEntry e = q.names

theorem latest_append {journal new : List JournalRow} {q : Pair} (h : ∀ j ∈ new, ¬ JournalRow.of j q) :
    latest (journal ++ new) q = latest journal q := by
  have hnil : new.filter (fun j => j.addressId = q.1.id && j.tickId = q.2.id) = [] := by
    rw [filter_eq_nil_iff]
    intro j hj hids
    simp only [Bool.and_eq_true, decide_eq_true_eq] at hids
    exact h j hj hids
  rw [latest, latest, filter_append, hnil, append_nil]

variable {names : Names}

theorem latestLockedAmount_eq {c : Collation} (hn : NamesOk c names) {q : Pair}
    (hq : q ∈ pairs names) (journal : List JournalRow) :
    (latestLockedAmount c names journal q.names).getD 0 = lockedOf true journal q := by
  have hfilter : journal.filter (fun j => (pairs names).any fun q' =>
      j.addressId = q'.1.id && j.tickId = q'.2.id && same c q'.names q.names) =
      journal.filter fun j => j.addressId = q.1.id && j.tickId = q.2.id := by
    refine filter_congr fun j _ => ?_
    rw [Bool.eq_iff_iff, any_eq_true]
    constructor
    · rintro ⟨q', hq', h⟩
      rw [Bool.and_eq_true] at h
      obtain rfl := eq_of_same hn hq' hq h.2
      exact h.1
    · intro h
      exact ⟨q, hq, by rw [h]; simp [same]⟩
  rw [latestLockedAmount, hfilter, lockedOf, if_pos rfl, latest]

variable {blockIndex : ℕ}

theorem mem_touchedEscrowKeys {journal : List JournalRow}
    {n : Text × Text} : n ∈ touchedEscrowKeys names journal blockIndex ↔
      ∃ j ∈ journal, j.blockIndex = blockIndex ∧ ∃ q ∈ pairs names, JournalRow.of j q ∧ q.names = n := by
  simp only [touchedEscrowKeys, mem_dedup, mem_flatMap, mem_filter, mem_map,
    decide_eq_true_eq, Bool.and_eq_true, JournalRow.of, and_assoc]

section thread
variable {K : Set (Text × Text)} (hk : KeysFree M K) {cfg : Config} {chain : Chain H} {c : BlockCtx}
  {s : Ledger.Block.State} {rows : List JournalRow} (hb : BlockOk K cfg chain c s rows)
include hk hb

omit hk in
theorem BlockOk.net_eq {e : Text} (he : e ∈ touchedEntries s.smt) :
    (∃ q ∈ pairs s.db.names, splitEntry e = q.names ∧
      getNetBalance c.toCtx s.db.toDb (splitEntry e).1 (splitEntry e).2 = pairNet s.db.toDb q) ∨
    (∀ q ∈ pairs s.db.names, splitEntry e ≠ q.names) ∧
      getNetBalance c.toCtx s.db.toDb (splitEntry e).1 (splitEntry e).2 = 0 := by
  have hnames : NamesOk c.toCtx.collation s.db.toDb.names := by
    rw [hb.collation]
    exact hb.names
  by_cases h : ∃ q ∈ pairs s.db.names, same cfg.collation q.names (splitEntry e)
  · obtain ⟨q, hq, hsame⟩ := h
    have hsplit := hb.canonical e he q hq hsame
    refine Or.inl ⟨q, hq, hsplit, ?_⟩
    rw [hsplit]
    exact getNetBalance_eq hnames hb.ranged hq
  · have hno : ∀ q ∈ pairs s.db.names, same c.toCtx.collation q.names (splitEntry e) = false := by
      intro q hq
      rw [hb.collation, ← Bool.not_eq_true]
      exact fun hsame => h ⟨q, hq, hsame⟩
    refine Or.inr ⟨fun q hq heq => ?_, getNetBalance_eq_zero hno⟩
    refine h ⟨q, hq, ?_⟩
    rw [heq]
    simp [same]

section
variable {locked : Pair → ℚ} {f : Leaves H}

theorem describes_extend (hf : Describes M chain.db.names (pairNet chain.db) locked f)
    (hlocked : ∀ q ∈ pairs s.db.names, q ∉ pairs chain.db.names → locked q = 0) :
    Describes M s.db.names (balanceOf chain.db) locked f := by
  refine ⟨fun q hq => ?_, fun q hq => ?_, fun p hp => hf.other p fun q hq => hp q (hb.grow hq)⟩
  · by_cases hold : q ∈ pairs chain.db.names
    · rw [hf.balance q hold, balanceOf, if_pos hold]
    · rw [balanceOf, if_neg hold]
      refine hf.other _ fun q' hq' => ⟨fun he => ?_, balanceKeyOf_ne hk hb.keys hq (hb.grow hq')⟩
      exact hold (balanceKeyOf_inj hk hb.names hb.keys hq (hb.grow hq') he ▸ hq')
  · by_cases hold : q ∈ pairs chain.db.names
    · exact hf.escrow q hold
    · rw [hlocked q hq hold]
      refine hf.other _ fun q' hq' => ⟨(balanceKeyOf_ne hk hb.keys (hb.grow hq') hq).symm, fun he => ?_⟩
      exact hold (escrowKeyOf_inj hk hb.names hb.keys hq (hb.grow hq') he ▸ hq')

/-- **Threading the balances.** -/
theorem describes_balances (hf : Describes M s.db.names (balanceOf chain.db) locked f)
    (hwhole : ∀ e ∈ touchedEntries s.smt, touchedKey (splitEntry e).1 (splitEntry e).2 = e) :
    Describes M s.db.names (pairNet s.db.toDb) locked (withLeaves M.toNodeHash f
      (balanceTouched M c.toCtx s.db.toDb (touchedEntries s.smt))) := by
  have hmem : ∀ u ∈ balanceTouched M c.toCtx s.db.toDb (touchedEntries s.smt),
      ∃ e ∈ touchedEntries s.smt, u = (entryKey M.toMerkle e,
        leafOpt M (getNetBalance c.toCtx s.db.toDb (splitEntry e).1 (splitEntry e).2)) := by
    intro u hu
    obtain ⟨e, he, rfl⟩ := mem_map.mp hu
    exact ⟨e, he, rfl⟩
  refine ⟨fun q hq => ?_, fun q hq => ?_, fun p hp => ?_⟩
  · have hamount : ∀ u ∈ balanceTouched M c.toCtx s.db.toDb (touchedEntries s.smt),
        u.1 = balanceKeyOf M q → u.2 = leafOpt M (pairNet s.db.toDb q) := by
      intro u hu hkey
      obtain ⟨e, he, rfl⟩ := hmem u hu
      have hsplit : splitEntry e = q.names := hk.balance _ (hb.touched e he) _ (hb.keys q hq) hkey
      rcases hb.net_eq he with ⟨q', hq', hq'names, hnet⟩ | ⟨hno, -⟩
      · obtain rfl := eq_of_names hb.names hq hq' (hsplit.symm.trans hq'names)
        exact congrArg (leafOpt M) hnet
      · exact absurd hsplit (hno q hq)
    rw [← leafOpt_getD]
    refine withLeaves_key hamount fun hno => ?_
    -- not touched, so not moved
    have hunmoved : balanceOf s.db.toDb q = balanceOf chain.db q := by
      by_contra hmoved
      have he := hb.complete q hq hmoved
      refine hno _ (mem_map.mpr ⟨_, he, rfl⟩) ?_
      have hsplit := splitEntry_eq (hwhole _ he) rfl
      show M.balanceKey _ _ = _
      rw [hsplit]
      rfl
    rw [leafOpt_getD, hf.balance q hq, ← hunmoved, balanceOf, if_pos hq]
  · rw [withLeaves_of_notMem, hf.escrow q hq]
    intro u hu hkey
    obtain ⟨e, he, rfl⟩ := hmem u hu
    exact hk.apart _ (hb.touched e he) _ (hb.keys q hq) hkey
  · -- a touched name that the tables do not have
    refine withLeaves_key (l := none) (fun u hu hkey => ?_) fun _ => hf.other p hp
    obtain ⟨e, he, rfl⟩ := hmem u hu
    rcases hb.net_eq he with ⟨q, hq, hsplit, -⟩ | ⟨-, hzero⟩
    · refine absurd hkey.symm (?_ : p ≠ M.balanceKey (splitEntry e).1 (splitEntry e).2)
      rw [hsplit]
      exact (hp q hq).1
    · show leafOpt M _ = none
      rw [hzero]
      exact if_pos rfl

end

/-- **Threading the locked escrows.** -/
theorem describes_escrows {net : Pair → ℚ} {f : Leaves H}
    (hf : Describes M s.db.names net (lockedOf true chain.journal) f) :
    Describes M s.db.names net (lockedOf true (chain.journal ++ stamped c.blockIndex rows))
      (withLeaves M.toNodeHash f (escrowTouched M cfg.collation s.db.names
        (chain.journal ++ stamped c.blockIndex rows) c.blockIndex)) := by
  have hmem : ∀ u ∈ escrowTouched M cfg.collation s.db.names
      (chain.journal ++ stamped c.blockIndex rows) c.blockIndex, ∃ q ∈ pairs s.db.names,
      u = (escrowKeyOf M q, leafOpt M (lockedOf true (chain.journal ++ stamped c.blockIndex rows) q)) := by
    intro u hu
    obtain ⟨n, hn, rfl⟩ := mem_map.mp hu
    obtain ⟨j, -, -, q, hq, -, rfl⟩ := mem_touchedEscrowKeys.mp hn
    exact ⟨q, hq, by rw [latestLockedAmount_eq hb.names hq]; rfl⟩
  refine ⟨fun q hq => ?_, fun q hq => ?_, fun p hp => ?_⟩
  · rw [withLeaves_of_notMem, hf.balance q hq]
    intro u hu hkey
    obtain ⟨q', hq', rfl⟩ := hmem u hu
    exact balanceKeyOf_ne hk hb.keys hq hq' hkey.symm
  · have hamount : ∀ u ∈ escrowTouched M cfg.collation s.db.names
        (chain.journal ++ stamped c.blockIndex rows) c.blockIndex, u.1 = escrowKeyOf M q →
        u.2 = leafOpt M (lockedOf true (chain.journal ++ stamped c.blockIndex rows) q) := by
      intro u hu hkey
      obtain ⟨q', hq', rfl⟩ := hmem u hu
      rw [escrowKeyOf_inj hk hb.names hb.keys hq' hq hkey]
    rw [← leafOpt_getD]
    refine withLeaves_key hamount fun hno => ?_
    have hnew : ∀ j ∈ stamped c.blockIndex rows, ¬ JournalRow.of j q := by
      intro j hj hof
      obtain ⟨j', hj', rfl⟩ := mem_map.mp hj
      have hn := mem_touchedEscrowKeys.mpr ⟨_, mem_append_right chain.journal hj, rfl, q, hq, hof, rfl⟩
      exact hno _ (mem_map.mpr ⟨_, hn, rfl⟩) rfl
    rw [leafOpt_getD, hf.escrow q hq, lockedOf, lockedOf, latest_append hnew]
  · rw [withLeaves_of_notMem, hf.other p hp]
    intro u hu hkey
    obtain ⟨q, hq, rfl⟩ := hmem u hu
    exact (hp q hq).2 hkey.symm

omit hk in
theorem nonneg_balances (hnonneg : ∀ q ∈ pairs chain.db.names, 0 ≤ pairNet chain.db q)
    (hall : ∀ e ∈ touchedEntries s.smt, touchedKey (splitEntry e).1 (splitEntry e).2 = e ∧
      0 ≤ getNetBalance c.toCtx s.db.toDb (splitEntry e).1 (splitEntry e).2) {q : Pair}
    (hq : q ∈ pairs s.db.names) : 0 ≤ pairNet s.db.toDb q := by
  have hnet : balanceOf s.db.toDb q = pairNet s.db.toDb q := if_pos hq
  by_cases hmoved : balanceOf s.db.toDb q = balanceOf chain.db q
  · rw [← hnet, hmoved, balanceOf]
    split_ifs with hold
    · exact hnonneg q hold
    · exact le_rfl
  · have he := hb.complete q hq hmoved
    have hsplit := splitEntry_eq (hall _ he).1 rfl
    rcases hb.net_eq he with ⟨q', hq', hnames, hamount⟩ | ⟨hno, -⟩
    · obtain rfl := eq_of_names hb.names hq hq' (hsplit.symm.trans hnames)
      exact hamount ▸ (hall _ he).2
    · exact absurd hsplit (hno q hq)

omit hk in
/-- The rows of the journal before the block lock nothing of a pair that is new. -/
theorem lockedOf_new (hrows : ∀ j ∈ chain.journal, ∃ q ∈ pairs chain.db.names, JournalRow.of j q)
    (armed : Bool) {q : Pair} (hq : q ∈ pairs s.db.names) (hnew : q ∉ pairs chain.db.names) :
    lockedOf armed chain.journal q = 0 := by
  have hnone : ∀ j ∈ chain.journal, ¬ JournalRow.of j q := by
    intro j hj hof
    obtain ⟨q', hq', hof'⟩ := hrows j hj
    have heq : q = q' := eq_of_ids hb.names hq (hb.grow hq') (hof.1.symm.trans hof'.1)
      (hof.2.symm.trans hof'.2)
    exact hnew (heq ▸ hq')
  have hlatest : latest chain.journal q = none := @latest_append [] _ _ hnone
  rw [lockedOf, hlatest]
  exact ite_self 0

end thread

/-! ### Runs of blocks -/

theorem isEscrowLockedLeafActive_mono {cfg : Config} {h h' : ℕ} (hle : h ≤ h')
    (hactive : isEscrowLockedLeafActive cfg h) : isEscrowLockedLeafActive cfg h' := by
  rw [isEscrowLockedLeafActive, Option.any_eq_true] at hactive ⊢
  obtain ⟨a, ha, hah⟩ := hactive
  exact ⟨a, ha, decide_eq_true ((of_decide_eq_true hah).trans hle)⟩

/-- **What a block keeps.** -/
structure Committed (M : EscrowMerkle H) (K : Set (Text × Text)) (cfg : Config) (chain : Chain H) :
    Prop where
  names : NamesOk cfg.collation chain.db.names
  keys : NamesIn K chain.db.names
  rows : ∀ j ∈ chain.journal, ∃ q ∈ pairs chain.db.names, JournalRow.of j q
  hashed : Hashed M.toNodeHash chain.nodes
  root : ∀ r, chain.roots (chain.next - 1) = some r →
    IsRoot M (isEscrowLockedLeafActive cfg (chain.next - 1)) chain.db chain.journal (chain.nodes, r)

/-- A database without roots, before the first block that has one. -/
structure Start (M : EscrowMerkle H) (K : Set (Text × Text)) (cfg : Config) (chain : Chain H) :
    Prop where
  next : chain.next = cfg.activation
  names : NamesOk cfg.collation chain.db.names
  keys : NamesIn K chain.db.names
  rows : ∀ j ∈ chain.journal, ∃ q ∈ pairs chain.db.names, JournalRow.of j q
  hashed : Hashed M.toNodeHash chain.nodes
  roots : ∀ h, chain.roots h = none

/-- What an event has to meet. -/
def Ok (K : Set (Text × Text)) (cfg : Config) (chain : Chain H) : Event → Prop
  | .block c s rows => BlockOk K cfg chain c s rows
  | .lose => True

section run
variable [DecidableEq H] {K : Set (Text × Text)} (hk : KeysFree M K) {cfg : Config}
include hk

/-- What a threaded block writes for the escrows. -/
def escrowsWritten (M : EscrowMerkle H) (cfg : Config) (armed : Bool) (names : Names)
    (journal : List JournalRow) (blockIndex : ℕ) : List (Update H) :=
  if armed then escrowTouched M cfg.collation names journal blockIndex else []

section block
variable {chain : Chain H} {c : BlockCtx} {s : Ledger.Block.State} {rows : List JournalRow}
  (hb : BlockOk K cfg chain c s rows)
include hb

variable {armed : Bool}

omit [DecidableEq H] hk in
theorem whenArmed_escrows_ok {escrows : List (Update H)}
    (hnonneg : ∀ q ∈ pairs s.db.names, 0 ≤ lockedOf armed chain.journal q)
    (h : whenArmed armed (touchedEscrowLeaves M cfg.collation s.db.names
      (chain.journal ++ stamped c.blockIndex rows) c.blockIndex) = .ok escrows) :
    (∀ q ∈ pairs s.db.names, 0 ≤ lockedOf armed (chain.journal ++ stamped c.blockIndex rows) q) ∧
      escrows = escrowsWritten M cfg armed s.db.names
        (chain.journal ++ stamped c.blockIndex rows) c.blockIndex := by
  cases armed with
  | true =>
    obtain ⟨hall, rfl⟩ := mapM_ok (fun n => escrowUpdate_eq M n (latestLockedAmount _ _ _ n)) h
    refine ⟨fun q hq => ?_, rfl⟩
    by_cases hnew : ∃ j ∈ stamped c.blockIndex rows, JournalRow.of j q
    · obtain ⟨j, hj, hof⟩ := hnew
      obtain ⟨j', -, rfl⟩ := mem_map.mp hj
      rw [← latestLockedAmount_eq hb.names hq]
      refine not_lt.mp (hall _ (mem_touchedEscrowKeys.mpr ?_))
      exact ⟨_, mem_append_right _ hj, rfl, q, hq, hof, rfl⟩
    · push Not at hnew
      rw [lockedOf, latest_append hnew]
      exact hnonneg q hq
  | false => exact ⟨fun q hq => by simp [lockedOf], (Except.ok.inj h).symm⟩

variable {tree : Store H × H}

/-- **A threaded block** carries the tree over. -/
theorem isRoot_thread (hchain : Committed M K cfg chain)
    (harmed : isEscrowLockedLeafActive cfg c.blockIndex = armed) {r : H}
    (hroot : IsRoot M armed chain.db chain.journal (chain.nodes, r))
    (h : threadRoot M cfg c s (chain.journal ++ stamped c.blockIndex rows) (chain.nodes, r) = .ok tree) :
    IsRoot M armed s.db.toDb (chain.journal ++ stamped c.blockIndex rows) tree := by
  obtain ⟨hnonneg, f, htree, hf⟩ := hroot
  have hnew : ∀ q ∈ pairs s.db.names, q ∉ pairs chain.db.names →
      lockedOf armed chain.journal q = 0 := fun q => lockedOf_new hb hchain.rows armed
  have hlocked : ∀ q ∈ pairs s.db.names, 0 ≤ lockedOf armed chain.journal q := by
    intro q hq
    by_cases hold : q ∈ pairs chain.db.names
    · exact (hnonneg q hold).2
    · exact (hnew q hq hold).ge
  obtain ⟨escrows, hescrows, h⟩ := bind_ok h
  rw [harmed] at hescrows
  obtain ⟨hlocked', rfl⟩ := whenArmed_escrows_ok hb hlocked hescrows
  obtain ⟨_, hbalances, h⟩ := bind_ok h
  obtain ⟨_, -, h⟩ := bind_ok h
  obtain ⟨_, -, h⟩ := bind_ok h
  obtain ⟨hall, rfl⟩ := applyBalances_ok hbalances
  obtain rfl := Except.ok.inj h
  rw [applyEscrowLeaves, applyEscrowLeaves, ← foldl_append]
  refine ⟨fun q hq => ⟨nonneg_balances hb (fun q hq => (hnonneg q hq).1) hall hq, hlocked' q hq⟩,
    _, tree_applyUpdates htree fun u hu => ?_, ?_⟩
  · rcases mem_append.mp hu with hu | hu
    · obtain ⟨e, -, rfl⟩ := mem_map.mp hu
      exact M.balanceKey_length _ _
    · unfold escrowsWritten at hu
      split_ifs at hu
      · obtain ⟨n, -, rfl⟩ := mem_map.mp hu
        exact M.escrowKey_length _ _
      · cases hu
  · rw [withLeaves_append]
    have hdesc :=
      describes_balances hk hb (describes_extend hk hb hf hnew) fun e he => (hall e he).1
    cases armed with
    | true => exact describes_escrows hk hb hdesc
    | false => exact hdesc

theorem isRoot_block (hchain : Committed M K cfg chain) (hnext : c.blockIndex = chain.next)
    (h : balancesRootForBlock M cfg chain c s (chain.journal ++ stamped c.blockIndex rows) = .ok tree) :
    IsRoot M (isEscrowLockedLeafActive cfg c.blockIndex) s.db.toDb
      (chain.journal ++ stamped c.blockIndex rows) tree := by
  unfold balancesRootForBlock at h
  dsimp only at h
  split at h
  · exact isRoot_full hk hb.names hb.keys hchain.hashed h
  · rename_i r hprior
    split_ifs at h with harming
    · exact isRoot_full hk hb.names hb.keys hchain.hashed h
    · split_ifs at hprior
      rw [hnext] at hprior
      have hroot := hchain.root r hprior
      have hsame : isEscrowLockedLeafActive cfg (c.blockIndex - 1) =
          isEscrowLockedLeafActive cfg c.blockIndex := by
        cases hold : isEscrowLockedLeafActive cfg (c.blockIndex - 1) with
        | true => exact (isEscrowLockedLeafActive_mono (Nat.sub_le _ 1) hold).symm
        | false => simpa [hold] using harming
      rw [← hnext, hsame] at hroot
      exact isRoot_thread hk hb hchain rfl hroot h

end block

variable {event : Event}

/-- **The step.** -/
theorem Committed.step {chain chain' : Chain H} (hok : Ok K cfg chain event)
    (hstep : step M cfg chain event = some chain') (hchain : Committed M K cfg chain) :
    Committed M K cfg chain' := by
  cases event with
  | lose =>
    obtain ⟨⟩ := hstep
    exact ⟨hchain.names, hchain.keys, hchain.rows, hchain.hashed, fun r hr => by simp at hr⟩
  | block c s rows =>
    rw [Balances.step] at hstep
    split_ifs at hstep with hnext
    split at hstep
    · cases hstep
    · rename_i nodes root hroot
      have hr := isRoot_block hk hok hchain hnext hroot
      obtain ⟨⟩ := hstep
      refine ⟨hok.names, hok.keys, fun j hj => ?_, ?_, fun r hr' => ?_⟩
      · rcases mem_append.mp hj with hj | hj
        · obtain ⟨q, hq, hof⟩ := hchain.rows j hj
          exact ⟨q, hok.grow hq, hof⟩
        · obtain ⟨j', hj', rfl⟩ := mem_map.mp hj
          exact hok.rows j' hj'
      · obtain ⟨-, f, htree, -⟩ := hr
        exact htree.hashed
      · simp only [Nat.add_sub_cancel, Function.update_self, Option.some.injEq] at hr'
        exact hr' ▸ hr

omit hk [DecidableEq H] in
theorem Start.committed {chain : Chain H} (h : Start M K cfg chain) : Committed M K cfg chain :=
  ⟨h.names, h.keys, h.rows, h.hashed, fun r hr => by rw [h.roots] at hr; cases hr⟩

/-- **The root of a block is that of a full build.** From the first block that has one on, over a run of
blocks whose touched names are spelled as the tables have them. -/
theorem threaded_root_is_full {init chain : Chain H} (hinit : Start M K cfg init)
    (hreach : Reaches (step M cfg) (Ok K cfg) init chain) {blockIndex : ℕ}
    (hblock : chain.next = blockIndex + 1) {root : H} (hroot : chain.roots blockIndex = some root)
    {nodes : Store H} (hnodes : Hashed M.toNodeHash nodes) :
    (buildFullBalancesRoot M (isEscrowLockedLeafActive cfg blockIndex) chain.db chain.journal nodes).map
      Prod.snd = .ok root := by
  have hchain : Committed M K cfg chain :=
    hreach.invariant hinit.committed fun _ _ _ hok hstep => Committed.step hk hok hstep
  have hlast : chain.next - 1 = blockIndex := by omega
  have hisRoot := hchain.root root (by rw [hlast]; exact hroot)
  rw [hlast] at hisRoot
  exact hisRoot.full hk hchain.names hchain.keys hnodes

end run

/-! ### A name touched in another case -/

/-- Hashes that keep what they were made of. -/
inductive Symbol
  | blank
  | amount (value : ℚ)
  | node (left right : Symbol)
deriving DecidableEq

/-- Keys of three bits: what the leaf is of, and one of four names. -/
def shortKey (escrow : Bool) (address : Text) : List Bool :=
  [escrow, address = ['A'] || address = ['z'], address = ['a'] || address = ['z']]

def symbols : EscrowMerkle Symbol where
  nodeHash := .node
  empty0 := .blank
  inj := fun h => Symbol.node.inj h
  empty0_ne := fun _ _ h => by cases h
  amountLeaf := .amount
  amountLeaf_ne := fun _ h => by cases h
  depth := 3
  balanceKey := fun address _ => shortKey false address
  balanceKey_length := fun _ _ => rfl
  escrowKey := fun address _ => shortKey true address
  escrowKey_length := fun _ _ => rfl

/-- Commitments from block 10 on, escrows from block 20 on; addresses are compared without their case. -/
def caselessConfig : Config := ⟨⟨id, id, List.map Char.toLower⟩, 10, some 20⟩

def caselessCtx (blockIndex : ℕ) : BlockCtx where
  collation := caselessConfig.collation
  blockIndex
  tickNormalizeActive := true
  suppressIndexIdCreation := false
  ledgerAmountPrecisionActive := true

def caselessStart : Chain Symbol := ⟨10, Touched.emptyDb.toDb, [], fun _ => none, fun _ => none⟩

def creditTo (address : Char) (h : nul ∉ [address]) : Record := ⟨⟨['T'], by decide⟩, 5, ⟨[address], h⟩⟩

def plainTables : Names := ⟨[⟨1, ['T'], none⟩], [⟨1, ['a'], none⟩]⟩

/-- A block that leaves them with some rows. -/
def plainBlock (credits debits : List LedgerRow) : Ledger.Block.State where
  tx := ⟨{ Touched.emptyDb with names := plainTables, credits, debits }, []⟩
  smt := ⟨some [['a', '\t', 'T']], [], []⟩

/-- The address gets five and spends them in the next block, of which the root is then lost; one more
block follows. -/
def plainEvents : List Event :=
  [.block (caselessCtx 10) (plainBlock [⟨1, some 1, some 1, 5⟩] []) [],
    .block (caselessCtx 11) (plainBlock [⟨1, some 1, some 1, 5⟩] [⟨2, some 1, some 1, 5⟩]) [],
    .lose,
    .block (caselessCtx 12) (plainBlock [⟨1, some 1, some 1, 5⟩] [⟨2, some 1, some 1, 5⟩]) []]

def plainNames : Set (Text × Text) := {n | n = (['a'], ['T'])}

theorem keysFree_plainNames : KeysFree symbols plainNames where
  balance := fun n hn n' hn' _ => Eq.trans hn (Eq.symm hn')
  escrow := fun n hn n' hn' _ => Eq.trans hn (Eq.symm hn')
  apart := fun _ _ _ _ h => by simp [symbols, shortKey] at h

theorem namesOk_plainTables : NamesOk caselessConfig.collation plainTables :=
  ⟨⟨by decide, by decide⟩, ⟨by decide, by decide⟩, by decide, by decide⟩

variable {chain : Chain Symbol}

theorem blockOk_plain (hgrow : pairs chain.db.names ⊆ pairs plainTables)
    {credits debits : List LedgerRow}
    (hranged : Ranged (plainBlock credits debits).db.toDb) :
    BlockOk plainNames caselessConfig chain (caselessCtx blockIndex) (plainBlock credits debits) [] where
  collation := rfl
  names := namesOk_plainTables
  grow := hgrow
  keys := by
    intro q hq
    obtain rfl := mem_singleton.mp hq
    rfl
  rows := by simp
  complete := by
    intro q hq _
    obtain rfl := mem_singleton.mp hq
    exact mem_singleton.mpr rfl
  ranged := hranged
  touched := by
    intro e he
    obtain rfl := mem_singleton.mp he
    rfl
  canonical := by
    intro e he q hq _
    obtain rfl := mem_singleton.mp he
    obtain rfl := mem_singleton.mp hq
    rfl

theorem ranged_plain : Ranged (plainBlock [⟨1, some 1, some 1, 5⟩] []).db.toDb ∧
    Ranged (plainBlock [⟨1, some 1, some 1, 5⟩] [⟨2, some 1, some 1, 5⟩]).db.toDb :=
  ⟨⟨by decide +kernel, by decide +kernel⟩, ⟨by decide +kernel, by decide +kernel⟩⟩

theorem ok_plain (hchain : pairs chain.db.names ⊆ pairs plainTables) :
    ∀ event ∈ plainEvents, Ok plainNames caselessConfig chain event := by
  simp only [plainEvents, forall_mem_cons, not_mem_nil, false_imp_iff, implies_true, and_true]
  exact ⟨blockOk_plain hchain ranged_plain.1, blockOk_plain hchain ranged_plain.2, trivial,
    blockOk_plain hchain ranged_plain.2⟩

variable {chain chain' : Chain Symbol}

theorem step_plain (hchain : pairs chain.db.names ⊆ pairs plainTables) (hevent : event ∈ plainEvents)
    (h : step symbols caselessConfig chain event = some chain') :
    pairs chain'.db.names ⊆ pairs plainTables := by
  cases event with
  | lose => exact Option.some.inj h ▸ hchain
  | block c s rows =>
    have hs : s.db.names = plainTables := by
      simp only [plainEvents, mem_cons, Event.block.injEq, not_mem_nil, or_false, reduceCtorEq,
        false_or] at hevent
      rcases hevent with ⟨-, rfl, -⟩ | ⟨-, rfl, -⟩ | ⟨-, rfl, -⟩ <;> rfl
    rw [Balances.step] at h
    split_ifs at h
    split at h
    · cases h
    · obtain ⟨⟩ := h
      exact fun q hq => hs ▸ hq

theorem reaches_plain {events : List Event} (hevents : events ⊆ plainEvents)
    (hchain : pairs chain.db.names ⊆ pairs plainTables)
    (hreach : Reaches (step symbols caselessConfig) (Ok plainNames caselessConfig) caselessStart chain)
    (hrun : run (step symbols caselessConfig) chain events = some chain') :
    Reaches (step symbols caselessConfig) (Ok plainNames caselessConfig) caselessStart chain' := by
  induction events generalizing chain with
  | nil => exact Option.some.inj hrun ▸ hreach
  | cons event events ih =>
    rw [run, Option.bind_eq_some_iff] at hrun
    obtain ⟨chain₁, hstep, hrun⟩ := hrun
    have hevent := hevents mem_cons_self
    exact ih (subset_of_cons_subset hevents) (step_plain hchain hevent hstep)
      (hreach.next (ok_plain hchain event hevent) hstep) hrun

theorem hashed_empty : Hashed symbols.toPairHash fun _ => none := by
  intro h row hrow
  cases hrow

theorem start_plain : Start symbols plainNames caselessConfig caselessStart where
  next := rfl
  names := ⟨⟨by decide, by decide⟩, ⟨by decide, by decide⟩, by decide, by decide⟩
  keys := fun _ hq => by cases hq
  rows := fun _ hj => by cases hj
  hashed := hashed_empty
  roots := fun _ => rfl

/-- A balance that returns to zero, and a block after a lost root. -/
theorem threaded_root_is_full_lost : ∃ chain root,
    run (step symbols caselessConfig) caselessStart plainEvents = some chain ∧
      chain.roots 12 = some root ∧
      (buildFullBalancesRoot symbols (isEscrowLockedLeafActive caselessConfig 12) chain.db chain.journal
        fun _ => none).map Prod.snd = .ok root := by
  obtain ⟨chain, hrun, hnext, hsome⟩ : ∃ chain, run (step symbols caselessConfig) caselessStart
      plainEvents = some chain ∧ chain.next = 13 ∧ (chain.roots 12).isSome := by
    decide +kernel
  obtain ⟨root, hroot⟩ := Option.isSome_iff_exists.mp hsome
  exact ⟨chain, root, hrun, hroot, threaded_root_is_full keysFree_plainNames start_plain
    (reaches_plain (List.Subset.refl _) (by decide) .init hrun) hnext hroot
    hashed_empty⟩

theorem nul_notMem_upper : nul ∉ ['A'] := by decide

/-- Inside a savepoint the new address `a` is credited; the savepoint is rolled back, `z` gets the id of
`a`, and `A` is credited. -/
def caseRun : List Ledger.Block.Event :=
  [.action, .createSavepoint ['s'], .ledger .credits 1 (creditTo 'a' (by decide)),
    .rollbackToSavepoint ['s'], .address ['z'], .ledger .credits 1 (creditTo 'A' nul_notMem_upper)]

/-- The first block of the commitments, and the block that credits `A`. -/
def caseBlocks (s : Ledger.Block.State) : List Event :=
  [.block (caselessCtx 10) (Ledger.Block.openBlock Touched.emptyDb) [], .block (caselessCtx 11) s []]

/-- **A second leaf.** Every balance that the block moved is touched, but the root that it threads is not
that of a full build: the balance of `A` is under the key of `a`, too. -/
theorem case_variant_adds_leaf : ∃ s chain root,
    run (Ledger.Block.step (caselessCtx 11)) (Ledger.Block.openBlock Touched.emptyDb) caseRun = some s ∧
      (∀ q ∈ pairs s.db.names, balanceOf s.db.toDb q ≠ 0 →
        touchedKey q.1.name q.2.name ∈ touchedEntries s.smt) ∧
      run (step symbols caselessConfig) caselessStart (caseBlocks s) = some chain ∧
      chain.roots 11 = some root ∧
      (buildFullBalancesRoot symbols (isEscrowLockedLeafActive caselessConfig 11) chain.db chain.journal
        fun _ => none).map Prod.snd ≠ .ok root := by
  obtain ⟨s, hs, htouched, chain, hchain, root, hroot, hne⟩ :
      ∃ s, run (Ledger.Block.step (caselessCtx 11)) (Ledger.Block.openBlock Touched.emptyDb) caseRun =
        some s ∧ (∀ q ∈ pairs s.db.names, balanceOf s.db.toDb q ≠ 0 →
          touchedKey q.1.name q.2.name ∈ touchedEntries s.smt) ∧
        ∃ chain, run (step symbols caselessConfig) caselessStart (caseBlocks s) = some chain ∧
          ∃ root, chain.roots 11 = some root ∧ (buildFullBalancesRoot symbols
            (isEscrowLockedLeafActive caselessConfig 11) chain.db chain.journal
            fun _ => none).map Prod.snd ≠ .ok root := by
    decide +kernel
  exact ⟨s, chain, root, hs, htouched, hchain, hroot, hne⟩

end XChainIndexer.StateTree.Threading
