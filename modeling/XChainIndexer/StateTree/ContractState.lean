import Mathlib.Data.List.DropRight
import XChainIndexer.Lib.Run
import XChainIndexer.StateTree.Updates

/-! # The contract-state root

`consensus/contract_state_subtree.js`. The table `contract_state` only grows, by values and by tombstones;
a reorg cuts its rows and the stored roots off at a height and leaves the nodes. A block threads the keys
that it wrote onto the stored root of the block before, and builds the tree from all keys where there is
none. Main result: `contract_state_root_is_full`.

The queries group and match keys in the column `state_key_bin`, whose collation ignores spaces at the end of
a text. So they take two keys that differ in such spaces only for one, while the tree has a leaf for each of
them: the threaded root keeps the leaf of the first, which a full build leaves out
(`padded_key_forks`).

As in `StateTree.Threading`, the hash of a pair is taken to be injective. -/

namespace XChainIndexer.StateTree.ContractState

open IndexTables (Text rtrim)
open Lib.NodeStore Lib.Run List
open Lib.SparseTree (Leaves Kept root)
open StateTree.Updates
open StateTree.Engine (Tree withLeaves tree_blank)

/-- A contract and a key of its state. -/
abbrev StateKey := ℕ × Text

/-- The hashes, with the keys of contract states. -/
structure ContractMerkle (H : Type) extends LeafHash H where
  contractStateKey : StateKey → List Bool
  contractStateKey_length : ∀ k, (contractStateKey k).length = depth

/-- A row of `contract_state`, in the order of the ids. -/
structure StateRow where
  key : StateKey
  /-- `none` is the tombstone. -/
  stateValue : Option Text
  blockIndex : ℕ

/-- The two columns a chain threads its roots through: armed, or only shadowing. -/
inductive Column
  | committed
  | shadow
deriving DecidableEq

/-- The database between two blocks. -/
structure State (H : Type) where
  next : ℕ
  rows : List StateRow
  nodes : Store H
  /-- The columns of `state_tree_roots`. -/
  roots : Column → ℕ → Option H

/-! ### Reading the table -/

/-- What the collation compares of a key. -/
def padded (k : StateKey) : StateKey := (k.1, rtrim k.2)

/-- Distinct keys of the rows of a block; the first of those that compare equal stands for them. -/
def touchedContractStateKeys (rows : List StateRow) (blockIndex : ℕ) : List StateKey :=
  let keys := (rows.filter fun r => r.blockIndex = blockIndex).map StateRow.key
  (keys.map padded).dedup.filterMap fun p => keys.find? fun k => padded k = p

/-- The row of the largest id, tombstones included. -/
def latestRow (rows : List StateRow) (k : StateKey) : Option StateRow :=
  (rows.filter fun r => padded r.key = padded k).getLast?

def latestStateValue (rows : List StateRow) (k : StateKey) : Option Text :=
  (latestRow rows k).bind StateRow.stateValue

/-- The rows of the largest ids of their keys. -/
def latestRows (rows : List StateRow) : List StateRow :=
  (rows.map fun r => padded r.key).dedup.filterMap (latestRow rows)

section roots
variable {H : Type}

def contractStateLeaf (M : ContractMerkle H) (stateValue : Option Text) : Option H :=
  stateValue.map M.leafHash

/-- The leaves of a full build. -/
def liveEntries (M : ContractMerkle H) (rows : List StateRow) : List (List Bool × H) :=
  (latestRows rows).filterMap fun r =>
    (contractStateLeaf M r.stateValue).map fun leaf => (M.contractStateKey r.key, leaf)

variable [DecidableEq H]

def buildFullContractStateRoot (M : ContractMerkle H) (rows : List StateRow) (nodes : Store H) :
    Store H × H :=
  applyUpdates M.toPairHash ((liveEntries M rows).map fun e => (e.1, some e.2)) (nodes, M.empty M.depth)

/-- The stored root of the block before. -/
def priorRoot (roots : ℕ → Option H) : ℕ → Option H
  | 0 => none
  | b + 1 => roots b

/-- What a threaded block updates. -/
def touchedUpdates (M : ContractMerkle H) (rows : List StateRow) (blockIndex : ℕ) :
    List (List Bool × Option H) :=
  (touchedContractStateKeys rows blockIndex).map fun k =>
    (M.contractStateKey k, contractStateLeaf M (latestStateValue rows k))

def resolveContractStateRoot (M : ContractMerkle H) (rows : List StateRow) (nodes : Store H)
    (roots : ℕ → Option H) (blockIndex : ℕ) : Store H × H :=
  match priorRoot roots blockIndex with
  | none => buildFullContractStateRoot M rows nodes
  | some root => applyUpdates M.toPairHash (touchedUpdates M rows blockIndex) (nodes, root)

/-! ### Runs -/

inductive Event (H : Type)
  /-- A block: the values and tombstones that it writes, the paths that the other trees write from their
  roots, and the column it threads, if any. -/
  | block (writes : List (StateKey × Option Text)) (others : List (H × List Bool × Option Text))
    (column : Option Column)
  /-- The blocks from the height on are orphaned. -/
  | reorg (height : ℕ)

def stamp (blockIndex : ℕ) (writes : List (StateKey × Option Text)) : List StateRow :=
  writes.map fun w => ⟨w.1, w.2, blockIndex⟩

def apply (M : ContractMerkle H) (s : State H) : Event H → State H
  | .block writes others column =>
    let rows := s.rows ++ stamp s.next writes
    let nodes := storeOthers M.toLeafHash s.nodes others
    match column with
    | none => { s with next := s.next + 1, rows, nodes }
    | some column =>
      let tree := resolveContractStateRoot M rows nodes (s.roots column) s.next
      { next := s.next + 1
        rows
        nodes := tree.1
        roots := fun c b => if c = column ∧ b = s.next then some tree.2 else s.roots c b }
  | .reorg height =>
    { s with
      next := min height s.next
      rows := s.rows.filter fun r => r.blockIndex < height
      roots := fun c b => if b < height then s.roots c b else none }

def step (M : ContractMerkle H) (s : State H) (e : Event H) : Option (State H) := some (apply M s e)

def init (first : ℕ) : State H := ⟨first, [], fun _ => none, fun _ _ => none⟩

/-- The keys that the event writes are in the set. -/
def Event.WritesIn (K : Set StateKey) : Event H → Prop
  | .block writes _ _ => ∀ w ∈ writes, w.1 ∈ K
  | .reorg _ => True

end roots

/-! ### The latest values -/

section latest
variable {rows new : List StateRow} {k : StateKey}

theorem padded_padded (k : StateKey) : padded (padded k) = padded k := by
  unfold padded rtrim
  rw [reverse_reverse, dropWhile_idempotent]

theorem latestRow_congr {k' : StateKey} (h : padded k = padded k') : latestRow rows k = latestRow rows k' := by
  rw [latestRow, h, latestRow]

theorem mem_of_latestRow {r : StateRow} (h : latestRow rows k = some r) :
    r ∈ rows ∧ padded r.key = padded k := by
  simpa using mem_of_getLast? h

theorem latestRow_append (h : ∀ r ∈ new, padded r.key ≠ padded k) :
    latestRow (rows ++ new) k = latestRow rows k := by
  have hnew : new.filter (fun r => padded r.key = padded k) = [] := by simpa using h
  rw [latestRow, filter_append, hnew, append_nil, latestRow]

variable {b : ℕ}

theorem mem_of_touched (h : k ∈ touchedContractStateKeys rows b) : ∃ r ∈ rows, r.key = k := by
  obtain ⟨p, -, hfind⟩ := mem_filterMap.mp h
  obtain ⟨r, hr, rfl⟩ := mem_map.mp (mem_of_find?_eq_some hfind)
  exact ⟨r, mem_of_mem_filter hr, rfl⟩

theorem exists_touched {r : StateRow} (hr : r ∈ rows) (hb : r.blockIndex = b) :
    ∃ k ∈ touchedContractStateKeys rows b, padded k = padded r.key := by
  have hkey : r.key ∈ (rows.filter fun r => r.blockIndex = b).map StateRow.key :=
    mem_map_of_mem (mem_filter.mpr ⟨hr, decide_eq_true hb⟩)
  have hsome : (((rows.filter fun r => r.blockIndex = b).map StateRow.key).find?
      fun k => padded k = padded r.key).isSome := find?_isSome.mpr ⟨_, hkey, decide_eq_true rfl⟩
  obtain ⟨k, hk⟩ := Option.isSome_iff_exists.mp hsome
  refine ⟨k, mem_filterMap.mpr ⟨padded r.key, mem_dedup.mpr (mem_map_of_mem hkey), hk⟩, ?_⟩
  simpa using find?_some hk

variable {H : Type} {M : ContractMerkle H}

/-- A leaf is that of a row which is the latest of its key. -/
theorem mem_liveEntries {e : List Bool × H} : e ∈ liveEntries M rows ↔
    ∃ r v, latestRow rows r.key = some r ∧ r.stateValue = some v ∧ M.contractStateKey r.key = e.1 ∧
      M.leafHash v = e.2 := by
  simp only [liveEntries, latestRows, contractStateLeaf, mem_filterMap, mem_dedup,
    mem_map, Option.map_map, Option.map_eq_some_iff]
  constructor
  · rintro ⟨r, ⟨k, -, hr⟩, v, hv, rfl⟩
    exact ⟨r, v, (latestRow_congr (mem_of_latestRow hr).2).trans hr, hv, rfl, rfl⟩
  · rintro ⟨r, v, hr, hv, hkey, hleaf⟩
    exact ⟨r, ⟨padded r.key, ⟨r, (mem_of_latestRow hr).1, rfl⟩,
      (latestRow_congr (padded_padded _)).trans hr⟩, v, hv, Prod.ext hkey hleaf⟩

variable {K : Set StateKey} (hK : Set.InjOn M.contractStateKey K) (hpad : Set.InjOn padded K)
  (hrows : ∀ r ∈ rows, r.key ∈ K)
include hK hpad hrows

theorem mem_liveEntries_key (hk : k ∈ K) {leaf : H} : (M.contractStateKey k, leaf) ∈ liveEntries M rows ↔
      contractStateLeaf M (latestStateValue rows k) = some leaf := by
  rw [mem_liveEntries, contractStateLeaf, Option.map_eq_some_iff]
  constructor
  · rintro ⟨r, v, hr, hv, hkey, hleaf⟩
    obtain rfl := hK (hrows r (mem_of_latestRow hr).1) hk hkey
    exact ⟨v, Option.bind_eq_some_iff.mpr ⟨r, hr, hv⟩, hleaf⟩
  · rintro ⟨v, hv, hleaf⟩
    obtain ⟨r, hr, hvalue⟩ := Option.bind_eq_some_iff.mp hv
    obtain ⟨hmem, hpadded⟩ := mem_of_latestRow hr
    obtain rfl := hpad (hrows r hmem) hk hpadded
    exact ⟨r, v, hr, hvalue, rfl, hleaf⟩

/-! ### One block -/

theorem listed_full : Listed M.toPairHash (liveEntries M rows)
    (withLeaves M.toPairHash (fun _ => M.empty0) ((liveEntries M rows).map fun e => (e.1, some e.2))) := by
  refine listed_of_functional fun e he e' he' hkey => ?_
  obtain ⟨r, v, hr, hv, hk, hleaf⟩ := mem_liveEntries.mp he
  have hin : (M.contractStateKey r.key, e'.2) ∈ liveEntries M rows := by rwa [hk, hkey]
  have hvalue : latestStateValue rows r.key = some v := Option.bind_eq_some_iff.mpr ⟨r, hr, hv⟩
  rw [mem_liveEntries_key hK hpad hrows (hrows r (mem_of_latestRow hr).1), contractStateLeaf, hvalue,
    Option.map_some, hleaf] at hin
  exact Option.some.inj hin

/-- The keys that a block touched, threaded onto the leaves of the rows before it. -/
theorem listed_touched {f : Leaves H}
    (hnew : ∀ r ∈ new, r.blockIndex = b ∧ r.key ∈ K) (hf : Listed M.toPairHash (liveEntries M rows) f) :
    Listed M.toPairHash (liveEntries M (rows ++ new))
      (withLeaves M.toPairHash f (touchedUpdates M (rows ++ new) b)) := by
  have hall : ∀ r ∈ rows ++ new, r.key ∈ K := fun r hr =>
    (mem_append.mp hr).elim (hrows r) fun hr => (hnew r hr).2
  refine hf.withLeaves (fun u hu v => ?_) fun e he => ?_
  · obtain ⟨k, hk, rfl⟩ := mem_map.mp hu
    obtain ⟨r, hr, rfl⟩ := mem_of_touched hk
    exact (mem_liveEntries_key hK hpad hall (hall r hr)).symm
  · -- a key that is not touched has its rows before the block
    have hlatest : ∀ k ∈ K, M.contractStateKey k = e.1 →
        latestRow (rows ++ new) k = latestRow rows k := by
      intro k hk hkey
      refine latestRow_append fun r hr hsame => ?_
      obtain ⟨k', htouched, hk'⟩ := exists_touched (mem_append_right rows hr) (hnew r hr).1
      obtain ⟨r', hr', rfl⟩ := mem_of_touched htouched
      obtain rfl := hpad (hall r' hr') hk (hk'.trans hsame)
      exact he _ (mem_map_of_mem htouched) hkey
    rw [mem_liveEntries, mem_liveEntries]
    constructor
    · rintro ⟨r, v, hr, hv, hkey, hleaf⟩
      have hin := hall r (mem_of_latestRow hr).1
      exact ⟨r, v, (hlatest _ hin hkey).symm.trans hr, hv, hkey, hleaf⟩
    · rintro ⟨r, v, hr, hv, hkey, hleaf⟩
      have hin := hrows r (mem_of_latestRow hr).1
      exact ⟨r, v, (hlatest _ hin hkey).trans hr, hv, hkey, hleaf⟩

end latest

/-! ### Every run -/

def upTo (b : ℕ) (rows : List StateRow) : List StateRow := rows.filter fun r => r.blockIndex ≤ b

theorem upTo_of_le {rows : List StateRow} (h : ∀ r ∈ rows, r.blockIndex ≤ b) : upTo b rows = rows :=
  filter_eq_self.mpr fun r hr => decide_eq_true (h r hr)

section run
variable {H : Type} {M : ContractMerkle H} {K : Set StateKey} {rows new : List StateRow}
  {nodes nodes' : Store H} {r r' : H} {s : State H}

/-- The nodes keep the tree of the rows under the root. -/
def IsRoot (M : ContractMerkle H) (rows : List StateRow) (nodes : Store H) (r : H) : Prop :=
  ∃ f, Listed M.toPairHash (liveEntries M rows) f ∧ Tree M.toPairHash M.depth f (nodes, r)

theorem IsRoot.mono (h : IsRoot M rows nodes r) (hle : Includes nodes nodes')
    (hhashed : Hashed M.toPairHash nodes') : IsRoot M rows nodes' r := by
  obtain ⟨f, hf, htree⟩ := h
  exact ⟨f, hf, hhashed, htree.kept.mono hle, htree.root_eq⟩

theorem IsRoot.eq (h : IsRoot M rows nodes r) (h' : IsRoot M rows nodes' r') : r = r' := by
  obtain ⟨f, hf, htree⟩ := h
  obtain ⟨g, hg, htree'⟩ := h'
  have hfg : f = g := hf.eq hg fun _ => Iff.rfl
  exact htree.root_eq.trans (hfg ▸ htree'.root_eq.symm)

/-- Every stored root is that of the rows up to its block. -/
structure Good (M : ContractMerkle H) (K : Set StateKey) (s : State H) : Prop where
  hashed : Hashed M.toPairHash s.nodes
  keys : ∀ row ∈ s.rows, row.key ∈ K
  below : ∀ row ∈ s.rows, row.blockIndex < s.next
  roots : ∀ c b r, s.roots c b = some r → b < s.next ∧ IsRoot M (upTo b s.rows) s.nodes r

theorem good_init (M : ContractMerkle H) (K : Set StateKey) (first : ℕ) : Good M K (init first) where
  hashed := fun _ _ h => absurd h (by simp [init])
  keys := fun _ h => absurd h (by simp [init])
  below := fun _ h => absurd h (by simp [init])
  roots := fun _ _ _ h => absurd h (by simp [init])

section rows
variable (hs : Good M K s) (hnew : ∀ row ∈ new, row.blockIndex = s.next ∧ row.key ∈ K)
include hs hnew

theorem Good.keys_append : ∀ row ∈ s.rows ++ new, row.key ∈ K := fun row hrow =>
  (mem_append.mp hrow).elim (hs.keys row) fun hrow => (hnew row hrow).2

theorem Good.le_append : ∀ row ∈ s.rows ++ new, row.blockIndex ≤ s.next := fun row hrow =>
  (mem_append.mp hrow).elim (fun hrow => (hs.below row hrow).le) fun hrow => (hnew row hrow).1.le

theorem Good.isRoot_append {c : Column} (hr : s.roots c b = some r)
    (hle : Includes s.nodes nodes) (hnodes : Hashed M.toPairHash nodes) :
    b < s.next ∧ IsRoot M (upTo b (s.rows ++ new)) nodes r := by
  obtain ⟨hb, hroot⟩ := hs.roots c b r hr
  have hnil : upTo b new = [] := by
    refine filter_eq_nil_iff.mpr fun row hrow => ?_
    rw [(hnew row hrow).1, decide_eq_true_eq, not_le]
    exact hb
  have happend : upTo b (s.rows ++ new) = upTo b s.rows := by
    rw [upTo, filter_append, ← upTo, ← upTo, hnil, append_nil]
  exact ⟨hb, happend ▸ hroot.mono hle hnodes⟩

end rows

theorem Good.reorg (hs : Good M K s) (height : ℕ) : Good M K
    { s with
      next := min height s.next
      rows := s.rows.filter fun row => row.blockIndex < height
      roots := fun c b => if b < height then s.roots c b else none } := by
  refine ⟨hs.hashed, fun row hrow => hs.keys row (mem_of_mem_filter hrow), ?_, fun c b r hr => ?_⟩
  · intro row hrow
    obtain ⟨hmem, hlt⟩ := mem_filter.mp hrow
    exact lt_min (of_decide_eq_true hlt) (hs.below row hmem)
  · by_cases hb : b < height
    · obtain ⟨hnext, hroot⟩ := hs.roots c b r ((if_pos hb).symm.trans hr)
      have hcut : upTo b (s.rows.filter fun row => row.blockIndex < height) = upTo b s.rows := by
        rw [upTo, filter_filter]
        refine filter_congr fun row _ => ?_
        rw [Bool.and_eq_left_iff_imp, decide_eq_true_eq, decide_eq_true_eq]
        exact fun hle => hle.trans_lt hb
      exact ⟨lt_min hb hnext, hcut ▸ hroot⟩
    · exact absurd ((if_neg hb).symm.trans hr) (by simp)

variable [DecidableEq H]

theorem includes_resolve (M : ContractMerkle H) (rows : List StateRow) (nodes : Store H)
    (roots : ℕ → Option H) (b : ℕ) : Includes nodes (resolveContractStateRoot M rows nodes roots b).1 := by
  unfold resolveContractStateRoot
  cases priorRoot roots b with
  | none => exact includes_applyUpdates M.toPairHash _ (nodes, _)
  | some r => exact includes_applyUpdates M.toPairHash _ (nodes, r)

variable (hK : Set.InjOn M.contractStateKey K) (hpad : Set.InjOn padded K)
include hK hpad

theorem isRoot_full (hrows : ∀ row ∈ rows, row.key ∈ K) (hnodes : Hashed M.toPairHash nodes) :
    IsRoot M rows (buildFullContractStateRoot M rows nodes).1 (buildFullContractStateRoot M rows nodes).2 := by
  refine ⟨_, listed_full hK hpad hrows, tree_applyUpdates (tree_blank hnodes _) fun u hu => ?_⟩
  obtain ⟨e, he, rfl⟩ := mem_map.mp hu
  obtain ⟨r, -, -, -, hkey, -⟩ := mem_liveEntries.mp he
  exact hkey ▸ M.contractStateKey_length r.key

/-- **One block.** Its root is that of its rows and of those before it. -/
theorem Good.isRoot_resolve (hs : Good M K s) (hnew : ∀ row ∈ new, row.blockIndex = s.next ∧ row.key ∈ K)
    (hle : Includes s.nodes nodes) (hnodes : Hashed M.toPairHash nodes) (c : Column) :
    IsRoot M (s.rows ++ new) (resolveContractStateRoot M (s.rows ++ new) nodes (s.roots c) s.next).1
      (resolveContractStateRoot M (s.rows ++ new) nodes (s.roots c) s.next).2 := by
  unfold resolveContractStateRoot
  cases hprior : priorRoot (s.roots c) s.next with
  | none => exact isRoot_full hK hpad (hs.keys_append hnew) hnodes
  | some r =>
    -- the root of the block before is that of all rows so far
    have hbefore : IsRoot M s.rows s.nodes r := by
      cases hnext : s.next with
      | zero =>
        rw [hnext] at hprior
        exact absurd hprior (by simp [priorRoot])
      | succ b =>
        rw [hnext] at hprior
        have hbelow : ∀ row ∈ s.rows, row.blockIndex ≤ b := by
          intro row hrow
          have hlt := hs.below row hrow
          omega
        exact upTo_of_le hbelow ▸ (hs.roots c b r hprior).2
    obtain ⟨f, hf, htree⟩ := hbefore.mono hle hnodes
    refine ⟨_, listed_touched hK hpad hs.keys hnew hf, tree_applyUpdates htree fun u hu => ?_⟩
    obtain ⟨k, -, rfl⟩ := mem_map.mp hu
    exact M.contractStateKey_length k

theorem Good.apply (hs : Good M K s) {e : Event H} (he : e.WritesIn K) : Good M K (apply M s e) := by
  cases e with
  | reorg height => exact hs.reorg height
  | block writes others column =>
    have hnew : ∀ row ∈ stamp s.next writes, row.blockIndex = s.next ∧ row.key ∈ K :=
      forall_mem_map.mpr fun w hw => ⟨rfl, he w hw⟩
    obtain ⟨hnodes, hle⟩ := storeOthers_spec hs.hashed others
    have hbelow : ∀ row ∈ s.rows ++ stamp s.next writes, row.blockIndex < s.next + 1 := fun row hrow =>
      Nat.lt_succ_of_le (hs.le_append hnew row hrow)
    cases column with
    | none =>
      refine ⟨hnodes, hs.keys_append hnew, hbelow, fun c b r hr => ?_⟩
      obtain ⟨hb, hroot⟩ := hs.isRoot_append hnew hr hle hnodes
      exact ⟨Nat.lt_succ_of_lt hb, hroot⟩
    | some column =>
      have hblock := hs.isRoot_resolve hK hpad hnew hle hnodes column
      obtain ⟨f, -, htree⟩ := id hblock
      refine ⟨htree.hashed, hs.keys_append hnew, hbelow, fun c b r hr => ?_⟩
      by_cases hcb : c = column ∧ b = s.next
      · obtain ⟨rfl, rfl⟩ := hcb
        obtain rfl := Option.some.inj ((if_pos ⟨rfl, rfl⟩).symm.trans hr)
        exact ⟨Nat.lt_succ_self _, (upTo_of_le (hs.le_append hnew)).symm ▸ hblock⟩
      · have hstored : s.roots c b = some r := (if_neg hcb).symm.trans hr
        obtain ⟨hb, hroot⟩ := hs.isRoot_append hnew hstored
          (fun p row h => includes_resolve M _ _ _ _ p row (hle p row h)) htree.hashed
        exact ⟨Nat.lt_succ_of_lt hb, hroot⟩

/-- **The threaded root is that of a full build.** In every run of blocks and reorgs in which no two keys of
contract states collide or differ in spaces at their ends only, each stored root is the one that a full build over the rows up to its block gives,
whatever nodes it starts from; and a block of a chain that threads a column stores a root there. -/
theorem contract_state_root_is_full {first : ℕ}
    (hreach : Reaches (step M) (fun _ e => e.WritesIn K) (init first) s) :
    (∀ c b r, s.roots c b = some r → b < s.next ∧ ∀ nodes, Hashed M.toPairHash nodes →
      r = (buildFullContractStateRoot M (upTo b s.rows) nodes).2) ∧
    ∀ writes others c, ∃ r, (ContractState.apply M s (.block writes others (some c))).roots c s.next = some r := by
  have hgood : Good M K s := hreach.invariant (good_init M K first) fun s e s' he hstep hs =>
    Option.some.inj hstep ▸ hs.apply hK hpad he
  refine ⟨fun c b r hr => ?_, fun writes others c => ⟨_, if_pos ⟨rfl, rfl⟩⟩⟩
  obtain ⟨hb, hroot⟩ := hgood.roots c b r hr
  refine ⟨hb, fun nodes hnodes => hroot.eq (isRoot_full hK hpad (fun row hrow => ?_) hnodes)⟩
  exact hgood.keys row (mem_of_mem_filter hrow)

end run

/-! ### A tombstone that a reorg takes back -/

/-- Two contracts with two keys each. -/
def fourKeys : ContractMerkle Term where
  toLeafHash := terms 2
  contractStateKey := fun k => [k.1 = 1, k.2 = ['a']]
  contractStateKey_length := fun _ => rfl

def keysOfTwo : List StateKey := [(1, ['a']), (1, ['b']), (2, ['a']), (2, ['b'])]

/-- A key is deleted and another one set; both are orphaned, and the first one is written again. -/
def deletedAndOrphaned : List (Event Term) :=
  [.block [((1, ['a']), some ['x']), ((2, ['a']), some ['y'])] [] (some .committed),
    .block [((1, ['a']), none), ((1, ['b']), some ['z'])] [] (some .committed),
    .reorg 6, .block [((1, ['a']), some ['w'])] [] (some .committed)]

theorem injOn_keysOfTwo {β : Type} [DecidableEq β] {f : StateKey → β}
    (hall : ∀ k ∈ keysOfTwo, ∀ k' ∈ keysOfTwo, f k = f k' → k = k') :
    Set.InjOn f { k | k ∈ keysOfTwo } :=
  fun k hk k' hk' h => hall k hk k' hk' h

theorem contract_state_root_is_full_orphaned :
    ∃ s r, run (step fourKeys) (init 5) deletedAndOrphaned = some s ∧ s.roots .committed 6 = some r ∧
      latestStateValue s.rows (1, ['a']) = some ['w'] ∧ latestStateValue s.rows (1, ['b']) = none ∧
      r = (buildFullContractStateRoot fourKeys (upTo 6 s.rows) fun _ => none).2 := by
  obtain ⟨s, hs, hroot, hread⟩ : ∃ s, run (step fourKeys) (init 5) deletedAndOrphaned = some s ∧
      (s.roots .committed 6).isSome ∧ latestStateValue s.rows (1, ['a']) = some ['w'] ∧
        latestStateValue s.rows (1, ['b']) = none := by decide +kernel
  obtain ⟨r, hr⟩ := Option.isSome_iff_exists.mp hroot
  have hwrites : ∀ e ∈ deletedAndOrphaned, ∀ _ : State Term, e.WritesIn { k | k ∈ keysOfTwo } := by
    simp [deletedAndOrphaned, Event.WritesIn, keysOfTwo, -Prod.forall]
  have hfull := (contract_state_root_is_full (M := fourKeys) (injOn_keysOfTwo (by decide))
    (injOn_keysOfTwo (by decide)) (Reaches.init.of_run hwrites hs)).1 _ _ r hr
  exact ⟨s, r, hs, hr, hread.1, hread.2, hfull.2 _ fun _ _ h => absurd h (by simp)⟩

/-! ### A key with a space -/

/-- The key `a` of a block is followed by the key `a ` of the next. -/
def spaced : List (Event Term) :=
  [.block [((1, ['a']), some ['x'])] [] (some .committed),
    .block [((1, ['a', ' ']), some ['y'])] [] (some .committed)]

/-- The threaded root has both leaves, and the full build only the later one. -/
theorem padded_key_forks : ∃ s r, run (step fourKeys) (init 5) spaced = some s ∧
    s.roots .committed 6 = some r ∧ liveEntries fourKeys (upTo 6 s.rows) = [([true, false], .leaf ['y'])] ∧
    r = .node (.node .blank .blank) (.node (.leaf ['y']) (.leaf ['x'])) ∧
    r ≠ (buildFullContractStateRoot fourKeys (upTo 6 s.rows) fun _ => none).2 := by
  refine ⟨_, _, rfl, rfl, ?_⟩
  decide +kernel

end XChainIndexer.StateTree.ContractState
