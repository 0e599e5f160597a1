import XChainIndexer.Lib.Keyed
import XChainIndexer.Lib.SparseTree
import XChainIndexer.StateTree.Smt

/-! # The engine of the persistent tree

`PersistentSMT` of `state_commitment/persistent_smt.js` with its node stores and its read-through cache.
A store takes the rows of a path in one call, in chunks or one by one. The cache holds rows that were read
or written, drops the oldest when it is full and is asked before the store.

`update_spec`: over a store that keeps the tree of a root, with any cache of rows under their own hashes,
an update returns the root of the tree with the new leaf and the store keeps that tree. -/

namespace XChainIndexer.StateTree.Engine

open Lib.NodeStore Lib.SparseTree List
open StateTree.Smt (emptySiblings parentRow climb climb_cons length_emptySiblings)

variable {H : Type}

/-! ### Stores -/

/-- How a store takes the rows of a path. -/
inductive Writes
  /-- `MemoryNodeStore.putMany`. -/
  | memory
  /-- `DbNodeStore.putMany`. -/
  | chunked
  /-- A store without `putMany`. -/
  | single

def nodePutChunk : ℕ := 128

section store
variable [DecidableEq H]

/-- `for(i = 0; i < nodes.length; i += NODE_PUT_CHUNK)`. -/
def putChunks : ℕ → Store H → List (NodeRow H) → Store H
  | 0, st, _ => st
  | fuel + 1, st, nodes =>
    if nodes = [] then st
    else putChunks fuel (putMany st (nodes.take nodePutChunk)) (nodes.drop nodePutChunk)

def writeRows (writes : Writes) (st : Store H) (nodes : List (NodeRow H)) : Store H :=
  match writes with
  | .memory => putMany st nodes
  | .chunked => putChunks nodes.length st nodes
  | .single => nodes.foldl put st

variable {nodes : List (NodeRow H)}

theorem putChunks_eq {fuel : ℕ} (h : nodes.length ≤ fuel) (st : Store H) :
    putChunks fuel st nodes = putMany st nodes := by
  induction fuel generalizing st nodes with
  | zero =>
    rw [length_eq_zero_iff.mp (Nat.le_zero.mp h)]
    rfl
  | succ fuel ih =>
    unfold putChunks
    split_ifs with hnil
    · rw [hnil]
      rfl
    · rw [ih (by rw [length_drop, nodePutChunk]; omega)]
      unfold putMany
      rw [← foldl_append, take_append_drop]

theorem writeRows_eq (writes : Writes) (st : Store H) (nodes : List (NodeRow H)) :
    writeRows writes st nodes = putMany st nodes := by
  cases writes with
  | memory => rfl
  | chunked => exact putChunks_eq (Nat.le_refl _) st
  | single => rfl

end store

/-! ### The engine -/

structure PersistentSMT (H : Type) where
  store : Store H
  writes : Writes
  nodeCacheMax : ℕ
  /-- In the order of insertion. -/
  nodeCache : List (H × (H × H))

variable [DecidableEq H]

def cacheGet (e : PersistentSMT H) (hash : H) : Option (H × H) :=
  if 0 < e.nodeCacheMax then e.nodeCache.lookup hash else none

def cachePut (e : PersistentSMT H) (hash : H) (row : H × H) : PersistentSMT H :=
  if e.nodeCacheMax = 0 ∨ (e.nodeCache.lookup hash).isSome then e
  else
    let kept := if e.nodeCacheMax ≤ e.nodeCache.length then e.nodeCache.drop 1 else e.nodeCache
    { e with nodeCache := kept ++ [(hash, row)] }

/-- The row of a hash, from the cache or else from the store. -/
def readRow (e : PersistentSMT H) (hash : H) : PersistentSMT H × Option (H × H) :=
  match cacheGet e hash with
  | some row => (e, some row)
  | none =>
    match e.store hash with
    | some row => (cachePut e hash row, some row)
    | none => (e, none)

def descend (N : PairHash H) : PersistentSMT H → H → List Bool → PersistentSMT H × List H × H
  | e, cur, [] => (e, [], cur)
  | e, cur, bit :: key =>
    match readRow e cur with
    | (e, none) => (e, emptySiblings N (key.length + 1), N.empty0)
    | (e, some row) =>
      let (e, siblings, oldLeaf) := descend N e (child bit row) key
      (e, child (!bit) row :: siblings, oldLeaf)

def putBatch (e : PersistentSMT H) (nodes : List (NodeRow H)) : PersistentSMT H :=
  nodes.foldl (fun e n => cachePut e n.hash (n.left, n.right))
    { e with store := writeRows e.writes e.store nodes }

def update (N : PairHash H) (e : PersistentSMT H) (root : H) (key : List Bool) (leaf : Option H) :
    PersistentSMT H × H :=
  let (e, siblings, _) := descend N e root key
  let (cur, pending) := climb N (leaf.getD N.empty0) key siblings
  (if pending = [] then e else putBatch e pending, cur)

/-- One update after another, each from the root that the one before returned. -/
def updates (N : PairHash H) (e : PersistentSMT H) (root : H) (entries : List (List Bool × Option H)) :
    PersistentSMT H × H :=
  entries.foldl (fun t entry => update N t.1 t.2 entry.1 entry.2) (e, root)

/-- `buildFull` of a tree of the depth. -/
def buildFull (N : PairHash H) (depth : ℕ) (e : PersistentSMT H) (entries : List (List Bool × H)) :
    PersistentSMT H × H :=
  updates N e (N.empty depth) (entries.map fun entry => (entry.1, some entry.2))

/-- The leaf and the siblings of a key. -/
def prove (N : PairHash H) (e : PersistentSMT H) (root : H) (key : List Bool) : Option H × List H :=
  let (_, siblings, oldLeaf) := descend N e root key
  (if oldLeaf = N.empty0 then none else some oldLeaf, siblings)

/-! ### What is hashed -/

/-- The pairs hashed on the way up from a leaf. -/
def climbPairs (N : PairHash H) (leaf : H) : List Bool → List H → List (H × H)
  | bit :: key, sib :: siblings =>
    let row := parentRow N bit (climb N leaf key siblings).1 sib
    (row.left, row.right) :: climbPairs N leaf key siblings
  | _, _ => []

def updatePairs (N : PairHash H) (e : PersistentSMT H) (root : H) (key : List Bool) (leaf : Option H) :
    List (H × H) :=
  climbPairs N (leaf.getD N.empty0) key (descend N e root key).2.1

/-- The pairs hashed by a sequence of updates. -/
def updatesPairs (N : PairHash H) :
    PersistentSMT H → H → List (List Bool × Option H) → List (H × H)
  | _, _, [] => []
  | e, root, entry :: entries =>
    let t := update N e root entry.1 entry.2
    updatePairs N e root entry.1 entry.2 ++ updatesPairs N t.1 t.2 entries

/-! ### Reading -/

variable {N : PairHash H} {S : Set (H × H)} {e : PersistentSMT H}

/-- The store and the cache hold rows of the set under their own hashes. -/
structure Sound (N : PairHash H) (S : Set (H × H)) (e : PersistentSMT H) : Prop where
  store : HashedIn N S e.store
  cache : ∀ p ∈ e.nodeCache, N.nodeHash p.2.1 p.2.2 = p.1 ∧ p.2 ∈ S

@[simp] theorem cachePut_store (e : PersistentSMT H) (hash : H) (row : H × H) :
    (cachePut e hash row).store = e.store := by
  unfold cachePut
  split_ifs <;> rfl

section
variable (he : Sound N S e) {hash : H} {row : H × H}
include he hash

theorem Sound.cachePut
    (hrow : N.nodeHash row.1 row.2 = hash ∧ row ∈ S) : Sound N S (cachePut e hash row) := by
  refine ⟨by rw [cachePut_store]; exact he.store, ?_⟩
  unfold Engine.cachePut
  split_ifs with hskip hfull
  · exact he.cache
  · intro p hp
    rcases mem_append.mp hp with hp | hp
    · exact he.cache p (mem_of_mem_drop hp)
    · rw [mem_singleton.mp hp]
      exact hrow
  · intro p hp
    rcases mem_append.mp hp with hp | hp
    · exact he.cache p hp
    · rw [mem_singleton.mp hp]
      exact hrow

theorem Sound.cacheGet (h : cacheGet e hash = some row) : N.nodeHash row.1 row.2 = hash ∧ row ∈ S := by
  unfold Engine.cacheGet at h
  split_ifs at h
  exact he.cache _ (Lib.Assoc.mem_of_lookup h)

end

/-- What is read under a hash: a row of the hash, or nothing if the store has none. -/
def Read (N : PairHash H) (S : Set (H × H)) (st : Store H) (hash : H) : Option (H × H) → Prop
  | none => st hash = none
  | some row => N.nodeHash row.1 row.2 = hash ∧ row ∈ S

theorem readRow_spec (he : Sound N S e) (hash : H) :
    Sound N S (readRow e hash).1 ∧ (readRow e hash).1.store = e.store ∧
      Read N S e.store hash (readRow e hash).2 := by
  unfold readRow
  cases hcache : cacheGet e hash with
  | some row => exact ⟨he, rfl, he.cacheGet hcache⟩
  | none =>
    cases hstore : e.store hash with
    | none => exact ⟨he, rfl, hstore⟩
    | some row =>
      have hrow := he.store hash row hstore
      exact ⟨he.cachePut hrow, cachePut_store e hash row, hrow⟩

variable {f : Leaves H} {h : ℕ} {key : List Bool}

omit [DecidableEq H] in
theorem siblings_of_blank (hf : Blank N h f) (hkey : key.length = h) :
    siblings N f key = emptySiblings N h := by
  induction key generalizing f h with
  | nil =>
    subst hkey
    rfl
  | cons bit key ih =>
    subst hkey
    rw [siblings, (hf.half (!bit)).root_eq, ih (hf.half bit) rfl, length_cons, emptySiblings]

/-- **Descending.** The siblings and the leaf are those of the tree, whatever the cache holds. -/
theorem descend_spec (hfree : N.Free S) (hblanks : BlanksIn N S h) (he : Sound N S e)
    (hk : Kept N e.store h f) (hkey : key.length = h) :
    Sound N S (descend N e (root N h f) key).1 ∧ (descend N e (root N h f) key).1.store = e.store ∧
      (descend N e (root N h f) key).2 = (siblings N f key, f key) := by
  induction key generalizing e f h with
  | nil =>
    subst hkey
    exact ⟨he, rfl, rfl⟩
  | cons bit key ih =>
    subst hkey
    obtain ⟨he', hstore, hread⟩ := readRow_spec he (root N (key.length + 1) f)
    unfold descend
    generalize readRow e (root N (key.length + 1) f) = r at he' hstore hread ⊢
    obtain ⟨e', row⟩ := r
    cases row with
    | none =>
      -- no row, so the subtree is blank
      rcases hk with hblank | ⟨hrow, -, -⟩
      · exact ⟨he', hstore, by rw [siblings_of_blank hblank rfl, hblank _ rfl]⟩
      · exact absurd (hrow.symm.trans hread) (by simp)
    | some row =>
      obtain rfl := hk.row_eq hfree he.store hblanks hread.2 hread.1
      have hchild : ∀ b, child b (root N key.length (half false f), root N key.length (half true f)) =
          root N key.length (half b f) := by
        intro b
        cases b <;> rfl
      dsimp only
      rw [hchild, hchild]
      have hk' : Kept N e'.store key.length (half bit f) := by
        rw [hstore]
        exact hk.half bit
      obtain ⟨hsound, hstore', hrest⟩ := ih hblanks.of_succ he' hk' rfl
      refine ⟨hsound, hstore'.trans hstore, ?_⟩
      obtain ⟨hsiblings, hleaf⟩ := Prod.ext_iff.mp hrest
      exact Prod.ext (congrArg (root N key.length (half (!bit) f) :: ·) hsiblings) hleaf

/-! ### Writing -/

/-- **Climbing.** From a new leaf the climb ends in the root of the tree with that leaf. -/
theorem climb_siblings (N : PairHash H) (f : Leaves H) (key : List Bool) (v : H) :
    (climb N v key (siblings N f key)).1 = root N key.length (withLeaf f key v) := by
  induction key generalizing f with
  | nil => simp [climb, root, withLeaf]
  | cons bit key ih =>
    rw [siblings, climb_cons, ih, length_cons, root_succ_eq N key.length _ bit, half_withLeaf_self]
    cases bit <;> rfl

theorem rowsIn_climb {leaf : H} {sibs : List H} (hpairs : ∀ p ∈ climbPairs N leaf key sibs, p ∈ S) :
    RowsIn N S (climb N leaf key sibs).2 := by
  induction key generalizing sibs with
  | nil => simp [climb, RowsIn]
  | cons bit key ih =>
    cases sibs with
    | nil => simp [climb, RowsIn]
    | cons sib sibs =>
      have hrest := ih fun p hp => hpairs p (mem_cons_of_mem _ hp)
      rw [climb_cons]
      split_ifs
      · exact hrest
      · intro row hrow
        rcases mem_append.mp hrow with hrow | hrow
        · exact hrest row hrow
        · rw [mem_singleton.mp hrow]
          exact ⟨rfl, hpairs _ mem_cons_self⟩

variable {st : Store H}

/-- The store keeps the tree above the new leaf once it has the rows of the climb. -/
theorem kept_climb (hfree : N.Free S) (hst : HashedIn N S st)
    (hblanks : BlanksIn N S key.length) (hk : Kept N st key.length f) {v : H}
    (hpairs : ∀ p ∈ climbPairs N v key (siblings N f key), p ∈ S)
    (hrows : ∀ row ∈ (climb N v key (siblings N f key)).2, st row.hash = some (row.left, row.right))
    : Kept N st key.length (withLeaf f key v) := by
  induction key generalizing f with
  | nil => trivial
  | cons bit key ih =>
    have hself : Kept N st key.length (half bit (withLeaf f (bit :: key) v)) := by
      rw [half_withLeaf_self]
      exact ih hblanks.of_succ (hk.half bit) (fun p hp => hpairs p (mem_cons_of_mem _ hp))
        (Smt.pending_climb hrows)
    have hother : Kept N st key.length (half (!bit) (withLeaf f (bit :: key) v)) := by
      rw [half_withLeaf_not]
      exact hk.half (!bit)
    have hboth : ∀ b, Kept N st key.length (half b (withLeaf f (bit :: key) v)) := by
      intro b
      cases bit <;> cases b <;> assumption
    -- the row of the node, with its children written as roots
    have hrow : ∀ b, b = bit → parentRow N b (climb N v key (siblings N (half b f) key)).1
        (root N key.length (half (!b) f)) = ⟨root N (key.length + 1) (withLeaf f (bit :: key) v),
          root N key.length (half false (withLeaf f (bit :: key) v)),
          root N key.length (half true (withLeaf f (bit :: key) v))⟩ := by
      rintro b rfl
      rw [climb_siblings, ← half_withLeaf_self]
      cases b <;> rfl
    have hpair := hpairs _ mem_cons_self
    rw [hrow bit rfl] at hpair
    refine kept_succ hfree hst hblanks hboth hpair fun hne => ?_
    refine hrows ⟨_, _, _⟩ ?_
    rw [siblings, climb_cons, hrow bit rfl]
    rw [if_neg hne]
    exact mem_append_right _ (mem_singleton_self _)

theorem Sound.putBatch (he : Sound N S e) (hnodes : RowsIn N S nodes) : Sound N S (putBatch e nodes) := by
  have hstore : Sound N S { e with store := writeRows e.writes e.store nodes } := by
    refine ⟨?_, he.cache⟩
    rw [writeRows_eq]
    exact he.store.putMany hnodes
  unfold Engine.putBatch
  generalize ({ e with store := writeRows e.writes e.store nodes } : PersistentSMT H) = e' at hstore ⊢
  induction nodes generalizing e' with
  | nil => exact hstore
  | cons n nodes ih =>
    exact ih (fun r hr => hnodes r (mem_cons_of_mem _ hr)) _ (hstore.cachePut (hnodes n mem_cons_self))

theorem foldl_cachePut_store (nodes : List (NodeRow H)) (e : PersistentSMT H) :
    (nodes.foldl (fun e n => cachePut e n.hash (n.left, n.right)) e).store = e.store := by
  induction nodes generalizing e with
  | nil => rfl
  | cons n nodes ih => rw [foldl_cons, ih, cachePut_store]

theorem putBatch_store (e : PersistentSMT H) (nodes : List (NodeRow H)) :
    (putBatch e nodes).store = putMany e.store nodes := by
  unfold putBatch
  rw [foldl_cachePut_store, writeRows_eq]

/-- The engine holds the tree of the leaves under the root. -/
structure Holds (N : PairHash H) (S : Set (H × H)) (h : ℕ) (f : Leaves H) (t : PersistentSMT H × H) :
    Prop where
  sound : Sound N S t.1
  kept : Kept N t.1.store h f
  root_eq : t.2 = root N h f

variable {t : PersistentSMT H × H}

/-- **An update.** The engine then holds the tree with the new leaf, or without the deleted one. -/
theorem update_spec (hfree : N.Free S) (hblanks : BlanksIn N S h) (ht : Holds N S h f t)
    (hkey : key.length = h) {leaf : Option H} (hpairs : ∀ p ∈ updatePairs N t.1 t.2 key leaf, p ∈ S)
    : Holds N S h (withLeaf f key (leaf.getD N.empty0)) (update N t.1 t.2 key leaf) := by
  obtain ⟨e, r⟩ := t
  obtain ⟨he, hk, hr⟩ := ht
  subst hr hkey
  obtain ⟨he', hstore, hdescend⟩ := descend_spec hfree hblanks he hk rfl
  unfold updatePairs at hpairs
  unfold update
  generalize descend N e (root N key.length f) key = d at he' hstore hdescend hpairs ⊢
  obtain ⟨e', sibs, oldLeaf⟩ := d
  obtain ⟨rfl, -⟩ := Prod.mk.inj hdescend
  dsimp only at he' hstore hpairs ⊢
  have hrows := rowsIn_climb hpairs
  rw [← hstore] at hk
  split_ifs with hnil
  · exact ⟨he', kept_climb hfree he'.store hblanks hk hpairs (by simp [hnil]), climb_siblings N f key _⟩
  · have hsound := he'.putBatch hrows
    refine ⟨hsound, ?_, climb_siblings N f key _⟩
    refine kept_climb hfree hsound.store hblanks ?_ hpairs ?_
    · rw [putBatch_store]
      exact hk.mono (includes_putMany _ _)
    · intro row hrow
      rw [putBatch_store]
      exact he'.store.putMany_of_mem hfree hrows hrow

/-- The leaves after a sequence of updates. -/
def withLeaves (N : PairHash H) (f : Leaves H) (entries : List (List Bool × Option H)) : Leaves H :=
  entries.foldl (fun f entry => withLeaf f entry.1 (entry.2.getD N.empty0)) f

section
variable (hfree : N.Free S) (hblanks : BlanksIn N S h) (ht : Holds N S h f t)
include hfree hblanks ht

/-- **A sequence of updates.** -/
theorem updates_spec {entries : List (List Bool × Option H)} (hkeys : ∀ entry ∈ entries, entry.1.length = h)
    (hpairs : ∀ p ∈ updatesPairs N t.1 t.2 entries, p ∈ S) :
    Holds N S h (withLeaves N f entries) (updates N t.1 t.2 entries) := by
  induction entries generalizing f t with
  | nil => exact ht
  | cons entry entries ih =>
    rw [forall_mem_cons] at hkeys
    have hstep := update_spec hfree hblanks ht hkeys.1 fun p hp =>
      hpairs p (mem_append_left _ hp)
    exact ih hstep hkeys.2 fun p hp => hpairs p (mem_append_right _ hp)

theorem prove_spec (hkey : key.length = h) :
    prove N t.1 t.2 key = (if f key = N.empty0 then none else some (f key), siblings N f key) := by
  have hdescend := (descend_spec hfree hblanks ht.sound ht.kept hkey).2.2
  rw [← ht.root_eq] at hdescend
  unfold prove
  generalize descend N t.1 t.2 key = d at hdescend ⊢
  obtain ⟨e', sibs, oldLeaf⟩ := d
  obtain ⟨⟩ := hdescend
  rfl

end

/-! ### Without a cache -/

/-- An engine without a cache over the rows. -/
def bare (st : Store H) : PersistentSMT H := ⟨st, .memory, 0, []⟩

@[simp] theorem cachePut_bare (st : Store H) (hash : H) (row : H × H) :
    cachePut (bare st) hash row = bare st := if_pos (Or.inl rfl)

theorem descend_bare (N : PairHash H) (st : Store H) (cur : H) (key : List Bool) :
    descend N (bare st) cur key = (bare st, Smt.descend N st cur key) := by
  induction key generalizing cur with
  | nil => rfl
  | cons bit key ih =>
    have hread : readRow (bare st) cur = (bare st, st cur) := by
      unfold readRow
      cases hst : (bare st).store cur with
      | none => exact congrArg (Prod.mk (bare st)) hst.symm
      | some row =>
        exact congrArg (Prod.mk (bare st)) hst.symm
    unfold descend Smt.descend
    rw [hread]
    cases st cur with
    | none => rfl
    | some row =>
      dsimp only
      rw [ih]

theorem putBatch_bare (st : Store H) (nodes : List (NodeRow H)) :
    putBatch (bare st) nodes = bare (putMany st nodes) := by
  have hfold : ∀ (rest : List (NodeRow H)) (st : Store H),
      rest.foldl (fun e n => cachePut e n.hash (n.left, n.right)) (bare st) = bare st := by
    intro rest
    induction rest with
    | nil => exact fun st => rfl
    | cons n rest ih =>
      intro st
      rw [foldl_cons, cachePut_bare, ih]
  exact hfold nodes (putMany st nodes)

theorem update_bare (N : PairHash H) (st : Store H) (root : H) (key : List Bool) (leaf : Option H) :
    update N (bare st) root key leaf =
      (bare (Smt.update N st root key leaf).1, (Smt.update N st root key leaf).2) := by
  unfold update Smt.update
  rw [descend_bare]
  dsimp only
  split_ifs with hnil
  · rw [hnil]
    rfl
  · rw [putBatch_bare]

/-- A store that keeps the tree of the leaves under a root. -/
structure Tree (N : PairHash H) (h : ℕ) (f : Leaves H) (t : Store H × H) : Prop where
  hashed : Hashed N t.1
  kept : Kept N t.1 h f
  root_eq : t.2 = root N h f

omit [DecidableEq H] in
theorem tree_blank (hst : Hashed N st) (h : ℕ) : Tree N h (fun _ => N.empty0) (st, N.empty h) := by
  have hblank : Blank N h fun _ => N.empty0 := fun _ _ => rfl
  exact ⟨hst, hblank.kept _, hblank.root_eq.symm⟩

/-- **An update**, for a hash without collisions. -/
theorem Tree.update {N : NodeHash H} {t : Store H × H} (ht : Tree N h f t) (hkey : key.length = h)
    (leaf : Option H) : Tree N h (withLeaf f key (leaf.getD N.empty0)) (Smt.update N t.1 t.2 key leaf) := by
  have hholds : Holds N.toPairHash Set.univ h f (bare t.1, t.2) :=
    ⟨⟨hashedIn_univ.mpr ht.hashed, fun p hp => absurd hp (not_mem_nil)⟩, ht.kept, ht.root_eq⟩
  have hend : Holds N.toPairHash Set.univ h (withLeaf f key (leaf.getD N.empty0))
      (Engine.update N (bare t.1) t.2 key leaf) :=
    update_spec N.free (fun _ _ => Set.mem_univ _) hholds hkey fun p _ => Set.mem_univ p
  rw [update_bare] at hend
  exact ⟨hashedIn_univ.mp hend.sound.store, hend.kept, hend.root_eq⟩

end XChainIndexer.StateTree.Engine
