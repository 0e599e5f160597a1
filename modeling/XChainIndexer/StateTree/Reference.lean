import XChainIndexer.SnapshotProof.Encoding
import XChainIndexer.StateTree.Engine

/-! # The reference tree

`SparseMerkleTree` of `consensus/merkle.js` is a map from keys to leaves whose root is computed from all
its entries. The persistent tree has to return the same roots, whatever the stores held before, whatever
the caches hold and however the rows are written (`persistent_root`), and the root tells maps apart
(`root_binds_map`). The assumption is that no two of the strings hashed collide. -/

namespace XChainIndexer.StateTree.Reference

open Lib.MerklePath Lib.Keyed Lib.NodeStore List
open Lib.SparseTree (Leaves half withLeaf half_withLeaf_self half_withLeaf_not BlanksIn)
open SnapshotProof.Encoding StateTree.Engine

variable {Hs : Hash}

/-- A digest, or another byte string of that length: a key, a leaf, a node. -/
abbrev Digest (Hs : Hash) := { b : Bytes // b.length = Hs.size }

/-- `SMT_DEPTH`. -/
def depth (Hs : Hash) : ℕ := 8 * Hs.size

def path (key : Digest Hs) : List Bool := bits key.1

/-- `nodeHash` and `EMPTY[0]`. -/
def nodes (Hs : Hash) : PairHash (Digest Hs) where
  nodeHash left right := ⟨nodeHash Hs left.1 right.1, length_nodeHash Hs left.1 right.1⟩
  empty0 := ⟨Hs.digest emptyInput, Hs.length_digest emptyInput⟩

theorem length_path (key : Digest Hs) : (path key).length = depth Hs := by
  rw [path, length_bits, key.2, depth]

theorem path_inj {key key' : Digest Hs} (h : path key = path key') : key = key' :=
  Subtype.ext (bits_inj h)

/-! ### The reference -/

/-- The map of a tree, in the order in which its keys were first set. -/
structure SparseMerkleTree (Hs : Hash) where
  leaves : List (Digest Hs × Digest Hs)
  nodup : (leaves.map Prod.fst).Nodup

def SparseMerkleTree.new (Hs : Hash) : SparseMerkleTree Hs := ⟨[], List.nodup_nil⟩

namespace SparseMerkleTree

def get (t : SparseMerkleTree Hs) (key : Digest Hs) : Option (Digest Hs) := t.leaves.lookup key

def set (t : SparseMerkleTree Hs) (key : Digest Hs) : Option (Digest Hs) → SparseMerkleTree Hs
  | none => ⟨t.leaves.filter fun l => l.1 ≠ key, (List.filter_sublist.map Prod.fst).nodup t.nodup⟩
  | some leaf => ⟨accumulate (fun _ new => new) t.leaves key leaf, nodup_accumulate t.nodup key leaf⟩

def entries (t : SparseMerkleTree Hs) : List Entry := t.leaves.map fun l => (path l.1, l.2.1)

def root (t : SparseMerkleTree Hs) : Bytes := smtNode Hs emptyInput (depth Hs) t.entries

end SparseMerkleTree

def setAll (t : SparseMerkleTree Hs) (updates : List (Digest Hs × Option (Digest Hs))) :
    SparseMerkleTree Hs :=
  updates.foldl (fun t u => t.set u.1 u.2) t

/-! ### The reference as a tree of leaves -/

def leavesOf (Hs : Hash) (es : List Entry) : Leaves Bytes := fun key =>
  (es.lookup key).getD (Hs.digest emptyInput)

/-- The hash of `nodes` on byte strings of any length. -/
def byteNodes (Hs : Hash) : PairHash Bytes := ⟨nodeHash Hs, Hs.digest emptyInput⟩

theorem lookup_side (b : Bool) (es : List Entry) (key : List Bool) :
    (side b es).lookup key = es.lookup (b :: key) := by
  induction es with
  | nil => rfl
  | cons x es ih =>
    obtain ⟨k, v⟩ := x
    cases k with
    | nil => simpa [side, lookup_cons] using ih
    | cons b' k =>
      by_cases hb : b' = b
      · have hcons : side b ((b' :: k, v) :: es) = (k, v) :: side b es := by simp [side, hb]
        rw [hcons, hb]
        by_cases hkey : key = k
        · rw [hkey, lookup_cons_self, lookup_cons_self]
        · rw [lookup_cons_ne hkey, lookup_cons_ne (by simpa using hkey), ih]
      · have hcons : side b ((b' :: k, v) :: es) = side b es := by simp [side, hb]
        rw [hcons, lookup_cons_ne (by simp [Ne.symm hb]), ih]

variable {h : ℕ}

theorem smtNode_eq_root {es : List Entry} (hes : ∀ x ∈ es, x.1.length = h) :
    smtNode Hs emptyInput h es = Lib.SparseTree.root (byteNodes Hs) h (leavesOf Hs es) := by
  induction h generalizing es with
  | zero =>
    cases es with
    | nil => rfl
    | cons x es =>
      have hx : x.1 = [] := length_eq_zero_iff.mp (hes x mem_cons_self)
      obtain ⟨k, v⟩ := x
      subst hx
      simp [smtNode, Lib.SparseTree.root, leavesOf]
  | succ h ih =>
    have hside : ∀ b, ∀ x ∈ side b es, x.1.length = h := fun b x hx =>
      Nat.succ.inj (hes (b :: x.1, x.2) (mem_side.mp hx))
    have hhalf : ∀ b, half b (leavesOf Hs es) = leavesOf Hs (side b es) := by
      intro b
      funext key
      rw [half, leavesOf, leavesOf, lookup_side]
    rw [smtNode_succ, ih (hside false), ih (hside true), ← hhalf, ← hhalf]
    rfl

theorem coe_root (Hs : Hash) (h : ℕ) (f : Leaves (Digest Hs)) :
    (Lib.SparseTree.root (nodes Hs) h f).1 = Lib.SparseTree.root (byteNodes Hs) h fun key => (f key).1 := by
  induction h generalizing f with
  | zero => rfl
  | succ h ih =>
    show nodeHash Hs _ _ = nodeHash Hs _ _
    rw [ih, ih]
    rfl

namespace SparseMerkleTree

variable {t : SparseMerkleTree Hs}

/-- The leaves of the tree by their paths. -/
def leaf (t : SparseMerkleTree Hs) : Leaves (Digest Hs) := fun p =>
  ((t.leaves.map fun l => (path l.1, l.2)).lookup p).getD (nodes Hs).empty0

theorem path_injective : Function.Injective (@path Hs) := fun _ _ h => path_inj h

section
variable (t : SparseMerkleTree Hs) (key : Digest Hs)

theorem leaf_path : t.leaf (path key) = (t.get key).getD (nodes Hs).empty0 := by
  rw [leaf, lookup_map_key path_injective, get]

theorem leaf_set (v : Option (Digest Hs)) :
    (t.set key v).leaf = withLeaf t.leaf (path key) (v.getD (nodes Hs).empty0) := by
  funext p
  rw [withLeaf, Function.update_apply]
  cases v with
  | none =>
    have hmap : ((t.set key none).leaves.map fun l => (path l.1, l.2)) =
        (t.leaves.map fun l => (path l.1, l.2)).filter fun r => r.1 ≠ path key := by
      rw [filter_map]
      congr 1
      refine filter_congr fun l _ => ?_
      simp [path_injective.eq_iff]
    rw [leaf, hmap, lookup_filter_ne]
    split_ifs <;> rfl
  | some v =>
    rw [leaf, set, map_accumulate path_injective, lookup_accumulate]
    split_ifs <;> rfl

theorem get_set (v : Option (Digest Hs)) (key' : Digest Hs) :
    (t.set key v).get key' = if key' = key then v else t.get key' := by
  cases v with
  | none => exact lookup_filter_ne t.leaves key key'
  | some v => exact lookup_accumulate t.leaves key v key'

end

theorem leaf_congr {t' : SparseMerkleTree Hs} (h : ∀ key, t.get key = t'.get key) : t.leaf = t'.leaf := by
  have hpath : ∀ t : SparseMerkleTree Hs, ∀ p, (∃ key : Digest Hs, path key = p) ∨
      (t.leaves.map fun l => (path l.1, l.2)).lookup p = none := by
    intro t p
    cases hp : (t.leaves.map fun l => (path l.1, l.2)).lookup p with
    | none => exact .inr rfl
    | some v =>
      obtain ⟨l, -, hl⟩ := mem_map.mp (Lib.Assoc.mem_of_lookup hp)
      exact .inl ⟨l.1, congrArg Prod.fst hl⟩
  funext p
  rcases hpath t p with ⟨key, rfl⟩ | hnone
  · rw [leaf_path, leaf_path, h]
  · rcases hpath t' p with ⟨key, rfl⟩ | hnone'
    · rw [leaf_path, leaf_path, h]
    · rw [leaf, leaf, hnone, hnone']

theorem length_entries {x : Entry} (hx : x ∈ t.entries) : x.1.length = depth Hs := by
  obtain ⟨l, -, rfl⟩ := mem_map.mp hx
  exact length_path l.1

theorem leavesOf_entries (t : SparseMerkleTree Hs) (p : List Bool) :
    leavesOf Hs t.entries p = (t.leaf p).1 := by
  have hentries : t.entries = (t.leaves.map fun l => (path l.1, l.2)).map fun r => (r.1, r.2.1) := by
    rw [map_map]
    rfl
  rw [leavesOf, hentries, leaf]
  induction t.leaves.map fun l => (path l.1, l.2) with
  | nil => rfl
  | cons r l ih =>
    obtain ⟨k, v⟩ := r
    rw [map_cons]
    by_cases hp : p = k
    · rw [hp, lookup_cons_self, lookup_cons_self]
      rfl
    · rw [lookup_cons_ne hp, lookup_cons_ne hp, ih]

theorem root_eq (t : SparseMerkleTree Hs) :
    t.root = (Lib.SparseTree.root (nodes Hs) (depth Hs) t.leaf).1 := by
  rw [root, smtNode_eq_root fun x hx => length_entries hx, coe_root]
  congr 1
  funext p
  exact leavesOf_entries t p

end SparseMerkleTree

/-! ### Runs of batches -/

/-- A batch of updates and the engine that makes it: how it writes, and what it has cached. -/
structure Batch (Hs : Hash) where
  writes : Writes
  nodeCacheMax : ℕ
  nodeCache : List (Digest Hs × (Digest Hs × Digest Hs))
  entries : List (Digest Hs × Option (Digest Hs))

def Batch.engine (b : Batch Hs) (st : Store (Digest Hs)) : PersistentSMT (Digest Hs) :=
  ⟨st, b.writes, b.nodeCacheMax, b.nodeCache⟩

def toPaths (entries : List (Digest Hs × Option (Digest Hs))) :
    List (List Bool × Option (Digest Hs)) :=
  entries.map fun u => (path u.1, u.2)

/-- One batch, on the rows of a store and a root. -/
def runBatch (t : Store (Digest Hs) × Digest Hs) (b : Batch Hs) : Store (Digest Hs) × Digest Hs :=
  let t' := updates (nodes Hs) (b.engine t.1) t.2 (toPaths b.entries)
  (t'.1.store, t'.2)

def runBatches (t : Store (Digest Hs) × Digest Hs) (bs : List (Batch Hs)) :
    Store (Digest Hs) × Digest Hs :=
  bs.foldl runBatch t

/-- The pairs that are hashed by a run. -/
def runPairs : Store (Digest Hs) × Digest Hs → List (Batch Hs) → List (Digest Hs × Digest Hs)
  | _, [] => []
  | t, b :: bs =>
    updatesPairs (nodes Hs) (b.engine t.1) t.2 (toPaths b.entries) ++ runPairs (runBatch t b) bs

/-- `EMPTY_SMT_ROOT`. -/
def emptyRoot (Hs : Hash) : Digest Hs := (nodes Hs).empty (depth Hs)

def allEntries (bs : List (Batch Hs)) : List (Digest Hs × Option (Digest Hs)) := bs.flatMap Batch.entries

/-- The pairs whose concatenation is in the set. -/
def pairsIn (S : Set Bytes) : Set (Digest Hs × Digest Hs) := { p | nodeInput p.1.1 p.2.1 ∈ S }

/-- **No collisions.** `S` holds what is hashed for the constants, for the rows in the store and the caches
and by the run, and no two strings of `S` have one digest. -/
structure CollisionFree (S : Set Bytes) (st : Store (Digest Hs)) (bs : List (Batch Hs)) : Prop where
  inj : Set.InjOn Hs.digest S
  blanks : ∀ x ∈ emptyInputs Hs emptyInput (depth Hs), x ∈ S
  store : HashedIn (nodes Hs) (pairsIn S) st
  caches : ∀ b ∈ bs, ∀ p ∈ b.nodeCache, (nodes Hs).nodeHash p.2.1 p.2.2 = p.1 ∧ p.2 ∈ pairsIn S
  inputs : ∀ p ∈ runPairs (st, emptyRoot Hs) bs, p ∈ pairsIn S

variable {S : Set Bytes}

theorem emptyInput_mem (hS : ∀ x ∈ emptyInputs Hs emptyInput h, x ∈ S) : emptyInput ∈ S := by
  induction h with
  | zero => exact hS _ (mem_singleton_self _)
  | succ h ih => exact ih fun x hx => hS x (mem_cons_of_mem _ hx)

theorem coe_empty (Hs : Hash) (h : ℕ) : ((nodes Hs).empty h).1 = empty Hs emptyInput h := by
  induction h with
  | zero => rfl
  | succ h ih =>
    show nodeHash Hs _ _ = nodeHash Hs _ _
    rw [ih]

theorem blanksIn_of_inputs (hS : ∀ x ∈ emptyInputs Hs emptyInput h, x ∈ S) :
    BlanksIn (nodes Hs) (pairsIn S) h := by
  induction h with
  | zero => exact fun i hi => absurd hi (Nat.not_lt_zero i)
  | succ h ih =>
    intro i hi
    rcases Nat.lt_succ_iff_lt_or_eq.mp hi with hi | rfl
    · exact ih (fun x hx => hS x (mem_cons_of_mem _ hx)) i hi
    · show nodeInput _ _ ∈ S
      rw [coe_empty]
      exact hS _ mem_cons_self

/-- The strings hashed for two nodes differ when their children do, and none is that of an absent leaf. -/
theorem free_of_injOn (hinj : Set.InjOn Hs.digest S) (hempty : emptyInput ∈ S) :
    (nodes Hs).Free (pairsIn S) where
  inj p hp q hq h := by
    have hlen : p.1.1.length = q.1.1.length := p.1.2.trans q.1.2.symm
    obtain ⟨hl, hr⟩ := nodeHash_inj_left hinj hp hq hlen (congrArg Subtype.val h)
    exact Prod.ext (Subtype.ext hl) (Subtype.ext hr)
  empty0_ne p hp h := by
    have hinput : nodeInput p.1.1 p.2.1 = emptyInput := hinj hp hempty (congrArg Subtype.val h)
    have hhead : (1 : UInt8) = 2 := (List.cons.inj hinput).1
    exact absurd hhead (by decide)

/-- The store keeps the tree of the map under the root. -/
structure Keeps (S : Set Bytes) (m : SparseMerkleTree Hs) (t : Store (Digest Hs) × Digest Hs) : Prop where
  store : HashedIn (nodes Hs) (pairsIn S) t.1
  kept : Lib.SparseTree.Kept (nodes Hs) t.1 (depth Hs) m.leaf
  root_eq : t.2 = Lib.SparseTree.root (nodes Hs) (depth Hs) m.leaf

variable {b : Batch Hs}

theorem Keeps.holds {m : SparseMerkleTree Hs} {t : Store (Digest Hs) × Digest Hs} (ht : Keeps S m t)
    (hcache : ∀ p ∈ b.nodeCache, (nodes Hs).nodeHash p.2.1 p.2.2 = p.1 ∧ p.2 ∈ pairsIn S) :
    Holds (nodes Hs) (pairsIn S) (depth Hs) m.leaf (b.engine t.1, t.2) :=
  ⟨⟨ht.store, hcache⟩, ht.kept, ht.root_eq⟩

theorem withLeaves_toPaths (m : SparseMerkleTree Hs) (entries : List (Digest Hs × Option (Digest Hs))) :
    withLeaves (nodes Hs) m.leaf (toPaths entries) = (setAll m entries).leaf := by
  induction entries generalizing m with
  | nil => rfl
  | cons u entries ih =>
    have hset : (setAll m (u :: entries)).leaf = (setAll (m.set u.1 u.2) entries).leaf := rfl
    rw [hset, ← ih, SparseMerkleTree.leaf_set]
    rfl

section run
variable {S : Set Bytes} (hinj : Set.InjOn Hs.digest S)
  (hblanks : ∀ x ∈ emptyInputs Hs emptyInput (depth Hs), x ∈ S)
include hinj hblanks

section
variable {m : SparseMerkleTree Hs} {t : Store (Digest Hs) × Digest Hs} (ht : Keeps S m t)
include ht

/-- **One batch** keeps the tree of the map with its updates. -/
theorem Keeps.runBatch (hcache : ∀ p ∈ b.nodeCache, (nodes Hs).nodeHash p.2.1 p.2.2 = p.1 ∧ p.2 ∈ pairsIn S)
    (hpairs : ∀ p ∈ updatesPairs (nodes Hs) (b.engine t.1) t.2 (toPaths b.entries), p ∈ pairsIn S) :
    Keeps S (setAll m b.entries) (runBatch t b) := by
  have hkeys : ∀ entry ∈ toPaths b.entries, entry.1.length = depth Hs := by
    intro entry hentry
    obtain ⟨u, -, rfl⟩ := mem_map.mp hentry
    exact length_path u.1
  have hend := updates_spec (free_of_injOn hinj (emptyInput_mem hblanks)) (blanksIn_of_inputs hblanks)
    (ht.holds hcache) hkeys hpairs
  rw [withLeaves_toPaths] at hend
  exact ⟨hend.sound.store, hend.kept, hend.root_eq⟩

/-- **A run** of batches. -/
theorem Keeps.runBatches {bs : List (Batch Hs)} (hcaches : ∀ b ∈ bs, ∀ p ∈ b.nodeCache,
      (nodes Hs).nodeHash p.2.1 p.2.2 = p.1 ∧ p.2 ∈ pairsIn S) (hpairs : ∀ p ∈ runPairs t bs, p ∈ pairsIn S) :
    Keeps S (setAll m (allEntries bs)) (runBatches t bs) := by
  induction bs generalizing m t with
  | nil => exact ht
  | cons b bs ih =>
    rw [forall_mem_cons] at hcaches
    have hstep := ht.runBatch hinj hblanks hcaches.1 fun p hp => hpairs p (mem_append_left _ hp)
    have hall : setAll m (allEntries (b :: bs)) = setAll (setAll m b.entries) (allEntries bs) := by
      rw [allEntries, flatMap_cons, setAll, foldl_append]
      rfl
    rw [hall]
    exact ih hstep hcaches.2 fun p hp => hpairs p (mem_append_right _ hp)

end

end run

def finalMap (bs : List (Batch Hs)) : SparseMerkleTree Hs :=
  setAll (SparseMerkleTree.new Hs) (allEntries bs)

variable {st : Store (Digest Hs)} {bs : List (Batch Hs)}

theorem keeps_of_run (h : CollisionFree S st bs) :
    Keeps S (finalMap bs) (runBatches (st, emptyRoot Hs) bs) := by
  have hblank : Lib.SparseTree.Blank (nodes Hs) (depth Hs) (SparseMerkleTree.new Hs).leaf :=
    fun _ _ => rfl
  have hstart : Keeps S (SparseMerkleTree.new Hs) (st, emptyRoot Hs) :=
    ⟨h.store, hblank.kept st, hblank.root_eq.symm⟩
  exact hstart.runBatches h.inj h.blanks h.caches h.inputs

theorem root_of_run (h : CollisionFree S st bs) :
    (runBatches (st, emptyRoot Hs) bs).2.1 = (finalMap bs).root := by
  rw [(keeps_of_run h).root_eq, SparseMerkleTree.root_eq]

/-! ### What the root depends on -/

theorem root_eq_of_get {S' : Set Bytes} {st' : Store (Digest Hs)} {bs' : List (Batch Hs)}
    (h : CollisionFree S st bs) (h' : CollisionFree S' st' bs')
    (hget : ∀ key, (finalMap bs').get key = (finalMap bs).get key) :
    (runBatches (st', emptyRoot Hs) bs').2 = (runBatches (st, emptyRoot Hs) bs).2 := by
  rw [(keeps_of_run h).root_eq, (keeps_of_run h').root_eq, SparseMerkleTree.leaf_congr hget]

theorem get_setAll {l : List (Digest Hs × Digest Hs)} (hl : (l.map Prod.fst).Nodup)
    (m : SparseMerkleTree Hs) (key : Digest Hs) :
    (setAll m (l.map fun p => (p.1, some p.2))).get key = (l.lookup key).or (m.get key) := by
  induction l generalizing m with
  | nil => rfl
  | cons p l ih =>
    obtain ⟨k, v⟩ := p
    rw [map_cons, nodup_cons] at hl
    have hstep : (setAll m (((k, v) :: l).map fun p => (p.1, some p.2))).get key =
        (setAll (m.set k (some v)) (l.map fun p => (p.1, some p.2))).get key := rfl
    rw [hstep, ih hl.2, SparseMerkleTree.get_set]
    by_cases hk : key = k
    · have hnone : l.lookup k = none := by
        cases hlookup : l.lookup k with
        | none => rfl
        | some w => exact absurd (mem_map.mpr ⟨_, Lib.Assoc.mem_of_lookup hlookup, rfl⟩) hl.1
      rw [hk, hnone, lookup_cons_self, if_pos rfl]
      rfl
    · rw [if_neg hk, lookup_cons_ne hk]

/-- `buildFull` as a batch. -/
def fullBatch (e : PersistentSMT (Digest Hs)) (entries : List (Digest Hs × Digest Hs)) : Batch Hs :=
  ⟨e.writes, e.nodeCacheMax, e.nodeCache, entries.map fun p => (p.1, some p.2)⟩

/-- **The persistent tree returns the roots of the reference.** For every sequence of batches of updates,
from the empty root, over every store and with every cache of rows that were hashed: the root is that of
the reference with the same updates. So it is one root for all runs that leave the same map; a key that was
absent leaves the root as it was when it is set and deleted; and a full build of the map, in any order,
gives that root. -/
theorem persistent_root {S : Set Bytes} {st : Store (Digest Hs)} {bs : List (Batch Hs)}
    (h : CollisionFree S st bs) :
    (runBatches (st, emptyRoot Hs) bs).2.1 = (finalMap bs).root ∧
    (∀ S' st' bs', CollisionFree S' st' bs' →
      (∀ key, (finalMap bs').get key = (finalMap bs).get key) →
      (runBatches (st', emptyRoot Hs) bs').2 = (runBatches (st, emptyRoot Hs) bs).2) ∧
    (∀ S' key v, ∀ insert delete : Batch Hs, insert.entries = [(key, some v)] →
      delete.entries = [(key, none)] → (finalMap bs).get key = none →
      CollisionFree S' st (bs ++ [insert, delete]) →
      (runBatches (st, emptyRoot Hs) (bs ++ [insert, delete])).2 =
        (runBatches (st, emptyRoot Hs) bs).2) ∧
    (∀ S' e entries, entries.Perm (finalMap bs).leaves →
      CollisionFree S' e.store [fullBatch e entries] →
      (buildFull (nodes Hs) (depth Hs) e (entries.map fun p => (path p.1, p.2))).2 =
        (runBatches (st, emptyRoot Hs) bs).2) := by
  refine ⟨root_of_run h, fun S' st' bs' h' hget => root_eq_of_get h h' hget, ?_, ?_⟩
  · intro S' key v insert delete hinsert hdelete habsent h'
    refine root_eq_of_get h h' fun key' => ?_
    have hmap : finalMap (bs ++ [insert, delete]) = ((finalMap bs).set key (some v)).set key none := by
      simp [finalMap, allEntries, setAll, hinsert, hdelete]
    rw [hmap, SparseMerkleTree.get_set, SparseMerkleTree.get_set]
    split_ifs with hkey
    · rw [hkey, habsent]
    · rfl
  · intro S' e entries hperm h'
    have hpaths : toPaths (fullBatch e entries).entries =
        (entries.map fun p => (path p.1, p.2)).map fun entry => (entry.1, some entry.2) := by
      rw [toPaths, fullBatch, map_map, map_map]
      rfl
    have hbatch : (buildFull (nodes Hs) (depth Hs) e (entries.map fun p => (path p.1, p.2))).2 =
        (updates (nodes Hs) e (emptyRoot Hs) (toPaths (fullBatch e entries).entries)).2 := by
      rw [hpaths]
      rfl
    refine hbatch.trans (root_eq_of_get h h' fun key => ?_)
    have hnd : (entries.map Prod.fst).Nodup := (hperm.map Prod.fst).nodup_iff.mpr (finalMap bs).nodup
    have hmap : finalMap [fullBatch e entries] =
        setAll (SparseMerkleTree.new Hs) (entries.map fun p => (p.1, some p.2)) := by
      simp [finalMap, allEntries, fullBatch]
    rw [hmap, get_setAll hnd, lookup_eq_of_perm hperm hnd]
    exact Option.or_none

/-- **The root binds the map.** Two runs that end in one root, whatever their stores, caches and batches,
have the same leaf under every key, an absent leaf being that of `EMPTY[0]`. -/
theorem root_binds_map {S : Set Bytes} {st st' : Store (Digest Hs)} {bs bs' : List (Batch Hs)}
    (h : CollisionFree S st bs) (h' : CollisionFree S st' bs')
    (heq : (runBatches (st, emptyRoot Hs) bs).2 = (runBatches (st', emptyRoot Hs) bs').2) (key : Digest Hs) :
    ((finalMap bs).get key).getD (nodes Hs).empty0 = ((finalMap bs').get key).getD (nodes Hs).empty0 := by
  have hkept := keeps_of_run h
  have hkept' := keeps_of_run h'
  rw [hkept.root_eq, hkept'.root_eq] at heq
  rw [← SparseMerkleTree.leaf_path, ← SparseMerkleTree.leaf_path]
  exact hkept.kept.leaf_eq (free_of_injOn h.inj (emptyInput_mem h.blanks)) hkept.store
    (blanksIn_of_inputs h.blanks) hkept'.store hkept'.kept heq (length_path key)

/-! ### A run -/

/-- A hash with digests of two bytes. -/
def wordHash : Hash where
  size := 2
  digest x :=
    let n := x.foldl (fun n b => (n * 263 + b.toNat + 1) % 65521) 7
    [UInt8.ofNat (n / 256), UInt8.ofNat (n % 256)]
  length_digest _ := rfl

def word (a b : UInt8) : Digest wordHash := ⟨[a, b], rfl⟩

/-- Two keys are set, with a cache of one row; then one is deleted, without a cache. -/
def twoBatches : List (Batch wordHash) :=
  [⟨.chunked, 1, [], [(word 1 2, some (word 9 9)), (word 1 3, some (word 8 8))]⟩,
    ⟨.single, 0, [], [(word 1 2, none)]⟩]

def twoInputs : List Bytes :=
  emptyInputs wordHash emptyInput (depth wordHash) ++
    (runPairs (fun _ => none, emptyRoot wordHash) twoBatches).map fun p => nodeInput p.1.1 p.2.1

theorem injOn_of_nodup {l : List Bytes} (h : (l.map Hs.digest).Nodup) : Set.InjOn Hs.digest { x | x ∈ l } :=
  fun _ hx _ hy he => inj_on_of_nodup_map h hx hy he

theorem collisionFree_twoBatches : CollisionFree { x | x ∈ twoInputs } (fun _ => none) twoBatches where
  inj := injOn_of_nodup (by decide +kernel)
  blanks x hx := mem_append_left _ hx
  store _ _ h := absurd h (by simp)
  caches := by simp [twoBatches]
  inputs p hp := mem_append_right _ (mem_map.mpr ⟨p, hp, rfl⟩)

theorem persistent_root_twoBatches :
    CollisionFree { x | x ∈ twoInputs } (fun _ => none) twoBatches ∧
      (runBatches (fun _ => none, emptyRoot wordHash) twoBatches).2.1 = (finalMap twoBatches).root :=
  ⟨collisionFree_twoBatches, (persistent_root collisionFree_twoBatches).1⟩

/-- The key that is left, set at once. -/
def oneBatch : List (Batch wordHash) := [⟨.single, 0, [], [(word 1 3, some (word 8 8))]⟩]

theorem collisionFree_oneBatch : CollisionFree { x | x ∈ twoInputs } (fun _ => none) oneBatch where
  __ := collisionFree_twoBatches
  caches := by simp [oneBatch]
  inputs := (by decide +kernel : ∀ p ∈ runPairs (fun _ => none, emptyRoot wordHash) oneBatch,
    nodeInput p.1.1 p.2.1 ∈ twoInputs)

theorem root_binds_map_oneBatch : (finalMap oneBatch).get (word 1 3) = some (word 8 8) ∧
    ((finalMap twoBatches).get (word 1 3)).getD (nodes wordHash).empty0 =
      ((finalMap oneBatch).get (word 1 3)).getD (nodes wordHash).empty0 :=
  ⟨by decide +kernel,
    root_binds_map collisionFree_twoBatches collisionFree_oneBatch (by decide +kernel) _⟩

end XChainIndexer.StateTree.Reference
