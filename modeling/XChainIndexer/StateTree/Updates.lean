import XChainIndexer.IndexTables
import XChainIndexer.StateTree.Engine

/-! # Sequences of updates

One update after another leaves a tree of the updated leaves (`tree_applyUpdates`). `Listed m f` says that
the leaves `f` are those of the list `m` and no others; `Listed.withLeaves` says which updates take the
leaves of one list to those of another. -/

namespace XChainIndexer.StateTree.Updates

open IndexTables (Text)
open Lib.NodeStore List
open Lib.SparseTree (Leaves withLeaf)
open StateTree.Engine (Tree withLeaves)

variable {H : Type}

section leaves
variable {N : PairHash H} {f g : Leaves H} {us : List (List Bool × Option H)}

theorem withLeaves_append (N : PairHash H) (f : Leaves H) (us vs : List (List Bool × Option H)) :
    withLeaves N f (us ++ vs) = withLeaves N (withLeaves N f us) vs := foldl_append

variable {p : List Bool}

theorem withLeaves_of_notMem (h : ∀ u ∈ us, u.1 ≠ p) : withLeaves N f us p = f p := by
  induction us generalizing f with
  | nil => rfl
  | cons u us ih =>
    rw [forall_mem_cons] at h
    have hstep : withLeaves N f (u :: us) p = withLeaves N (withLeaf f u.1 (u.2.getD N.empty0)) us p := rfl
    rw [hstep, ih h.2, withLeaf, Function.update_of_ne h.1.symm]

/-- The leaf under a key: what every update of the key sets, or what was there if none does. -/
theorem withLeaves_key {l : Option H} (h : ∀ u ∈ us, u.1 = p → u.2 = l)
    (hno : (∀ u ∈ us, u.1 ≠ p) → f p = l.getD N.empty0) : withLeaves N f us p = l.getD N.empty0 := by
  induction us generalizing f with
  | nil => exact hno (by simp)
  | cons u us ih =>
    rw [forall_mem_cons] at h
    refine ih h.2 fun hrest => ?_
    by_cases hu : u.1 = p
    · rw [← hu, ← h.1 hu]
      exact Function.update_self _ _ _
    · exact (Function.update_of_ne (Ne.symm hu) _ _).trans (hno (forall_mem_cons.mpr ⟨hu, hrest⟩))

/-! ### The leaves of a list -/

/-- The leaves are those of the list. -/
structure Listed (N : PairHash H) (m : List (List Bool × H)) (f : Leaves H) : Prop where
  leaf : ∀ e ∈ m, f e.1 = e.2
  other : ∀ p, (∀ e ∈ m, e.1 ≠ p) → f p = N.empty0

theorem listed_nil : Listed N [] fun _ => N.empty0 := ⟨fun _ he => absurd he (by simp), fun _ _ => rfl⟩

variable {m m' : List (List Bool × H)}

theorem Listed.eq (h : Listed N m f) (h' : Listed N m' g) (hm : ∀ e, e ∈ m ↔ e ∈ m') : f = g := by
  funext p
  by_cases hp : ∃ e ∈ m, e.1 = p
  · obtain ⟨e, he, rfl⟩ := hp
    rw [h.leaf e he, h'.leaf e ((hm e).mp he)]
  · push Not at hp
    rw [h.other p hp, h'.other p fun e he => hp e ((hm e).mpr he)]

/-- **Updates from list to list.** An update sets the leaf that the new list has under its key, and
deletes where it has none; under the other keys the two lists agree. -/
theorem Listed.withLeaves (h : Listed N m f) (hus : ∀ u ∈ us, ∀ v, u.2 = some v ↔ (u.1, v) ∈ m')
    (hrest : ∀ e : List Bool × H, (∀ u ∈ us, u.1 ≠ e.1) → (e ∈ m' ↔ e ∈ m)) :
    Listed N m' (withLeaves N f us) := by
  refine ⟨fun e he => ?_, fun p hp => ?_⟩
  · refine withLeaves_key (fun u hu hkey => (hus u hu e.2).mpr (hkey ▸ he)) fun hno => ?_
    exact h.leaf e ((hrest e hno).mp he)
  · refine withLeaves_key (l := none) (fun u hu hkey => ?_) fun hno => ?_
    · exact Option.eq_none_iff_forall_ne_some.mpr fun v hv => hp _ ((hus u hu v).mp hv) hkey
    · exact h.other p fun e he hkey => hp e ((hrest e (hkey ▸ hno)).mpr he) hkey

theorem listed_of_functional (h : ∀ e ∈ m, ∀ e' ∈ m, e.1 = e'.1 → e.2 = e'.2) :
    Listed N m (withLeaves N (fun _ => N.empty0) (m.map fun e => (e.1, some e.2))) := by
  refine listed_nil.withLeaves (fun u hu v => ?_) fun e he => ?_
  · obtain ⟨e, hmem, rfl⟩ := mem_map.mp hu
    constructor
    · rintro ⟨⟩
      exact hmem
    · exact fun hv => congrArg some (h e hmem (e.1, v) hv rfl)
  · refine ⟨fun hmem => ?_, fun hmem => absurd hmem (by simp)⟩
    exact absurd rfl (he _ (mem_map_of_mem hmem))

end leaves

/-! ### Trees -/

variable [DecidableEq H]

/-- One update after another, each from the root that the one before returned. -/
def applyUpdates (N : PairHash H) (us : List (List Bool × Option H)) (t : Store H × H) : Store H × H :=
  us.foldl (fun t u => Smt.update N t.1 t.2 u.1 u.2) t

/-- **A sequence of updates**, for a hash without collisions. -/
theorem tree_applyUpdates {N : NodeHash H} {h : ℕ} {f : Leaves H} {t : Store H × H} (ht : Tree N h f t)
    {us : List (List Bool × Option H)} (hlen : ∀ u ∈ us, u.1.length = h) :
    Tree N h (withLeaves N f us) (applyUpdates N us t) := by
  induction us generalizing f t with
  | nil => exact ht
  | cons u us ih =>
    rw [forall_mem_cons] at hlen
    exact ih (ht.update hlen.1 u.2) hlen.2

theorem includes_applyUpdates (N : PairHash H) (us : List (List Bool × Option H)) (t : Store H × H) :
    Includes t.1 (applyUpdates N us t).1 := by
  induction us generalizing t with
  | nil => exact fun _ _ h => h
  | cons u us ih => exact fun p row h => ih _ p row (Smt.includes_update p row h)

/-! ### Hashes of leaves -/

/-- The hashes of a tree: those of the nodes, and of the texts of leaves under a byte of their own. -/
structure LeafHash (H : Type) extends NodeHash H where
  /-- `SMT_DEPTH`. -/
  depth : ℕ
  leafHash : Text → H
  leafHash_ne_node : ∀ t a b, leafHash t ≠ nodeHash a b
  leafHash_ne_empty0 : ∀ t, leafHash t ≠ empty0

/-- The paths that other trees store, each from a root of its own. -/
def storeOthers (M : LeafHash H) (st : Store H) (others : List (H × List Bool × Option Text)) : Store H :=
  others.foldl (fun st u => (Smt.update M.toPairHash st u.1 u.2.1 (u.2.2.map M.leafHash)).1) st

theorem storeOthers_spec {M : LeafHash H} {st : Store H} (hst : Hashed M.toPairHash st)
    (others : List (H × List Bool × Option Text)) :
    Hashed M.toPairHash (storeOthers M st others) ∧ Includes st (storeOthers M st others) := by
  induction others generalizing st with
  | nil => exact ⟨hst, fun _ _ h => h⟩
  | cons u others ih =>
    have hstep : Hashed M.toPairHash (Smt.update M.toPairHash st u.1 u.2.1 (u.2.2.map M.leafHash)).1 :=
      Smt.hashed_update hst
    obtain ⟨hhashed, hle⟩ := ih hstep
    exact ⟨hhashed, fun p row h => hle p row (Smt.includes_update p row h)⟩

/-- Hashes that keep what they were made of. -/
inductive Term
  | blank
  | leaf (content : Text)
  | node (left right : Term)
deriving DecidableEq

def terms (depth : ℕ) : LeafHash Term where
  nodeHash := .node
  empty0 := .blank
  inj := Term.node.inj
  empty0_ne := fun _ _ => Term.noConfusion
  depth := depth
  leafHash := .leaf
  leafHash_ne_node := fun _ _ _ => Term.noConfusion
  leafHash_ne_empty0 := fun _ => Term.noConfusion

end XChainIndexer.StateTree.Updates
