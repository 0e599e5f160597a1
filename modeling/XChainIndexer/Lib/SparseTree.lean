import XChainIndexer.Lib.NodeStore

/-! # Sparse trees of one height

The leaves of a tree of height `h` are a function on the keys of `h` bits; an absent leaf is the constant
of `PairHash`. `root` is the hash of such a tree and `siblings` are the nodes beside the path of a key.

`Kept N st h f` says that a store holds the nodes of the tree of `f`, blank subtrees apart. When the hash
has no collisions among the pairs of a set that holds every pair stored, a row that is found under the
hash of a node, in that store or elsewhere, has the children of that node (`Kept.row_eq`), and a node whose
hash is that of a blank tree is blank (`Kept.blank`). -/

namespace XChainIndexer.Lib.SparseTree

open Lib.NodeStore

variable {H : Type*}

abbrev Leaves (H : Type*) := List Bool → H

/-- The leaves on one side of the root. -/
def half (b : Bool) (f : Leaves H) : Leaves H := fun key => f (b :: key)

def root (N : PairHash H) : ℕ → Leaves H → H
  | 0, f => f []
  | h + 1, f => N.nodeHash (root N h (half false f)) (root N h (half true f))

/-- The siblings of the path of a key, from the root down. -/
def siblings (N : PairHash H) : Leaves H → List Bool → List H
  | _, [] => []
  | f, b :: key => root N key.length (half (!b) f) :: siblings N (half b f) key

/-- The leaves with another one under the key. -/
def withLeaf (f : Leaves H) (key : List Bool) (v : H) : Leaves H := Function.update f key v

def Blank (N : PairHash H) (h : ℕ) (f : Leaves H) : Prop := ∀ key, key.length = h → f key = N.empty0

variable {N : PairHash H} {f g : Leaves H} {h : ℕ}

/-! ### The root -/

theorem Blank.half (hf : Blank N (h + 1) f) (b : Bool) : Blank N h (half b f) :=
  fun key hkey => hf (b :: key) (congrArg Nat.succ hkey)

theorem blank_succ (hf : ∀ b, Blank N h (half b f)) : Blank N (h + 1) f := by
  intro key hkey
  cases key with
  | nil => exact absurd hkey (Nat.succ_ne_zero h).symm
  | cons b key => exact hf b key (Nat.succ.inj hkey)

theorem Blank.root_eq (hf : Blank N h f) : root N h f = N.empty h := by
  induction h generalizing f with
  | zero => exact hf [] rfl
  | succ h ih => rw [root, ih (hf.half false), ih (hf.half true), PairHash.empty]

section
variable (f : Leaves H) (b : Bool) (key : List Bool) (v : H)

theorem half_withLeaf_self : half b (withLeaf f (b :: key) v) = withLeaf (half b f) key v := by
  funext key'
  simp [half, withLeaf, Function.update_apply]

theorem half_withLeaf_not : half (!b) (withLeaf f (b :: key) v) = half (!b) f := by
  funext key'
  simp [half, withLeaf]

end

theorem root_succ_eq (N : PairHash H) (h : ℕ) (f : Leaves H) (b : Bool) : root N (h + 1) f =
      if b then N.nodeHash (root N h (half (!b) f)) (root N h (half b f))
      else N.nodeHash (root N h (half b f)) (root N h (half (!b) f)) := by
  cases b <;> rfl

theorem length_siblings (N : PairHash H) (f : Leaves H) (key : List Bool) :
    (siblings N f key).length = key.length := by
  induction key generalizing f with
  | nil => rfl
  | cons b key ih => rw [siblings, List.length_cons, ih, List.length_cons]

/-! ### Trees in a store -/

/-- The store holds the nodes of the tree. -/
def Kept (N : PairHash H) (st : Store H) : ℕ → Leaves H → Prop
  | 0, _ => True
  | h + 1, f => Blank N (h + 1) f ∨
      st (root N (h + 1) f) = some (root N h (half false f), root N h (half true f)) ∧
        Kept N st h (half false f) ∧ Kept N st h (half true f)

/-- The pairs of the blank trees below the height. -/
def BlanksIn (N : PairHash H) (S : Set (H × H)) (h : ℕ) : Prop := ∀ i < h, (N.empty i, N.empty i) ∈ S

theorem BlanksIn.of_succ {S : Set (H × H)} (hb : BlanksIn N S (h + 1)) : BlanksIn N S h :=
  fun i hi => hb i (Nat.lt_succ_of_lt hi)

theorem Blank.kept (hf : Blank N h f) (st : Store H) : Kept N st h f := by
  cases h with
  | zero => trivial
  | succ h => exact .inl hf

theorem Kept.half {st : Store H} (hk : Kept N st (h + 1) f) (b : Bool) : Kept N st h (half b f) := by
  rcases hk with hblank | ⟨-, hleft, hright⟩
  · exact (hblank.half b).kept st
  · cases b
    · exact hleft
    · exact hright

theorem Kept.mono {st st' : Store H} (hle : Includes st st') (hk : Kept N st h f) : Kept N st' h f := by
  induction h generalizing f with
  | zero => trivial
  | succ h ih =>
    rcases hk with hblank | ⟨hrow, hleft, hright⟩
    · exact .inl hblank
    · exact .inr ⟨hle _ _ hrow, ih hleft, ih hright⟩

section Free
variable {S : Set (H × H)} {st : Store H} (hfree : N.Free S) (hst : HashedIn N S st)

include hst in
theorem Kept.pair_mem (hblanks : BlanksIn N S (h + 1)) (hk : Kept N st (h + 1) f) :
    (root N h (SparseTree.half false f), root N h (SparseTree.half true f)) ∈ S := by
  rcases hk with hblank | ⟨hrow, -, -⟩
  · rw [(hblank.half false).root_eq, (hblank.half true).root_eq]
    exact hblanks h (Nat.lt_succ_self h)
  · exact (hst _ _ hrow).2

include hfree hst

/-- A row under the hash of a node has the children of the node. -/
theorem Kept.row_eq (hblanks : BlanksIn N S (h + 1)) (hk : Kept N st (h + 1) f) {row : H × H}
    (hrow : row ∈ S) (hhash : N.nodeHash row.1 row.2 = root N (h + 1) f) :
    row = (root N h (SparseTree.half false f), root N h (SparseTree.half true f)) :=
  hfree.inj row hrow _ (hk.pair_mem hst hblanks) hhash

section
variable (hblanks : BlanksIn N S h) (hk : Kept N st h f)
include hblanks hk

/-- **The root binds the leaves**, of trees that are kept in any two stores. -/
theorem Kept.leaf_eq {st' : Store H}
    (hst' : HashedIn N S st') (hk' : Kept N st' h g) (he : root N h f = root N h g) {key : List Bool}
    (hkey : key.length = h) : f key = g key := by
  induction h generalizing f g key with
  | zero =>
    rw [List.length_eq_zero_iff.mp hkey]
    exact he
  | succ h ih =>
    have hpair := hk.row_eq hfree hst hblanks (hk'.pair_mem hst' hblanks) he.symm
    rw [Prod.mk.injEq] at hpair
    obtain ⟨b, key, rfl⟩ := List.exists_cons_of_length_eq_add_one hkey
    cases b
    · exact ih hblanks.of_succ (hk.half false) (hk'.half false) hpair.1.symm (Nat.succ.inj hkey)
    · exact ih hblanks.of_succ (hk.half true) (hk'.half true) hpair.2.symm (Nat.succ.inj hkey)

/-- **A tree with the hash of a blank one is blank.** -/
theorem Kept.blank (he : root N h f = N.empty h) : Blank N h f := by
  have hempty : Blank N h fun _ => N.empty0 := fun _ _ => rfl
  exact fun key => hk.leaf_eq hfree hst hblanks hst (hempty.kept st) (he.trans hempty.root_eq.symm)

end

/-- A node above two trees that are kept is kept if its row is stored, or its hash is that of a blank
tree. -/
theorem kept_succ (hblanks : BlanksIn N S (h + 1)) (hk : ∀ b, Kept N st h (SparseTree.half b f))
    (hpair : (root N h (SparseTree.half false f), root N h (SparseTree.half true f)) ∈ S)
    (hrow : root N (h + 1) f ≠ N.empty (h + 1) → st (root N (h + 1) f) =
        some (root N h (SparseTree.half false f), root N h (SparseTree.half true f))) :
    Kept N st (h + 1) f := by
  by_cases he : root N (h + 1) f = N.empty (h + 1)
  · have heq := hfree.inj _ hpair _ (hblanks h (Nat.lt_succ_self h)) he
    rw [Prod.mk.injEq] at heq
    refine Or.inl (blank_succ fun b => ?_)
    cases b
    · exact (hk false).blank hfree hst hblanks.of_succ heq.1
    · exact (hk true).blank hfree hst hblanks.of_succ heq.2
  · exact .inr ⟨hrow he, hk false, hk true⟩

end Free

end XChainIndexer.Lib.SparseTree
