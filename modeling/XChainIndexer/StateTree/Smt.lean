import XChainIndexer.Lib.NodeStore

/-! # The persistent sparse Merkle tree

`state_commitment/persistent_smt.js` over the rows of `state_tree_nodes`. A key is the list of its bits
from the root down. `descend` collects the siblings of a key; a hash without a row is taken for an empty
subtree. `update` climbs back from the new leaf and stores the nodes of the path that are not empty, and
`prove` reads the leaf of a key. The read-through cache of the engine answers as the store does and is
left out.

A leaf that `update` sets is there (`path_update_self`), and the leaves of other keys stay
(`path_update_ne`), whatever else the store holds or lacks. -/

namespace XChainIndexer.StateTree.Smt

open Lib.NodeStore List

variable {H : Type*}

/-- The siblings on the way through an empty subtree of the height. -/
def emptySiblings (N : PairHash H) : ℕ → List H
  | 0 => []
  | h + 1 => N.empty h :: emptySiblings N h

/-- The siblings of the key's path, top-down, and the leaf it ends in. -/
def descend (N : PairHash H) (st : Store H) : H → List Bool → List H × H
  | cur, [] => ([], cur)
  | cur, bit :: key =>
    match st cur with
    | none => (emptySiblings N (key.length + 1), N.empty0)
    | some row =>
      let (siblings, oldLeaf) := descend N st (child bit row) key
      (child (!bit) row :: siblings, oldLeaf)

/-- The row above a node and its sibling. -/
def parentRow (N : PairHash H) (bit : Bool) (cur sib : H) : NodeRow H :=
  let left := if bit then sib else cur
  let right := if bit then cur else sib
  ⟨N.nodeHash left right, left, right⟩

variable [DecidableEq H]

/-- The new root above a leaf, and the rows of the path that are to be stored. -/
def climb (N : PairHash H) (leaf : H) : List Bool → List H → H × List (NodeRow H)
  | bit :: key, sib :: siblings =>
    let (cur, pending) := climb N leaf key siblings
    let row := parentRow N bit cur sib
    (row.hash, if row.hash = N.empty (key.length + 1) then pending else pending ++ [row])
  | _, _ => (leaf, [])

/-- Set the leaf of a key, or delete it. -/
def update (N : PairHash H) (st : Store H) (root : H) (key : List Bool) (leaf : Option H) :
    Store H × H :=
  let (siblings, _) := descend N st root key
  let (root, pending) := climb N (leaf.getD N.empty0) key siblings
  (putMany st pending, root)

/-- The leaf of a key, `none` when it has none. -/
def prove (N : PairHash H) (st : Store H) (root : H) (key : List Bool) : Option H :=
  let (_, oldLeaf) := descend N st root key
  if oldLeaf = N.empty0 then none else some oldLeaf

variable {N : NodeHash H} {st : Store H}

/-! ### Reading -/

omit [DecidableEq H] in
theorem length_emptySiblings (N : PairHash H) (h : ℕ) : (emptySiblings N h).length = h := by
  induction h with
  | zero => rfl
  | succ h ih => rw [emptySiblings, length_cons, ih]

omit [DecidableEq H] in
theorem length_siblings (N : PairHash H) (st : Store H) (root : H) (key : List Bool) :
    (descend N st root key).1.length = key.length := by
  induction key generalizing root with
  | nil => rfl
  | cons bit key ih =>
    unfold descend
    split
    · exact length_emptySiblings N _
    · rename_i row _
      rw [length_cons, ih, length_cons]

omit [DecidableEq H] in
theorem descend_cons_some {N : PairHash H} {cur : H} {row : H × H} (h : st cur = some row) (bit : Bool) (key : List Bool) :
    descend N st cur (bit :: key) =
      (child (!bit) row :: (descend N st (child bit row) key).1, (descend N st (child bit row) key).2) := by
  rw [descend, h]

section
variable {root leaf : H} {key : List Bool} (h : Path st root key leaf)
include h

omit [DecidableEq H] in
theorem oldLeaf_of_path : (descend N st root key).2 = leaf := by
  induction key generalizing root with
  | nil => exact h
  | cons bit key ih =>
    obtain ⟨row, hrow, hpath⟩ := h
    rw [descend_cons_some hrow]
    exact ih hpath

theorem prove_of_path (hleaf : leaf ≠ N.empty0) : prove N st root key = some leaf := by
  unfold prove
  dsimp only
  rw [oldLeaf_of_path h, if_neg hleaf]

end

/-! ### Writing -/

theorem climb_cons (N : PairHash H) (leaf : H) (bit : Bool) (key : List Bool) (sib : H)
    (siblings : List H) : climb N leaf (bit :: key) (sib :: siblings) =
      ((parentRow N bit (climb N leaf key siblings).1 sib).hash,
        if (parentRow N bit (climb N leaf key siblings).1 sib).hash = N.empty (key.length + 1) then
          (climb N leaf key siblings).2
        else (climb N leaf key siblings).2 ++ [parentRow N bit (climb N leaf key siblings).1 sib]) := by
  rw [climb]

theorem rowsHashed_climb (N : PairHash H) (leaf : H) (key : List Bool) (siblings : List H) :
    RowsHashed N (climb N leaf key siblings).2 := by
  induction key generalizing siblings with
  | nil => simp [climb, RowsHashed]
  | cons bit key ih =>
    cases siblings with
    | nil => simp [climb, RowsHashed]
    | cons sib siblings =>
      rw [climb_cons]
      split_ifs
      · exact ih siblings
      · intro row hrow
        rcases mem_append.mp hrow with hrow | hrow
        · exact ih siblings row hrow
        · rw [mem_singleton.mp hrow]
          rfl

variable {bit : Bool} {sib : H}

omit [DecidableEq H] in
theorem parentRow_ne_empty {cur : H} {h : ℕ} (hne : cur ≠ N.empty h ∨ sib ≠ N.empty h) :
    (parentRow N bit cur sib).hash ≠ N.empty (h + 1) := by
  intro he
  obtain ⟨hl, hr⟩ := N.inj he
  cases bit with
  | false => exact hne.elim (fun h => h hl) fun h => h hr
  | true => exact hne.elim (fun h => h hr) fun h => h hl

variable {T : Store H} {siblings : List H} {key : List Bool} {leaf : H}

/-- One level of the climb: the node above is stored when its subtree is not empty. -/
theorem stored_climb
    (hT : ∀ row ∈ (climb N leaf (bit :: key) (sib :: siblings)).2, T row.hash = some (row.left, row.right))
    (hne : (climb N leaf key siblings).1 ≠ N.empty key.length ∨ sib ≠ N.empty key.length) :
    ∃ row, T (climb N leaf (bit :: key) (sib :: siblings)).1 = some row ∧
      child bit row = (climb N leaf key siblings).1 ∧ child (!bit) row = sib := by
  rw [climb_cons] at hT ⊢
  rw [if_neg (parentRow_ne_empty hne)] at hT
  refine ⟨_, hT _ (mem_append_right _ (mem_singleton_self _)), ?_, ?_⟩
  · cases bit <;> rfl
  · cases bit <;> rfl

theorem pending_climb {N : PairHash H} (hT : ∀ row ∈ (climb N leaf (bit :: key) (sib :: siblings)).2,
      T row.hash = some (row.left, row.right)) :
    ∀ row ∈ (climb N leaf key siblings).2, T row.hash = some (row.left, row.right) := by
  intro row hrow
  refine hT row ?_
  rw [climb_cons]
  split_ifs
  · exact hrow
  · exact mem_append_left _ hrow

theorem path_climb (hT : Hashed N T) (hleaf : leaf ≠ N.empty0) (hlen : siblings.length = key.length)
    (hrows : ∀ row ∈ (climb N leaf key siblings).2, T row.hash = some (row.left, row.right)) :
    Path T (climb N leaf key siblings).1 key leaf := by
  induction key generalizing siblings with
  | nil => rfl
  | cons bit key ih =>
    cases siblings with
    | nil => simp at hlen
    | cons sib siblings =>
      have hpath := ih (Nat.succ.inj hlen) (pending_climb hrows)
      obtain ⟨row, hrow, hchild, _⟩ := stored_climb hrows (Or.inl (hpath.ne_empty hT hleaf))
      exact ⟨row, hrow, hchild ▸ hpath⟩

variable {root : H} {key : List Bool} {leaf : Option H}

theorem hashed_update (hst : Hashed N st) : Hashed N (update N st root key leaf).1 :=
  hst.putMany (rowsHashed_climb _ _ _ _)

theorem includes_update {N : PairHash H} : Includes st (update N st root key leaf).1 := includes_putMany _ _

variable {v : H}

/-- **The leaf set is there.** -/
theorem path_update_self (hst : Hashed N st) (hv : v ≠ N.empty0) :
    Path (update N st root key (some v)).1 (update N st root key (some v)).2 key v :=
  path_climb (hashed_update hst) hv (length_siblings N st root key) fun _ =>
    putMany_of_mem hst (rowsHashed_climb _ _ _ _)

variable {key' : List Bool}

theorem path_climb_ne (hT : Hashed N T) (hle : Includes st T) {new : H}
    (hv : v ≠ N.empty0) (hlen : key'.length = key.length) (hne : key' ≠ key)
    (h : Path st root key' v) (hrows : ∀ row ∈ (climb N new key (descend N st root key).1).2,
      T row.hash = some (row.left, row.right)) :
    Path T (climb N new key (descend N st root key).1).1 key' v := by
  induction key generalizing root key' with
  | nil => exact absurd (length_eq_zero_iff.mp hlen) hne
  | cons bit key ih =>
    cases key' with
    | nil => simp at hlen
    | cons bit' key' =>
      have hlen' : key'.length = key.length := Nat.succ.inj hlen
      obtain ⟨row, hrow, hpath⟩ := h
      rw [descend_cons_some hrow] at hrows ⊢
      by_cases hbit : bit' = bit
      · -- the keys part further down
        subst hbit
        have hrest := ih hlen' (fun he => hne (by rw [he])) hpath (pending_climb hrows)
        have hnonempty := hrest.ne_empty hT hv
        rw [hlen'] at hnonempty
        obtain ⟨row', hrow', hchild, _⟩ := stored_climb hrows (Or.inl hnonempty)
        exact ⟨row', hrow', hchild ▸ hrest⟩
      · -- the keys part here: the other key goes through the sibling
        have hflip : bit' = !bit := by cases bit <;> cases bit' <;> simp_all
        subst hflip
        have hrest := hpath.mono hle
        have hnonempty := hrest.ne_empty hT hv
        rw [hlen'] at hnonempty
        obtain ⟨row', hrow', _, hchild⟩ := stored_climb hrows (Or.inr hnonempty)
        exact ⟨row', hrow', hchild ▸ hrest⟩

/-- **The leaves of other keys stay.** -/
theorem path_update_ne (hst : Hashed N st) (hv : v ≠ N.empty0)
    (hlen : key'.length = key.length) (hne : key' ≠ key) (h : Path st root key' v) :
    Path (update N st root key leaf).1 (update N st root key leaf).2 key' v :=
  path_climb_ne (hashed_update hst) includes_update hv hlen hne h fun _ =>
    putMany_of_mem hst (rowsHashed_climb _ _ _ _)

end XChainIndexer.StateTree.Smt
