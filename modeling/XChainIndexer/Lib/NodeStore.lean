import Mathlib.Data.List.Basic
import Mathlib.Data.Set.Basic

/-! # Content-addressed binary trees

A store maps the hash of a node to the hashes of its two children. The trees have one height for all
their leaves, a leaf is known by its hash only, and a subtree without leaves is not stored: its hash is
a constant of its height. The hash of a pair is taken to be free of collisions, among the pairs of a set
(`PairHash.Free`) or among all pairs (`NodeHash`).

`Path st root key leaf` says that the nodes from `root` down to `leaf` along the bits of `key` are all
stored. A store that only holds rows under their own hash (`Hashed`) keeps every path when rows are
added (`Path.mono`, `Hashed.putMany`). -/

namespace XChainIndexer.Lib.NodeStore

/-- The hash of a pair of children and the hash of an absent leaf. -/
structure PairHash (H : Type*) where
  nodeHash : H → H → H
  empty0 : H

/-- A hash without collisions. -/
structure NodeHash (H : Type*) extends PairHash H where
  inj : ∀ {a b c d}, nodeHash a b = nodeHash c d → a = c ∧ b = d
  empty0_ne : ∀ a b, nodeHash a b ≠ empty0

instance (H : Type*) : CoeOut (NodeHash H) (PairHash H) := ⟨NodeHash.toPairHash⟩

/-- No two of the pairs collide, and none collides with the absent leaf. -/
structure PairHash.Free {H : Type*} (N : PairHash H) (S : Set (H × H)) : Prop where
  inj : ∀ p ∈ S, ∀ q ∈ S, N.nodeHash p.1 p.2 = N.nodeHash q.1 q.2 → p = q
  empty0_ne : ∀ p ∈ S, N.nodeHash p.1 p.2 ≠ N.empty0

theorem NodeHash.free {H : Type*} (N : NodeHash H) : N.toPairHash.Free Set.univ where
  inj _ _ _ _ h := Prod.ext (N.inj h).1 (N.inj h).2
  empty0_ne p _ := N.empty0_ne p.1 p.2

/-- A row of the store. -/
structure NodeRow (H : Type*) where
  hash : H
  left : H
  right : H

abbrev Store (H : Type*) := H → Option (H × H)

variable {H : Type*}

/-- The hash of a subtree of the height without leaves. -/
def PairHash.empty (N : PairHash H) : ℕ → H
  | 0 => N.empty0
  | h + 1 => N.nodeHash (N.empty h) (N.empty h)

/-- A child of a pair: the right one for a set bit. -/
def child (bit : Bool) (row : H × H) : H := if bit then row.2 else row.1

/-- The nodes on the way down along the key are stored and end in the leaf. -/
def Path (st : Store H) : H → List Bool → H → Prop
  | cur, [], leaf => cur = leaf
  | cur, bit :: key, leaf => ∃ row, st cur = some row ∧ Path st (child bit row) key leaf

/-- Every row is stored under its own hash. -/
def Hashed (N : PairHash H) (st : Store H) : Prop :=
  ∀ h row, st h = some row → N.nodeHash row.1 row.2 = h

/-- Every row is a pair of the set, stored under its own hash. -/
def HashedIn (N : PairHash H) (S : Set (H × H)) (st : Store H) : Prop :=
  ∀ h row, st h = some row → N.nodeHash row.1 row.2 = h ∧ row ∈ S

variable {N : PairHash H}

theorem hashedIn_univ {st : Store H} : HashedIn N Set.univ st ↔ Hashed N st := by
  simp [HashedIn, Hashed]

/-- `st'` has the rows of `st`. -/
def Includes (st st' : Store H) : Prop := ∀ h row, st h = some row → st' h = some row

variable {N : NodeHash H} {st st' : Store H} {key : List Bool} {cur leaf : H}

theorem Path.mono (hle : Includes st st') (h : Path st cur key leaf) : Path st' cur key leaf := by
  induction key generalizing cur with
  | nil => exact h
  | cons bit key ih =>
    obtain ⟨row, hrow, hpath⟩ := h
    exact ⟨row, hle _ _ hrow, ih hpath⟩

/-- A node with a leaf below it is not the hash of an empty subtree. -/
theorem Path.ne_empty (hst : Hashed N st)
    (h : Path st cur key leaf) (hleaf : leaf ≠ N.empty0) : cur ≠ N.empty key.length := by
  induction key generalizing cur with
  | nil => exact h.symm ▸ hleaf
  | cons bit key ih =>
    obtain ⟨row, hrow, hpath⟩ := h
    intro hcur
    have hnode : N.nodeHash row.1 row.2 = N.nodeHash (N.empty key.length) (N.empty key.length) :=
      (hst _ _ hrow).trans hcur
    obtain ⟨hl, hr⟩ := N.inj hnode
    refine ih hpath ?_
    unfold child
    split_ifs
    · exact hr
    · exact hl

section put

variable [DecidableEq H]

/-- `INSERT IGNORE`. -/
def put (st : Store H) (row : NodeRow H) : Store H := fun h =>
  if h = row.hash then some ((st h).getD (row.left, row.right)) else st h

def putMany (st : Store H) (rows : List (NodeRow H)) : Store H := rows.foldl put st

/-- The rows carry their own hash. -/
def RowsHashed (N : PairHash H) (rows : List (NodeRow H)) : Prop :=
  ∀ row ∈ rows, N.nodeHash row.left row.right = row.hash

/-- The rows are pairs of the set and carry their own hash. -/
def RowsIn (N : PairHash H) (S : Set (H × H)) (rows : List (NodeRow H)) : Prop :=
  ∀ row ∈ rows, N.nodeHash row.left row.right = row.hash ∧ (row.left, row.right) ∈ S

theorem includes_put (st : Store H) (row : NodeRow H) : Includes st (put st row) := by
  intro h x hx
  unfold put
  split_ifs
  · rw [hx]
    rfl
  · exact hx

theorem includes_putMany (st : Store H) (rows : List (NodeRow H)) : Includes st (putMany st rows) := by
  induction rows generalizing st with
  | nil => exact fun _ _ hx => hx
  | cons row rows ih => exact fun h x hx => ih (put st row) h x (includes_put st row h x hx)

variable {rows : List (NodeRow H)}

section In
variable {N : PairHash H} {S : Set (H × H)} {row : NodeRow H}

theorem HashedIn.put (hst : HashedIn N S st)
    (hrow : N.nodeHash row.left row.right = row.hash ∧ (row.left, row.right) ∈ S) :
    HashedIn N S (put st row) := by
  intro h x hx
  unfold NodeStore.put at hx
  split_ifs at hx with hh
  · cases hst' : st h with
    | none =>
      rw [hst', Option.some.injEq] at hx
      rw [← hx, hh]
      exact hrow
    | some y =>
      rw [hst', Option.some.injEq] at hx
      exact hx ▸ hst h y hst'
  · exact hst h x hx

variable {rows : List (NodeRow H)}

theorem HashedIn.putMany (hst : HashedIn N S st) (hrows : RowsIn N S rows) :
    HashedIn N S (putMany st rows) := by
  induction rows generalizing st with
  | nil => exact hst
  | cons row rows ih =>
    exact ih (hst.put (hrows row List.mem_cons_self)) fun r hr => hrows r (List.mem_cons_of_mem _ hr)

/-- The rows put are there with their own children. -/
theorem HashedIn.putMany_of_mem (hfree : N.Free S) (hst : HashedIn N S st)
    (hrows : RowsIn N S rows) (hmem : row ∈ rows) :
    NodeStore.putMany st rows row.hash = some (row.left, row.right) := by
  have hhashed := hst.putMany hrows
  have hsome : ∃ x, NodeStore.putMany st rows row.hash = some x := by
    induction rows generalizing st with
    | nil => simp at hmem
    | cons r rows ih =>
      rcases List.mem_cons.mp hmem with rfl | hmem
      · refine ⟨_, includes_putMany _ rows row.hash ((st row.hash).getD (row.left, row.right)) ?_⟩
        exact if_pos rfl
      · have hr := hst.put (hrows r List.mem_cons_self)
        exact ih hr (fun x hx => hrows x (List.mem_cons_of_mem _ hx)) hmem hhashed
  obtain ⟨x, hx⟩ := hsome
  obtain ⟨hxhash, hxS⟩ := hhashed _ _ hx
  obtain ⟨hrhash, hrS⟩ := hrows row hmem
  rw [hx, hfree.inj x hxS _ hrS (hxhash.trans hrhash.symm)]

end In

omit [DecidableEq H] in
theorem rowsIn_univ : RowsIn N Set.univ rows ↔ RowsHashed N rows := by
  simp [RowsIn, RowsHashed]

section
variable (hst : Hashed N st) (hrows : RowsHashed N rows)
include hst hrows

theorem Hashed.putMany : Hashed N (putMany st rows) :=
  hashedIn_univ.mp ((hashedIn_univ.mpr hst).putMany (rowsIn_univ.mpr hrows))

theorem putMany_of_mem
    (hmem : row ∈ rows) : NodeStore.putMany st rows row.hash = some (row.left, row.right) :=
  (hashedIn_univ.mpr hst).putMany_of_mem N.free (rowsIn_univ.mpr hrows) hmem

end

end put

end XChainIndexer.Lib.NodeStore
