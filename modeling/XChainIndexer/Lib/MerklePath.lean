import Mathlib

/-! # Hash trees over byte strings

A hash gives every byte string a digest of one length. Over it: the sparse tree of a set of leaves that
are addressed by bit strings, the path that a membership proof climbs, and the binary tree over a short
list of leaves.

A hash with digests of one length has collisions, so nothing is assumed about all byte strings. What is
assumed is that no two of the strings that were in fact hashed collide: every function comes with the
list of its inputs (`smtInputs`, `climbInputs`, `fixedInputs`), and the results take a set that holds
them and on which the hash is injective.

`climb_eq_smtNode`: a path that reaches the root of a sparse tree starts at the leaf that the tree has
under the key, whatever byte strings are given for the siblings. -/

namespace XChainIndexer.Lib.MerklePath

open List

abbrev Bytes := List UInt8

/-- A hash with digests of one length. -/
structure Hash where
  size : ℕ
  digest : Bytes → Bytes
  length_digest : ∀ x, (digest x).length = size

/-- A leaf and the bits of its key. -/
abbrev Entry := List Bool × Bytes

/-! ### Nodes -/

/-- What is hashed for an inner node. -/
def nodeInput (left right : Bytes) : Bytes := 1 :: (left ++ right)

def nodeHash (H : Hash) (left right : Bytes) : Bytes := H.digest (nodeInput left right)

/-- The root of a subtree of the height without leaves; `e` is hashed for an absent leaf. -/
def empty (H : Hash) (e : Bytes) : ℕ → Bytes
  | 0 => H.digest e
  | h + 1 => nodeHash H (empty H e h) (empty H e h)

def emptyInputs (H : Hash) (e : Bytes) : ℕ → List Bytes
  | 0 => [e]
  | h + 1 => nodeInput (empty H e h) (empty H e h) :: emptyInputs H e h

/-! ### The sparse tree -/

/-- The entries on one side of a node, without the bit that led there. -/
def side (b : Bool) (es : List Entry) : List Entry :=
  es.filterMap fun e => match e.1 with
    | [] => none
    | b' :: key => if b' = b then some (key, e.2) else none

/-- The root of the tree of the height over the entries. -/
def smtNode (H : Hash) (e : Bytes) : ℕ → List Entry → Bytes
  | h, [] => empty H e h
  | 0, x :: _ => x.2
  | h + 1, x :: es =>
    nodeHash H (smtNode H e h (side false (x :: es))) (smtNode H e h (side true (x :: es)))

def smtInputs (H : Hash) (e : Bytes) : ℕ → List Entry → List Bytes
  | h, [] => emptyInputs H e h
  | 0, _ :: _ => []
  | h + 1, x :: es =>
    nodeInput (smtNode H e h (side false (x :: es))) (smtNode H e h (side true (x :: es))) ::
      (smtInputs H e h (side false (x :: es)) ++ smtInputs H e h (side true (x :: es)))

/-- The entries whose keys start with the bits, without those bits. -/
def under : List Bool → List Entry → List Entry
  | [], es => es
  | b :: key, es => under key (side b es)

/-- The node that a leaf and the siblings of its path, top-down, lead to. -/
def climb (H : Hash) (leaf : Bytes) : List Bool → List Bytes → Bytes
  | b :: key, sib :: siblings =>
    let node := climb H leaf key siblings
    if b then nodeHash H sib node else nodeHash H node sib
  | _, _ => leaf

def climbInputs (H : Hash) (leaf : Bytes) : List Bool → List Bytes → List Bytes
  | b :: key, sib :: siblings =>
    let node := climb H leaf key siblings
    (if b then nodeInput sib node else nodeInput node sib) :: climbInputs H leaf key siblings
  | _, _ => []

/-! ### The tree over a list of leaves -/

/-- One layer up. -/
def layerUp (H : Hash) : List Bytes → List Bytes
  | left :: right :: rest => nodeHash H left right :: layerUp H rest
  | rest => rest

def layerInputs : List Bytes → List Bytes
  | left :: right :: rest => nodeInput left right :: layerInputs rest
  | _ => []

/-- The leaves, padded to a power of two. -/
def padded (pad : Bytes) (leaves : List Bytes) : List Bytes :=
  leaves ++ List.replicate (2 ^ Nat.clog 2 leaves.length - leaves.length) pad

def fixedMerkleRoot (H : Hash) (pad : Bytes) (leaves : List Bytes) : Bytes :=
  ((layerUp H)^[Nat.clog 2 leaves.length] (padded pad leaves)).headD pad

def fixedInputs (H : Hash) (pad : Bytes) (leaves : List Bytes) : List Bytes :=
  (List.range (Nat.clog 2 leaves.length)).flatMap fun i =>
    layerInputs ((layerUp H)^[i] (padded pad leaves))

variable {H : Hash} {e : Bytes} {S : Set Bytes}

/-! ### Lengths -/

@[simp] theorem length_nodeHash (H : Hash) (l r : Bytes) : (nodeHash H l r).length = H.size :=
  H.length_digest _

theorem length_empty (H : Hash) (e : Bytes) (h : ℕ) : (empty H e h).length = H.size := by
  cases h with
  | zero => exact H.length_digest e
  | succ h => exact length_nodeHash H _ _

variable {es : List Entry}

theorem length_smtNode (h : ℕ) (hes : ∀ x ∈ es, x.2.length = H.size) :
    (smtNode H e h es).length = H.size := by
  cases es with
  | nil =>
    rw [smtNode]
    exact length_empty H e h
  | cons x es =>
    cases h with
    | zero => exact hes x mem_cons_self
    | succ h => exact length_nodeHash H _ _

variable {leaf : Bytes}

theorem length_climb (hleaf : leaf.length = H.size) (key : List Bool)
    (siblings : List Bytes) : (climb H leaf key siblings).length = H.size := by
  cases key with
  | nil => exact hleaf
  | cons b key =>
    cases siblings with
    | nil => exact hleaf
    | cons sib siblings => cases b <;> exact length_nodeHash H _ _

/-! ### The entries below a node -/

variable {key : List Bool} {v : Bytes}

theorem mem_side {b : Bool} : (key, v) ∈ side b es ↔ (b :: key, v) ∈ es := by
  unfold side
  rw [mem_filterMap]
  constructor
  · rintro ⟨⟨key', v'⟩, hmem, h⟩
    cases key' with
    | nil => exact absurd h (by simp)
    | cons b' key' =>
      dsimp only at h
      split_ifs at h with hb
      obtain ⟨⟩ := h
      rwa [← hb]
  · intro hmem
    exact ⟨_, hmem, by simp⟩

theorem mem_under {rest : List Bool} : (rest, v) ∈ under key es ↔ (key ++ rest, v) ∈ es := by
  induction key generalizing es with
  | nil => rfl
  | cons b key ih => rw [under, ih, mem_side, cons_append]

theorem side_nil (b : Bool) : side b [] = [] := rfl

/-- A node is the hash of its two sides, also where there are no entries. -/
theorem smtNode_succ (H : Hash) (e : Bytes) (h : ℕ) (es : List Entry) :
    smtNode H e (h + 1) es = nodeHash H (smtNode H e h (side false es)) (smtNode H e h (side true es)) := by
  cases es with
  | nil => rw [side_nil, side_nil, smtNode, smtNode, empty]
  | cons x es => rw [smtNode]

theorem mem_smtInputs_succ {h : ℕ} {x : Bytes}
    (hx : x = nodeInput (smtNode H e h (side false es)) (smtNode H e h (side true es)) ∨
      ∃ b, x ∈ smtInputs H e h (side b es)) : x ∈ smtInputs H e (h + 1) es := by
  cases es with
  | nil =>
    simp only [side_nil, smtNode, smtInputs, exists_const] at hx
    exact mem_cons.mpr hx
  | cons y es =>
    rcases hx with rfl | ⟨b, hx⟩
    · exact mem_cons_self
    · refine mem_cons_of_mem _ (mem_append.mpr ?_)
      cases b
      · exact .inl hx
      · exact .inr hx

/-! ### Binding -/

section
variable (hS : Set.InjOn H.digest S) {l r l' r' : Bytes} (hin : nodeInput l r ∈ S)
  (hin' : nodeInput l' r' ∈ S)
include hS hin hin'

theorem nodeHash_inj_left (hlen : l.length = l'.length)
    (h : nodeHash H l r = nodeHash H l' r') : l = l' ∧ r = r' :=
  append_inj (List.cons.inj (hS hin hin' h)).2 hlen

theorem nodeHash_inj_right (hlen : r.length = r'.length)
    (h : nodeHash H l r = nodeHash H l' r') : l = l' ∧ r = r' :=
  append_inj' (List.cons.inj (hS hin hin' h)).2 hlen

end

/-- **Binding of a path.** Only the leaf under the key climbs to the root of the tree. -/
theorem climb_eq_smtNode (hS : Set.InjOn H.digest S) (hleaf : leaf.length = H.size)
    {siblings : List Bytes} (hlen : siblings.length = key.length)
    (hes : ∀ x ∈ es, x.2.length = H.size) (hc : ∀ x ∈ climbInputs H leaf key siblings, x ∈ S)
    (ht : ∀ x ∈ smtInputs H e key.length es, x ∈ S)
    (h : climb H leaf key siblings = smtNode H e key.length es) : leaf = smtNode H e 0 (under key es) := by
  induction key generalizing siblings es with
  | nil => exact h
  | cons b key ih =>
    cases siblings with
    | nil => cases hlen
    | cons sib siblings =>
      have hside : ∀ b, ∀ x ∈ side b es, x.2.length = H.size := fun b x hx =>
        hes (b :: x.1, x.2) (mem_side.mp hx)
      have hnode := length_climb hleaf key siblings
      have htop : nodeInput (smtNode H e key.length (side false es))
          (smtNode H e key.length (side true es)) ∈ S := ht _ (mem_smtInputs_succ (.inl rfl))
      rw [length_cons, smtNode_succ] at h
      -- the node of the path has the length of a digest, which fixes where the siblings are cut
      have hstep : climb H leaf key siblings = smtNode H e key.length (side b es) := by
        cases b with
        | false =>
          refine (nodeHash_inj_left hS (hc _ mem_cons_self) htop ?_ h).1
          rw [hnode, length_smtNode _ (hside false)]
        | true =>
          refine (nodeHash_inj_right hS (hc _ mem_cons_self) htop ?_ h).2
          rw [hnode, length_smtNode _ (hside true)]
      refine ih (Nat.succ.inj hlen) (hside b) (fun x hx => hc x (mem_cons_of_mem _ hx)) ?_ hstep
      exact fun x hx => ht x (mem_smtInputs_succ (.inr ⟨b, hx⟩))

end XChainIndexer.Lib.MerklePath
