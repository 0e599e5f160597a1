import XChainIndexer.Lib.MerklePath

/-! # The binary tree over a list of leaves, and what its root binds

The tree is built layer by layer over a list whose length is a power of two. As in `Lib.MerklePath`, the
hash is injective on a set `S` that holds what was hashed.

* `climbUp` goes from a node and its index up, taking a sibling at each layer. A climb of `m` siblings
  that arrives at the node of layer `m` above its index started at the entry with that index
  (`climbUp_pins`), whatever the siblings are; and the climbs that arrive are the paths of the tree
  (`onPath_of_climbUp`).
* A layer determines the one below (`layerUp_inj`), so two lists of one length with the same root are
  equal (`iterate_layerUp_inj`).
* A leaf is told from a node by what is hashed for it (`IsLeaf`). Then the root also binds the depth: no
  path of another length arrives (`length_of_climbUp`), and lists of different lengths have different
  roots (`root_inj`). -/

namespace XChainIndexer.Lib.FixedTree

open Lib.MerklePath List

variable {H : Hash} {S : Set Bytes}

/-- The node that a climb arrives at. -/
def climbUp (H : Hash) : Bytes → ℕ → List Bytes → Bytes
  | node, _, [] => node
  | node, index, sib :: siblings =>
    climbUp H (if index % 2 = 0 then nodeHash H node sib else nodeHash H sib node) (index / 2) siblings

def climbUpInputs (H : Hash) : Bytes → ℕ → List Bytes → List Bytes
  | _, _, [] => []
  | node, index, sib :: siblings =>
    (if index % 2 = 0 then nodeInput node sib else nodeInput sib node) ::
      climbUpInputs H (if index % 2 = 0 then nodeHash H node sib else nodeHash H sib node)
        (index / 2) siblings

/-- What is hashed for the layers above a list. -/
def LayersIn (H : Hash) (S : Set Bytes) (l : List Bytes) (depth : ℕ) : Prop :=
  ∀ k < depth, ∀ x ∈ layerInputs ((layerUp H)^[k] l), x ∈ S

/-- The digest of something that is not hashed for a node. -/
def IsLeaf (H : Hash) (S : Set Bytes) (x : Bytes) : Prop :=
  ∃ input ∈ S, input.head? ≠ some 1 ∧ x = H.digest input

/-! ### Layers -/

theorem length_layerUp (H : Hash) (l : List Bytes) : (layerUp H l).length = (l.length + 1) / 2 := by
  fun_induction layerUp H l with
  | case1 left right rest ih =>
    simp only [length_cons, ih]
    omega
  | case2 rest hrest =>
    match rest, hrest with
    | [], _ => rfl
    | [_], _ => simp
    | a :: b :: r, hrest => exact absurd rfl (hrest a b r)

variable {l : List Bytes}

theorem getElem?_layerUp {i : ℕ} {a b : Bytes} (ha : l[2 * i]? = some a) (hb : l[2 * i + 1]? = some b) :
    (layerUp H l)[i]? = some (nodeHash H a b) ∧ nodeInput a b ∈ layerInputs l := by
  induction i generalizing l with
  | zero =>
    match l, ha, hb with
    | x :: y :: rest, ha, hb =>
      obtain rfl : x = a := by simpa using ha
      obtain rfl : y = b := by simpa using hb
      exact ⟨rfl, mem_cons_self⟩
  | succ i ih =>
    match l, ha, hb with
    | x :: y :: rest, ha, hb =>
      obtain ⟨hnode, hin⟩ := ih (by simpa [Nat.mul_succ] using ha) (by simpa [Nat.mul_succ] using hb)
      exact ⟨by simpa [layerUp] using hnode, mem_cons_of_mem _ hin⟩

theorem length_of_mem_layerUp (h : ∀ x ∈ l, x.length = H.size) : ∀ x ∈ layerUp H l, x.length = H.size := by
  fun_induction layerUp H l with
  | case1 left right rest ih =>
    rw [forall_mem_cons]
    exact ⟨length_nodeHash H _ _, ih fun x hx => h x (by simp [hx])⟩
  | case2 rest _ => exact h

theorem node_of_mem_layerUp (heven : l.length % 2 = 0) :
    ∀ x ∈ layerUp H l, ∃ a b, nodeInput a b ∈ layerInputs l ∧ x = nodeHash H a b := by
  fun_induction layerUp H l with
  | case1 left right rest ih =>
    rw [forall_mem_cons]
    refine ⟨⟨left, right, mem_cons_self, rfl⟩, fun x hx => ?_⟩
    obtain ⟨a, b, hin, rfl⟩ := ih (by simp only [length_cons] at heven; omega) x hx
    exact ⟨a, b, mem_cons_of_mem _ hin, rfl⟩
  | case2 rest hrest =>
    match rest, hrest with
    | [], _ => simp
    | [_], _ => simp at heven
    | a :: b :: r, hrest => exact absurd rfl (hrest a b r)

variable {depth : ℕ}

theorem LayersIn.layer (h : LayersIn H S l (depth + 1)) :
    (∀ x ∈ layerInputs l, x ∈ S) ∧ LayersIn H S (layerUp H l) depth := by
  refine ⟨h 0 (by omega), fun k hk => ?_⟩
  exact h (k + 1) (by omega)

theorem IsLeaf.ne_node (hS : Set.InjOn H.digest S) {x a b : Bytes} (h : IsLeaf H S x)
    (hin : nodeInput a b ∈ S) : x ≠ nodeHash H a b := by
  obtain ⟨input, hinput, hhead, rfl⟩ := h
  intro he
  rw [hS hinput hin he] at hhead
  exact hhead rfl

/-! ### A climb -/

variable {siblings : List Bytes} {w : ℕ} {node : Bytes} {index : ℕ}

/-- **A climb pins its start.** -/
theorem climbUp_pins (hS : Set.InjOn H.digest S)
    (hl : l.length = 2 ^ siblings.length * w) (hsize : ∀ x ∈ l, x.length = H.size)
    (hnode : node.length = H.size) (hindex : index < l.length) (hlayers : LayersIn H S l siblings.length)
    (hclimb : ∀ x ∈ climbUpInputs H node index siblings, x ∈ S)
    (h : ((layerUp H)^[siblings.length] l)[index / 2 ^ siblings.length]? =
      some (climbUp H node index siblings)) : l[index]? = some node := by
  induction siblings generalizing l node index with
  | nil => simpa [climbUp] using h
  | cons sib siblings ih =>
    rw [climbUpInputs, forall_mem_cons] at hclimb
    obtain ⟨hbelow, habove⟩ := hlayers.layer
    have heven : l.length = 2 * (2 ^ siblings.length * w) := by
      rw [hl, length_cons]
      ring
    have hup : (layerUp H l).length = 2 ^ siblings.length * w := by
      rw [length_layerUp]
      omega
    have hhalf : index / 2 / 2 ^ siblings.length = index / 2 ^ (sib :: siblings).length := by
      rw [Nat.div_div_eq_div_mul, length_cons, pow_succ']
    have hstep : (if index % 2 = 0 then nodeHash H node sib else nodeHash H sib node).length = H.size := by
      split_ifs <;> exact length_nodeHash H _ _
    have hparent := ih hup (length_of_mem_layerUp hsize) hstep (by omega) habove hclimb.2 (by
      rw [hhalf]
      exact h)
    -- the parent of the entry is the hash of the entry and its sibling
    have hleft : 2 * (index / 2) < l.length := by omega
    have hright : 2 * (index / 2) + 1 < l.length := by omega
    obtain ⟨hnodeUp, hin⟩ := getElem?_layerUp (getElem?_eq_getElem hleft) (getElem?_eq_getElem hright)
    rw [hparent] at hnodeUp
    have heq := Option.some.inj hnodeUp
    by_cases hside : index % 2 = 0
    · rw [if_pos hside] at heq hclimb
      have hnodeEq := (nodeHash_inj_left hS hclimb.1 (hbelow _ hin)
        (hnode.trans (hsize _ (getElem_mem hleft)).symm) heq).1
      rw [hnodeEq, ← getElem?_eq_getElem hleft]
      congr 1
      omega
    · rw [if_neg hside] at heq hclimb
      have hnodeEq := (nodeHash_inj_right hS hclimb.1 (hbelow _ hin)
        (hnode.trans (hsize _ (getElem_mem hright)).symm) heq).2
      rw [hnodeEq, ← getElem?_eq_getElem hright]
      congr 1
      omega

/-- The siblings lead from a node of the list up to its root: the node and the first sibling, joined, are
the entries at the index and beside it, joined; and so on in the layers above. -/
def OnPath (H : Hash) : List Bytes → Bytes → ℕ → List Bytes → Prop
  | l, node, _, [] => l = [node]
  | l, node, index, sib :: siblings =>
    ∃ a b, l[2 * (index / 2)]? = some a ∧ l[2 * (index / 2) + 1]? = some b ∧
      (if index % 2 = 0 then node ++ sib else sib ++ node) = a ++ b ∧
        OnPath H (layerUp H l) (nodeHash H a b) (index / 2) siblings

theorem climbUp_of_onPath (h : OnPath H l node index siblings) :
    (layerUp H)^[siblings.length] l = [climbUp H node index siblings] := by
  induction siblings generalizing l node index with
  | nil => exact h
  | cons sib siblings ih =>
    obtain ⟨a, b, -, -, hjoin, hrest⟩ := h
    have hnode : (if index % 2 = 0 then nodeHash H node sib else nodeHash H sib node) =
        nodeHash H a b := by
      unfold nodeHash nodeInput
      rw [← hjoin]
      split_ifs <;> rfl
    rw [length_cons, Function.iterate_succ_apply, ih hrest, climbUp, hnode]

/-- A path from a node of the length of a hash starts at the entry with the index. -/
theorem getElem?_of_onPath (hsize : ∀ x ∈ l, x.length = H.size) (hnode : node.length = H.size)
    (hindex : index < 2 ^ siblings.length) (h : OnPath H l node index siblings) : l[index]? = some node := by
  cases siblings with
  | nil =>
    obtain rfl : index = 0 := by simpa using hindex
    rw [show l = [node] from h]
    rfl
  | cons sib siblings =>
    obtain ⟨a, b, ha, hb, hjoin, -⟩ := h
    by_cases hside : index % 2 = 0
    · rw [if_pos hside] at hjoin
      have hpos : 2 * (index / 2) = index := by omega
      rw [(append_inj hjoin (hnode.trans (hsize a (mem_of_getElem? ha)).symm)).1, ← hpos, ha]
    · rw [if_neg hside] at hjoin
      have hpos : 2 * (index / 2) + 1 = index := by omega
      rw [(append_inj' hjoin (hnode.trans (hsize b (mem_of_getElem? hb)).symm)).2, ← hpos, hb]

/-- **A climb that arrives is a path of the tree.** -/
theorem onPath_of_climbUp (hS : Set.InjOn H.digest S) (hl : l.length = 2 ^ siblings.length)
    (hsize : ∀ x ∈ l, x.length = H.size) (hindex : index < l.length)
    (hlayers : LayersIn H S l siblings.length) (hclimb : ∀ x ∈ climbUpInputs H node index siblings, x ∈ S)
    (h : (layerUp H)^[siblings.length] l = [climbUp H node index siblings]) :
    OnPath H l node index siblings := by
  induction siblings generalizing l node index with
  | nil => exact h
  | cons sib siblings ih =>
    rw [climbUpInputs, forall_mem_cons] at hclimb
    obtain ⟨hbelow, habove⟩ := hlayers.layer
    rw [length_cons, pow_succ] at hl
    have hup : (layerUp H l).length = 2 ^ siblings.length := by
      rw [length_layerUp]
      omega
    have hparent : (if index % 2 = 0 then nodeHash H node sib else nodeHash H sib node).length = H.size := by
      split_ifs <;> exact length_nodeHash H _ _
    rw [length_cons, Function.iterate_succ_apply, climbUp] at h
    have hlow : index / 2 < 2 ^ siblings.length := by omega
    have hpin := climbUp_pins hS (hup.trans (mul_one _).symm) (length_of_mem_layerUp hsize) hparent
      (by omega) habove hclimb.2 (by rw [h, Nat.div_eq_of_lt hlow]; rfl)
    have hleft : 2 * (index / 2) < l.length := by omega
    have hright : 2 * (index / 2) + 1 < l.length := by omega
    obtain ⟨hnodeUp, hin⟩ := getElem?_layerUp (getElem?_eq_getElem hleft) (getElem?_eq_getElem hright)
    rw [hpin] at hnodeUp
    have heq := Option.some.inj hnodeUp
    refine ⟨_, _, getElem?_eq_getElem hleft, getElem?_eq_getElem hright, ?_, ?_⟩
    · -- the two pairs are hashed to one parent
      by_cases hside : index % 2 = 0
      · rw [if_pos hside] at heq hclimb ⊢
        exact (List.cons.inj (hS hclimb.1 (hbelow _ hin) heq)).2
      · rw [if_neg hside] at heq hclimb ⊢
        exact (List.cons.inj (hS hclimb.1 (hbelow _ hin) heq)).2
    · rw [← heq]
      exact ih hup (length_of_mem_layerUp hsize) (by omega) habove hclimb.2 h

section
variable (H : Hash) (node : Bytes) (index : ℕ)

section
variable (siblings siblings' : List Bytes)

theorem climbUp_append : climbUp H node index (siblings ++ siblings') =
      climbUp H (climbUp H node index siblings) (index / 2 ^ siblings.length) siblings' := by
  induction siblings generalizing node index with
  | nil => simp [climbUp]
  | cons sib siblings ih =>
    rw [cons_append, climbUp, ih, climbUp, Nat.div_div_eq_div_mul, length_cons, pow_succ']

theorem climbUpInputs_append :
    climbUpInputs H node index (siblings ++ siblings') = climbUpInputs H node index siblings ++
      climbUpInputs H (climbUp H node index siblings) (index / 2 ^ siblings.length) siblings' := by
  induction siblings generalizing node index with
  | nil => simp [climbUp, climbUpInputs]
  | cons sib siblings ih =>
    rw [cons_append, climbUpInputs, ih, climbUpInputs, climbUp, Nat.div_div_eq_div_mul,
      length_cons, pow_succ', cons_append]

end

theorem climbUp_eq_node (hne : siblings ≠ []) : ∃ a b, nodeInput a b ∈ climbUpInputs H node index siblings ∧
      climbUp H node index siblings = nodeHash H a b := by
  induction siblings generalizing node index with
  | nil => exact absurd rfl hne
  | cons sib siblings ih =>
    rw [climbUpInputs]
    cases siblings with
    | nil =>
      by_cases hside : index % 2 = 0
      · exact ⟨node, sib, by simp [hside], by simp [climbUp, hside]⟩
      · exact ⟨sib, node, by simp [hside], by simp [climbUp, hside]⟩
    | cons sib' siblings =>
      obtain ⟨a, b, hin, heq⟩ := ih (if index % 2 = 0 then nodeHash H node sib else nodeHash H sib node)
        (index / 2) (by simp)
      exact ⟨a, b, mem_cons_of_mem _ hin, heq⟩

end

theorem length_iterate_layerUp {k : ℕ} (h : l.length = 2 ^ k * w) : ((layerUp H)^[k] l).length = w := by
  induction k generalizing l with
  | zero => simpa using h
  | succ k ih =>
    refine ih ?_
    rw [length_layerUp, h, pow_succ', mul_assoc]
    omega

theorem length_of_mem_iterate (h : ∀ x ∈ l, x.length = H.size) (k : ℕ) :
    ∀ x ∈ (layerUp H)^[k] l, x.length = H.size := by
  induction k with
  | zero => exact h
  | succ k ih =>
    rw [Function.iterate_succ_apply']
    exact length_of_mem_layerUp ih

theorem LayersIn.drop {l : List Bytes} {k depth : ℕ} (h : LayersIn H S l (k + depth)) :
    LayersIn H S ((layerUp H)^[k] l) depth := by
  intro j hj
  rw [← Function.iterate_add_apply]
  exact h (j + k) (by omega)

theorem node_of_mem_iterate {k : ℕ} (h : l.length = 2 ^ (k + 1) * w) (hlayers : LayersIn H S l (k + 1)) :
    ∀ x ∈ (layerUp H)^[k + 1] l, ∃ a b, nodeInput a b ∈ S ∧ x = nodeHash H a b := by
  intro x hx
  rw [Function.iterate_succ_apply'] at hx
  have hlen : ((layerUp H)^[k] l).length = 2 * w := by
    refine length_iterate_layerUp ?_
    rw [h]
    ring
  obtain ⟨a, b, hin, rfl⟩ := node_of_mem_layerUp (by omega) x hx
  exact ⟨a, b, hlayers k (by omega) _ hin, rfl⟩

section
variable (hS : Set.InjOn H.digest S) (hl : l.length = 2 ^ depth) (hleaves : ∀ x ∈ l, IsLeaf H S x)
  (hsize : ∀ x ∈ l, x.length = H.size) (hlayers : LayersIn H S l depth)
  (hindex : index < 2 ^ siblings.length) (hclimb : ∀ x ∈ climbUpInputs H node index siblings, x ∈ S)
  (h : ((layerUp H)^[depth] l)[0]? = some (climbUp H node index siblings))
include hS hl hleaves hsize hlayers hindex hclimb h

/-- No path is longer than the tree is deep: it would pass a leaf on its way, as a node. -/
theorem length_le_of_climbUp : siblings.length ≤ depth := by
  by_contra hgt
  obtain ⟨first, rest, rfl, hrest⟩ : ∃ first rest, siblings = first ++ rest ∧ rest.length = depth :=
    ⟨siblings.take (siblings.length - depth), siblings.drop (siblings.length - depth),
      (take_append_drop _ _).symm, by rw [length_drop]; omega⟩
  rw [length_append] at hgt hindex
  have hne : first ≠ [] := by
    rintro rfl
    simp only [length_nil] at hgt
    omega
  rw [climbUp_append] at h
  rw [climbUpInputs_append] at hclimb
  obtain ⟨a, b, hin, heq⟩ := climbUp_eq_node H node index hne
  have hin' := hclimb _ (mem_append_left _ hin)
  have hlow : index / 2 ^ first.length < 2 ^ rest.length := by
    rw [Nat.div_lt_iff_lt_mul (by positivity), ← pow_add, Nat.add_comm]
    exact hindex
  rw [← hrest] at hl hlayers h
  have hpin := climbUp_pins hS (by rw [hl, mul_one]) hsize
    (by rw [heq]; exact length_nodeHash H a b) (by rw [hl]; exact hlow) hlayers
    (fun x hx => hclimb x (mem_append_right _ hx)) (by rw [Nat.div_eq_of_lt hlow]; exact h)
  rw [heq] at hpin
  exact absurd rfl ((hleaves _ (mem_of_getElem? hpin)).ne_node hS hin')

/-- **The root binds the depth.** From a leaf, only a path as long as the tree is deep arrives. -/
theorem length_of_climbUp (hnode : IsLeaf H S node) (hnodeSize : node.length = H.size) :
    siblings.length = depth := by
  have hle := length_le_of_climbUp hS hl hleaves hsize hlayers hindex hclimb h
  by_contra hne
  -- a short path starts at an inner node
  obtain ⟨k, rfl⟩ : ∃ k, depth = siblings.length + (k + 1) := ⟨depth - siblings.length - 1, by omega⟩
  rw [Function.iterate_add_apply] at h
  have hlen : ((layerUp H)^[k + 1] l).length = 2 ^ siblings.length * 1 :=
    length_iterate_layerUp (by rw [hl]; ring)
  have hpin := climbUp_pins hS hlen (length_of_mem_iterate hsize _) hnodeSize (by omega)
    (LayersIn.drop (by rwa [Nat.add_comm] at hlayers)) hclimb
    (by rw [Nat.div_eq_of_lt hindex]; exact h)
  obtain ⟨a, b, hin, heq⟩ := node_of_mem_iterate (w := 2 ^ siblings.length)
    (by rw [hl]; ring) (fun j hj => hlayers j (by omega)) node (mem_of_getElem? hpin)
  exact absurd heq (hnode.ne_node hS hin)

end

/-! ### The root -/

variable {l' : List Bytes}

section
variable (hS : Set.InjOn H.digest S) (hlen : l.length = l'.length) (hsize : ∀ x ∈ l, x.length = H.size)
  (hsize' : ∀ x ∈ l', x.length = H.size)
include hS hlen hsize hsize'

theorem layerUp_inj (hin : ∀ x ∈ layerInputs l, x ∈ S) (hin' : ∀ x ∈ layerInputs l', x ∈ S)
    (h : layerUp H l = layerUp H l') : l = l' := by
  fun_induction layerUp H l generalizing l' with
  | case1 left right rest ih =>
    match l', hlen with
    | left' :: right' :: rest', hlen =>
      obtain ⟨hnode, hrest⟩ := List.cons.inj h
      simp only [layerInputs, forall_mem_cons] at hin hin' hsize hsize'
      obtain ⟨rfl, rfl⟩ := nodeHash_inj_left hS hin.1 hin'.1 (hsize.1.trans hsize'.1.symm) hnode
      simp only [length_cons, Nat.add_right_cancel_iff] at hlen
      rw [ih hlen hsize.2.2 hsize'.2.2 hin.2 hin'.2 hrest]
  | case2 rest hrest =>
    match rest, l', hlen, hrest with
    | [], [], _, _ => rfl
    | [_], [_], _, _ => exact h
    | a :: b :: r, _, _, hrest => exact absurd rfl (hrest a b r)

theorem iterate_layerUp_inj (hin : LayersIn H S l depth) (hin' : LayersIn H S l' depth)
    (h : (layerUp H)^[depth] l = (layerUp H)^[depth] l') : l = l' := by
  induction depth generalizing l l' with
  | zero => exact h
  | succ depth ih =>
    refine layerUp_inj hS hlen hsize hsize' hin.layer.1 hin'.layer.1 ?_
    refine ih ?_ (length_of_mem_layerUp hsize) (length_of_mem_layerUp hsize') hin.layer.2 hin'.layer.2 h
    rw [length_layerUp, length_layerUp, hlen]

end

/-- **The root binds the leaves.** -/
theorem root_inj (hS : Set.InjOn H.digest S) {depth' : ℕ} (hl : l.length = 2 ^ depth)
    (hl' : l'.length = 2 ^ depth') (hleaves : ∀ x ∈ l, IsLeaf H S x)
    (hleaves' : ∀ x ∈ l', IsLeaf H S x) (hin : LayersIn H S l depth) (hin' : LayersIn H S l' depth')
    (h : (layerUp H)^[depth] l = (layerUp H)^[depth'] l') : l = l' := by
  wlog hle : depth ≤ depth' generalizing depth depth' l l'
  · exact (this hl' hl hleaves' hleaves hin' hin h.symm (by omega)).symm
  have hsize : ∀ {l : List Bytes}, (∀ x ∈ l, IsLeaf H S x) → ∀ x ∈ l, x.length = H.size := by
    intro l hleaves x hx
    obtain ⟨input, -, -, rfl⟩ := hleaves x hx
    exact H.length_digest input
  obtain ⟨k, rfl⟩ : ∃ k, depth' = depth + k := ⟨depth' - depth, by omega⟩
  rw [Function.iterate_add_apply] at h
  have hlen : ((layerUp H)^[k] l').length = 2 ^ depth :=
    length_iterate_layerUp (by rw [hl']; ring)
  have heq := iterate_layerUp_inj hS (hl.trans hlen.symm) (hsize hleaves)
    (length_of_mem_iterate (hsize hleaves') k) hin (LayersIn.drop (by rwa [Nat.add_comm] at hin')) h
  cases k with
  | zero => exact heq
  | succ k =>
    -- the leaves of the shallow tree would be nodes of the deep one
    have hpos : 0 < l.length := by rw [hl]; positivity
    obtain ⟨a, b, hnode, he⟩ := node_of_mem_iterate (k := k) (w := 2 ^ depth)
      (by rw [hl']; ring) (fun j hj => hin' j (by omega)) (l.get ⟨0, hpos⟩)
      (by rw [← heq]; exact get_mem _ _)
    exact absurd he ((hleaves _ (get_mem _ _)).ne_node hS hnode)

/-- Lists of hashed strings with the same digests are equal. -/
theorem map_digest_inj (hS : Set.InjOn H.digest S) (hl : ∀ x ∈ l, x ∈ S) (hl' : ∀ x ∈ l', x ∈ S)
    (h : l.map H.digest = l'.map H.digest) : l = l' := by
  induction l generalizing l' with
  | nil => exact (map_eq_nil_iff.mp h.symm).symm
  | cons x l ih =>
    cases l' with
    | nil => cases h
    | cons x' l' =>
      rw [forall_mem_cons] at hl hl'
      obtain ⟨hx, hrest⟩ := List.cons.inj h
      rw [hS hl.1 hl'.1 hx, ih hl.2 hl'.2 hrest]

/-! ### The padded list -/

theorem length_padded (pad : Bytes) (leaves : List Bytes) :
    (padded pad leaves).length = 2 ^ Nat.clog 2 leaves.length := by
  have hle : leaves.length ≤ 2 ^ Nat.clog 2 leaves.length := Nat.le_pow_clog (by omega) _
  rw [padded, length_append, length_replicate]
  omega

variable {pad : Bytes} {leaves : List Bytes}

theorem mem_padded {x : Bytes} (h : x ∈ padded pad leaves) : x ∈ leaves ∨ x = pad := by
  rw [padded, mem_append] at h
  exact h.imp_right eq_of_mem_replicate

/-- The padding is no leaf, so the leaves can be read off the padded list. -/
theorem padded_inj {leaves' : List Bytes} (h : pad ∉ leaves) (h' : pad ∉ leaves')
    (heq : padded pad leaves = padded pad leaves') : leaves = leaves' := by
  have hfilter : ∀ {leaves : List Bytes}, pad ∉ leaves → (padded pad leaves).filter (· ≠ pad) = leaves := by
    intro leaves h
    rw [padded, filter_append, filter_replicate]
    simp only [ne_eq, not_true, decide_false, Bool.false_eq_true, if_false, append_nil]
    rw [filter_eq_self]
    intro x hx
    exact decide_eq_true fun he => h (he ▸ hx)
  rw [← hfilter h, ← hfilter h', heq]

theorem layersIn_of_fixedInputs (h : ∀ x ∈ fixedInputs H pad leaves, x ∈ S) :
    LayersIn H S (padded pad leaves) (Nat.clog 2 leaves.length) := by
  intro k hk x hx
  exact h x (mem_flatMap.mpr ⟨k, mem_range.mpr hk, hx⟩)

/-- The root is the one node of the top layer. -/
theorem top_eq_root (H : Hash) (pad : Bytes) (leaves : List Bytes) :
    (layerUp H)^[Nat.clog 2 leaves.length] (padded pad leaves) = [fixedMerkleRoot H pad leaves] := by
  have hlen : ((layerUp H)^[Nat.clog 2 leaves.length] (padded pad leaves)).length = 1 :=
    length_iterate_layerUp (by rw [length_padded, mul_one])
  obtain ⟨x, hx⟩ := length_eq_one_iff.mp hlen
  rw [fixedMerkleRoot, hx]
  rfl

end XChainIndexer.Lib.FixedTree
