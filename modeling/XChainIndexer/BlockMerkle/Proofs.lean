import XChainIndexer.BlockMerkle.Content
import XChainIndexer.Lib.Outcome
import XChainIndexer.StateTree.Reference

/-! # What a proof of a leaf shows

`verifyFixedMerkleProof` climbs as far as there are siblings and takes the side of each from the low bit
of the index, whatever is left of the index at the end, and it does not look at the length of the leaf. So
it accepts the paths of the tree (`OnPath`) from any layer on, with any bits above those of the path, and
wherever the bytes of a pair are cut into leaf and sibling.

`proof_sound`: these are all the proofs that it accepts, and what it accepts is the leaf at the index
unless it is such a path cut short, with an index above its positions or with a leaf of another length
(`stray_proofs`). -/

namespace XChainIndexer.BlockMerkle.Proofs

open Lib.MerklePath Lib.FixedTree Option Lib.Outcome SnapshotProof.Encoding BlockMerkle.Content

variable {H : Hash} {S : Set Bytes}

/-! ### The loop as a climb -/

theorem half_emod (x : ℤ) (m : ℕ) : x % 2 ^ (m + 1) / 2 = x / 2 % 2 ^ m := by
  rw [pow_succ', Int.emod_def, Int.emod_def, ← Int.ediv_ediv_of_nonneg (by norm_num : (0 : ℤ) ≤ 2), mul_assoc]
  generalize (2 : ℤ) ^ m * (x / 2 / 2 ^ m) = c
  omega

theorem toInt32_half (x : ℤ) {m : ℕ} (hm : m ≤ 31) : toInt32 x / 2 % 2 ^ m = x / 2 % 2 ^ m := by
  have hread : toInt32 x / 2 = x / 2 + 2 ^ 31 * -((x + 2 ^ 31) / 2 ^ 32) := by
    unfold toInt32
    omega
  have hdvd : (2 : ℤ) ^ m ∣ 2 ^ 31 := pow_dvd_pow 2 hm
  rw [hread, Int.add_emod, Int.emod_eq_zero_of_dvd (hdvd.mul_right _), add_zero, Int.emod_emod]

/-- A path of at most 31 siblings reads the low bits of the index. -/
theorem proofNode_eq_climbUp (H : Hash) (node : Bytes) (idx : ℤ) {siblings : List Bytes}
    (hlen : siblings.length ≤ 31) :
    proofNode H node idx siblings = climbUp H node (idx % 2 ^ siblings.length).toNat siblings ∧
      proofInputs H node idx siblings =
        climbUpInputs H node (idx % 2 ^ siblings.length).toNat siblings := by
  induction siblings generalizing node idx with
  | nil => exact ⟨rfl, rfl⟩
  | cons sib siblings ih =>
    rw [List.length_cons] at hlen ⊢
    have hlow : (0 : ℤ) ≤ idx % 2 ^ (siblings.length + 1) := Int.emod_nonneg _ (by positivity)
    have hbit : toInt32 idx % 2 = 0 ↔ (idx % 2 ^ (siblings.length + 1)).toNat % 2 = 0 := by
      have hemod : idx % 2 ^ (siblings.length + 1) % 2 = idx % 2 :=
        Int.emod_emod_of_dvd _ (dvd_pow_self 2 (Nat.succ_ne_zero _))
      unfold toInt32
      omega
    have hhalf : (idx % 2 ^ (siblings.length + 1)).toNat / 2 =
        (toInt32 idx / 2 % 2 ^ siblings.length).toNat := by
      rw [toInt32_half idx (by omega), ← half_emod]
      omega
    simp only [proofNode, proofInputs, climbUp, climbUpInputs, hbit, hhalf]
    obtain ⟨hnode, hinputs⟩ := ih (if (idx % 2 ^ (siblings.length + 1)).toNat % 2 = 0 then
      nodeHash H node sib else nodeHash H sib node) (toInt32 idx / 2) (by omega)
    exact ⟨hnode, by rw [hinputs]⟩

theorem exists_climbUp (H : Hash) (node : Bytes) (idx : ℤ) (siblings : List Bytes) :
    ∃ index < 2 ^ siblings.length, proofNode H node idx siblings = climbUp H node index siblings ∧
      proofInputs H node idx siblings = climbUpInputs H node index siblings := by
  induction siblings generalizing node idx with
  | nil => exact ⟨0, by simp, rfl, rfl⟩
  | cons sib siblings ih =>
    obtain ⟨rest, hlt, hnode, hinputs⟩ :=
      ih (if toInt32 idx % 2 = 0 then nodeHash H node sib else nodeHash H sib node) (toInt32 idx / 2)
    by_cases hside : toInt32 idx % 2 = 0
    · refine ⟨2 * rest, by rw [List.length_cons]; omega, ?_, ?_⟩
      · rw [proofNode, climbUp, hnode, if_pos hside, if_pos (by omega), Nat.mul_div_cancel_left _ (by omega)]
      · rw [proofInputs, climbUpInputs, hinputs, if_pos hside, if_pos hside, if_pos (by omega),
          if_pos (by omega), Nat.mul_div_cancel_left _ (by omega)]
    · have hhalf : (2 * rest + 1) / 2 = rest := by omega
      refine ⟨2 * rest + 1, by rw [List.length_cons]; omega, ?_, ?_⟩
      · rw [proofNode, climbUp, hnode, if_neg hside, if_neg (by omega), hhalf]
      · rw [proofInputs, climbUpInputs, hinputs, if_neg hside, if_neg hside, if_neg (by omega),
          if_neg (by omega), hhalf]

/-! ### The tree of a block -/

theorem head_of_leafInput {row : Row} {input : Bytes} (h : row.leafInput = some input) :
    input.head? = some 0 := by
  obtain ⟨fields, -, rfl⟩ := map_eq_some_iff.mp h
  rfl

section
variable {b : BlockRows} {leaves : List Bytes} (hb : blockMerkleLeaves H b = some leaves)
  (hhashed : ∀ x ∈ b.hashed H, x ∈ S)
include hb hhashed

/-- The leaves of a block are the hashes of its rows, and so is the padding that of its text. -/
theorem isLeaf_of_mem_padded (hempty : emptyInput ∈ S) : ∀ x ∈ padded (emptyLeaf H) leaves, IsLeaf H S x := by
  obtain ⟨inputs, hinputs, rfl⟩ := map_eq_some_iff.mp hb
  intro x hx
  rcases mem_padded hx with hx | rfl
  · obtain ⟨input, hin, rfl⟩ := List.mem_map.mp hx
    refine ⟨input, hhashed input (by simp [BlockRows.hashed, hinputs, hin]), ?_, rfl⟩
    obtain ⟨row, -, hrow⟩ := (mem_of_mapM hinputs).2 _ hin
    simp [head_of_leafInput hrow]
  · exact ⟨emptyInput, hempty, by decide, rfl⟩

theorem layersIn_of_hashed : LayersIn H S (padded (emptyLeaf H) leaves) (Nat.clog 2 leaves.length) := by
  refine layersIn_of_fixedInputs fun x hx => hhashed x ?_
  obtain ⟨inputs, hinputs, rfl⟩ := map_eq_some_iff.mp hb
  simp only [BlockRows.hashed, hinputs]
  exact List.mem_append_right _ hx

end

theorem size_of_isLeaf {x : Bytes} (h : IsLeaf H S x) : x.length = H.size := by
  obtain ⟨input, -, -, rfl⟩ := h
  exact H.length_digest input

/-- The proof is a path of the tree, from a node at whatever layer its length leads down to, and at the
position that the low bits of the index give. -/
def Genuine (H : Hash) (leaves : List Bytes) (leaf : Bytes) (index : ℤ) (siblings : List Bytes) : Prop :=
  siblings.length ≤ Nat.clog 2 leaves.length ∧
    OnPath H ((layerUp H)^[Nat.clog 2 leaves.length - siblings.length] (padded (emptyLeaf H) leaves)) leaf
      (index % 2 ^ siblings.length).toNat siblings

section
variable (hS : Set.InjOn H.digest S) {b : BlockRows} {leaves : List Bytes}
  (hb : blockMerkleLeaves H b = some leaves) (hcount : leaves.length ≤ 2 ^ 30)
  (hhashed : ∀ x ∈ b.hashed H, x ∈ S) (hempty : emptyInput ∈ S) {leaf : Bytes} {index : ℤ}
  {siblings : List Bytes} (hproof : ∀ x ∈ proofInputs H leaf index siblings, x ∈ S)
include hS hb hhashed hempty hproof

/-- What arrives at the root is no longer than the tree is deep, and of its depth from a leaf. -/
theorem length_of_accepted (hroot : proofNode H leaf index siblings = blockMerkleRoot H leaves) :
    siblings.length ≤ Nat.clog 2 leaves.length ∧
      (IsLeaf H S leaf → siblings.length = Nat.clog 2 leaves.length) := by
  have hleaves := isLeaf_of_mem_padded hb hhashed hempty
  have hsize : ∀ x ∈ padded (emptyLeaf H) leaves, x.length = H.size := fun x hx =>
    size_of_isLeaf (hleaves x hx)
  have hlayers := layersIn_of_hashed hb hhashed
  -- whatever bits of the index the loop reads
  obtain ⟨index', hlt, hnode, hinputs⟩ := exists_climbUp H leaf index siblings
  rw [hinputs] at hproof
  have htop : ((layerUp H)^[Nat.clog 2 leaves.length] (padded (emptyLeaf H) leaves))[0]? =
      some (climbUp H leaf index' siblings) := by
    rw [top_eq_root, ← hnode, hroot]
    rfl
  exact ⟨length_le_of_climbUp hS (length_padded _ _) hleaves hsize hlayers hlt hproof htop, fun hleaf =>
    length_of_climbUp hS (length_padded _ _) hleaves hsize hlayers hlt hproof htop hleaf
      (size_of_isLeaf hleaf)⟩

include hcount

/-- **The proofs that are accepted** are the paths of the tree. -/
theorem accepted_iff_genuine : verifyFixedMerkleProof H (blockMerkleRoot H leaves) leaf index siblings = true ↔
    Genuine H leaves leaf index siblings := by
  have hsize : ∀ x ∈ padded (emptyLeaf H) leaves, x.length = H.size := fun x hx =>
    size_of_isLeaf (isLeaf_of_mem_padded hb hhashed hempty x hx)
  have hshallow : Nat.clog 2 leaves.length ≤ 30 := Nat.clog_le_of_le_pow hcount
  have htop := top_eq_root H (emptyLeaf H) leaves
  rw [verifyFixedMerkleProof, decide_eq_true_eq]
  constructor
  · intro hroot
    have hle := (length_of_accepted hS hb hhashed hempty hproof hroot).1
    have hsplit := Nat.sub_add_cancel hle
    obtain ⟨hnode, hinputs⟩ := proofNode_eq_climbUp H leaf index (hle.trans (by omega))
    have hlen : ((layerUp H)^[Nat.clog 2 leaves.length - siblings.length]
        (padded (emptyLeaf H) leaves)).length = 2 ^ siblings.length :=
      length_iterate_layerUp (by rw [length_padded, ← pow_add, hsplit])
    have hlow : (index % 2 ^ siblings.length).toNat < 2 ^ siblings.length := by
      have hlt : index % 2 ^ siblings.length < 2 ^ siblings.length := Int.emod_lt_of_pos _ (by positivity)
      zify
      omega
    have hlayers := layersIn_of_hashed hb hhashed
    refine ⟨hle, onPath_of_climbUp hS hlen (length_of_mem_iterate hsize _) (by rwa [hlen])
      (LayersIn.drop (by rwa [hsplit])) (hinputs ▸ hproof) ?_⟩
    rw [← Function.iterate_add_apply, Nat.add_sub_of_le hle, htop, ← hnode, hroot]
    rfl
  · rintro ⟨hle, hpath⟩
    have hclimb := climbUp_of_onPath hpath
    rw [← Function.iterate_add_apply, Nat.add_sub_of_le hle, htop] at hclimb
    rw [(proofNode_eq_climbUp H leaf index (hle.trans (by omega))).1]
    exact (List.cons.inj hclimb).1.symm

end

/-- **What an accepted proof shows.** The paths of the tree are accepted and nothing else; and an accepted
proof has the leaf at the index, unless it is a path that does not start at a leaf, with an index that has
more bits, or with a leaf that has not the length of a hash. -/
theorem proof_sound (hS : Set.InjOn H.digest S) {b : BlockRows} {leaves : List Bytes}
    (hb : blockMerkleLeaves H b = some leaves) (hcount : leaves.length ≤ 2 ^ 30)
    (hhashed : ∀ x ∈ b.hashed H, x ∈ S) (hempty : emptyInput ∈ S) {leaf : Bytes} {index : ℤ}
    {siblings : List Bytes} (hproof : ∀ x ∈ proofInputs H leaf index siblings, x ∈ S) :
    (verifyFixedMerkleProof H (blockMerkleRoot H leaves) leaf index siblings = true ↔
      Genuine H leaves leaf index siblings) ∧
    ((verifyFixedMerkleProof H (blockMerkleRoot H leaves) leaf index siblings = true →
        0 ≤ index ∧ index < (padded (emptyLeaf H) leaves).length ∧
          (padded (emptyLeaf H) leaves)[index.toNat]? = some leaf) ↔
      (Genuine H leaves leaf index siblings → siblings.length = Nat.clog 2 leaves.length ∧
        0 ≤ index ∧ index < 2 ^ siblings.length ∧ leaf.length = H.size)) := by
  have hiff := accepted_iff_genuine hS hb hcount hhashed hempty hproof
  have hleaves := isLeaf_of_mem_padded hb hhashed hempty
  have hwidth : ((padded (emptyLeaf H) leaves).length : ℤ) = 2 ^ Nat.clog 2 leaves.length := by
    rw [length_padded]
    norm_cast
  refine ⟨hiff, fun hshows hgenuine => ?_, fun hshape haccepted => ?_⟩
  · have haccepted := hiff.mpr hgenuine
    obtain ⟨h0, hlt, hleaf⟩ := hshows haccepted
    have hisLeaf := hleaves leaf (List.mem_of_getElem? hleaf)
    have hdepth := (length_of_accepted hS hb hhashed hempty hproof (of_decide_eq_true haccepted)).2 hisLeaf
    exact ⟨hdepth, h0, by rwa [hdepth, ← hwidth], size_of_isLeaf hisLeaf⟩
  · have hgenuine := hiff.mp haccepted
    obtain ⟨hdepth, h0, hlt, hsize⟩ := hshape hgenuine
    have hpath := hgenuine.2
    rw [hdepth, Nat.sub_self, ← hdepth, Int.emod_eq_of_lt h0 hlt] at hpath
    have hlow : index.toNat < 2 ^ siblings.length := by
      zify
      omega
    exact ⟨h0, by rwa [hwidth, ← hdepth],
      getElem?_of_onPath (fun x hx => size_of_isLeaf (hleaves x hx)) hsize hlow hpath⟩

/-! ### Proofs that are accepted for no leaf -/

section Stray

open StateTree.Reference

def threeActions : BlockRows :=
  ⟨[], [], [], [⟨1, some 1, some ['S']⟩, ⟨2, some 2, some ['T']⟩, ⟨3, none, some ['U']⟩], [], [], [], [],
    [], []⟩

def threeLeaves : List Bytes := (blockMerkleLeaves wordHash threeActions).getD []

def leafAt (i : ℕ) : Bytes := (padded (emptyLeaf wordHash) threeLeaves).getD i []

/-- The two nodes below the root. -/
def leftNode : Bytes := nodeHash wordHash (leafAt 0) (leafAt 1)

def rightNode : Bytes := nodeHash wordHash (leafAt 2) (leafAt 3)

/-- What is hashed for the block and for the proofs below. -/
def strayInputs : List Bytes :=
  (emptyInput :: threeActions.hashed wordHash ++ proofInputs wordHash (leafAt 0) 4 [leafAt 1, rightNode] ++
    proofInputs wordHash (leafAt 0) 0 [leafAt 1, rightNode] ++
    proofInputs wordHash leftNode 0 [rightNode]).dedup

theorem injOn_strayInputs : Set.InjOn wordHash.digest { x | x ∈ strayInputs } :=
  injOn_of_nodup (by decide +kernel)

theorem threeLeaves_eq : blockMerkleLeaves wordHash threeActions = some threeLeaves := by
  rfl

/-- **Proofs that show nothing.** In a tree of four positions, the first leaf is accepted at index 4, and at
index 0 an inner node is accepted as the leaf, and the first leaf with a byte of its sibling. -/
theorem stray_proofs :
    Set.InjOn wordHash.digest { x | x ∈ strayInputs } ∧
      blockMerkleLeaves wordHash threeActions = some threeLeaves ∧
      (∀ x ∈ emptyInput :: threeActions.hashed wordHash, x ∈ strayInputs) ∧
      (padded (emptyLeaf wordHash) threeLeaves).length = 4 ∧
      ((∀ x ∈ proofInputs wordHash (leafAt 0) 4 [leafAt 1, rightNode], x ∈ strayInputs) ∧
        verifyFixedMerkleProof wordHash (blockMerkleRoot wordHash threeLeaves) (leafAt 0) 4
          [leafAt 1, rightNode] = true) ∧
      (∀ x ∈ proofInputs wordHash leftNode 0 [rightNode], x ∈ strayInputs) ∧
        verifyFixedMerkleProof wordHash (blockMerkleRoot wordHash threeLeaves) leftNode 0
          [rightNode] = true ∧
        leftNode ∉ padded (emptyLeaf wordHash) threeLeaves ∧
      verifyFixedMerkleProof wordHash (blockMerkleRoot wordHash threeLeaves)
          (leafAt 0 ++ (leafAt 1).take 1) 0 [(leafAt 1).drop 1, rightNode] = true ∧
        leafAt 0 ++ (leafAt 1).take 1 ∉ padded (emptyLeaf wordHash) threeLeaves := by
  refine ⟨injOn_strayInputs, threeLeaves_eq, ?_, ?_, ⟨?_, ?_⟩, ?_, ?_, ?_, ?_, ?_⟩
  all_goals decide +kernel

theorem proof_sound_threeActions :
    verifyFixedMerkleProof wordHash (blockMerkleRoot wordHash threeLeaves) (leafAt 0) 0
        [leafAt 1, rightNode] = true ∧
      (padded (emptyLeaf wordHash) threeLeaves)[(0 : ℤ).toNat]? = some (leafAt 0) := by
  have hsound := proof_sound injOn_strayInputs threeLeaves_eq (by decide +kernel)
    (show ∀ x ∈ threeActions.hashed wordHash, x ∈ strayInputs by decide +kernel)
    (show emptyInput ∈ strayInputs by decide +kernel)
    (show ∀ x ∈ proofInputs wordHash (leafAt 0) 0 [leafAt 1, rightNode], x ∈ strayInputs by
      decide +kernel)
  have haccepted : verifyFixedMerkleProof wordHash (blockMerkleRoot wordHash threeLeaves) (leafAt 0) 0
      [leafAt 1, rightNode] = true := by decide +kernel
  refine ⟨haccepted, (hsound.2.mpr (fun _ => ⟨?_, ?_, ?_, ?_⟩) haccepted).2.2⟩
  all_goals decide +kernel

end Stray

end XChainIndexer.BlockMerkle.Proofs
