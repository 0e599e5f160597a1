import XChainIndexer.Lib.Outcome
import XChainIndexer.StateTree.Reference

/-! # Compressed proofs

The proof of a key is the list of the siblings of its path. On the wire it is compressed: a bitmap says at
which depths the sibling is not that of an empty subtree, and those siblings follow in order
(`compressSmtProof`, `decompressSmtProof`, `verifyCompressedSmtProof` of `consensus/merkle.js`). Main
result: `compressed_proofs`. -/

namespace XChainIndexer.StateTree.Proofs

open Lib.MerklePath SnapshotProof.Encoding List Option StateTree.Engine StateTree.Reference

variable {Hs : Hash}

/-- A proof as it comes. A sibling is given by its bytes, `none` if it cannot be made into any. -/
structure Compressed where
  bitmap : Bytes
  siblings : List (Option Bytes)

/-- `EMPTY[SMT_DEPTH - 1 - d]`. -/
def emptySibling (Hs : Hash) (d : ℕ) : Bytes := empty Hs emptyInput (depth Hs - 1 - d)

/-! ### Building -/

/-- `bitmap[d >> 3] |= (1 << (7 - (d & 7)))`. -/
def setBit (bitmap : Bytes) (d : ℕ) : Bytes :=
  bitmap.modify (d / 8) fun x => x ||| UInt8.ofNat (2 ^ (7 - d % 8))

/-- The siblings that are not empty, with their depths. -/
def realSiblings (Hs : Hash) (siblings : List Bytes) : List (Bytes × ℕ) :=
  siblings.zipIdx.filter fun p => p.1 ≠ emptySibling Hs p.2

def compressSmtProof (Hs : Hash) (siblings : List Bytes) : Compressed where
  bitmap := ((realSiblings Hs siblings).map Prod.snd).foldl setBit (List.replicate Hs.size 0)
  siblings := (realSiblings Hs siblings).map fun p => some p.1

/-- The siblings of a path below the entries. -/
def provePath (Hs : Hash) : List Entry → List Bool → List Bytes
  | _, [] => []
  | es, b :: key => smtNode Hs emptyInput key.length (side (!b) es) :: provePath Hs (side b es) key

/-- `prove` of the reference. -/
def proveReference (t : SparseMerkleTree Hs) (key : Digest Hs) : Option (Digest Hs) × Compressed :=
  (t.get key, compressSmtProof Hs (provePath Hs t.entries (path key)))

/-- `prove` of the persistent tree. -/
def provePersistent (e : PersistentSMT (Digest Hs)) (root key : Digest Hs) :
    Option (Digest Hs) × Compressed :=
  let (leaf, siblings) := prove (nodes Hs) e root (path key)
  (leaf, compressSmtProof Hs (siblings.map Subtype.val))

/-! ### Verifying -/

/-- A byte that the bitmap does not have counts as zero. -/
def bitmapBit (bitmap : Bytes) (d : ℕ) : Bool := (bitmap.getD (d / 8) 0).toNat.testBit (7 - d % 8)

/-- The siblings from a depth on; `none` if there are too few or too many of them. -/
def decompressFrom (Hs : Hash) (bitmap : Bytes) : ℕ → ℕ → List (Option Bytes) → Option (List (Option Bytes))
  | _, 0, [] => some []
  | _, 0, _ :: _ => none
  | d, n + 1, real =>
    if bitmapBit bitmap d then
      match real with
      | [] => none
      | sib :: real => (decompressFrom Hs bitmap (d + 1) n real).map (sib :: ·)
    else (decompressFrom Hs bitmap (d + 1) n real).map (some (emptySibling Hs d) :: ·)

def decompressSmtProof (Hs : Hash) (c : Compressed) : Option (List (Option Bytes)) :=
  decompressFrom Hs c.bitmap 0 (depth Hs) c.siblings

/-- `none` where it throws. -/
def verifySmtProof (root : Bytes) (key : Digest Hs) (leaf : Option (Digest Hs))
    (siblings : List (Option Bytes)) : Option Bool :=
  if siblings.length ≠ depth Hs then some false
  else (siblings.mapM id).map fun siblings =>
    climb Hs (leaf.getD (nodes Hs).empty0).1 (path key) siblings = root

def verifyCompressedSmtProof (root : Bytes) (key : Digest Hs) (leaf : Option (Digest Hs))
    (c : Compressed) : Option Bool := do
  let siblings ← decompressSmtProof Hs c
  verifySmtProof root key leaf siblings

/-- What the verification hashes. -/
def verifyInputs (key : Digest Hs) (leaf : Option (Digest Hs)) (c : Compressed) : List Bytes :=
  match (decompressSmtProof Hs c).bind fun siblings => siblings.mapM id with
  | none => []
  | some siblings => climbInputs Hs (leaf.getD (nodes Hs).empty0).1 (path key) siblings

/-! ### The bitmap -/

theorem testBit_setBit (x : UInt8) {i : ℕ} (hi : i < 8) (j : ℕ) :
    (x ||| UInt8.ofNat (2 ^ i)).toNat.testBit j = (x.toNat.testBit j || decide (i = j)) := by
  have hlt : 2 ^ i < 2 ^ 8 := Nat.pow_lt_pow_right (by omega) hi
  rw [UInt8.toNat_or, Nat.testBit_or, UInt8.toNat_ofNat_of_lt' hlt, Nat.testBit_two_pow]

theorem length_setBit (bitmap : Bytes) (d : ℕ) : (setBit bitmap d).length = bitmap.length :=
  length_modify _ _ _

variable {bitmap : Bytes}

theorem bitmapBit_setBit {d d' : ℕ} (hd : d < 8 * bitmap.length) :
    bitmapBit (setBit bitmap d) d' = (bitmapBit bitmap d' || decide (d = d')) := by
  unfold bitmapBit setBit
  rw [getD_eq_getElem?_getD, getElem?_modify, getD_eq_getElem?_getD]
  by_cases hbyte : d / 8 = d' / 8
  · have hlt : d' / 8 < bitmap.length := by omega
    have hiff : (7 - d % 8 = 7 - d' % 8) ↔ d = d' := by omega
    rw [getElem?_eq_getElem hlt]
    simp only [hbyte, if_true, Option.map_eq_map, Option.map_some, Option.getD_some]
    rw [testBit_setBit _ (by omega)]
    simp only [hiff]
  · have hne : d ≠ d' := fun h => hbyte (by rw [h])
    simp [hbyte, hne]

theorem bitmapBit_foldl {ds : List ℕ} (hds : ∀ d ∈ ds, d < 8 * bitmap.length) (d' : ℕ) :
    bitmapBit (ds.foldl setBit bitmap) d' = (bitmapBit bitmap d' || decide (d' ∈ ds)) := by
  induction ds generalizing bitmap with
  | nil => simp
  | cons d ds ih =>
    rw [forall_mem_cons] at hds
    rw [foldl_cons, ih (by rw [length_setBit]; exact hds.2), bitmapBit_setBit hds.1]
    simp [Bool.or_assoc, eq_comm]

theorem bitmapBit_zero (n d : ℕ) : bitmapBit (List.replicate n 0) d = false := by
  unfold bitmapBit
  rw [getD_eq_getElem?_getD, getElem?_replicate]
  split_ifs <;> simp

/-! ### Round trip -/

variable {siblings : List Bytes}

section
variable (hlen : siblings.length = depth Hs) {p : Bytes × ℕ} (hp : p ∈ siblings.zipIdx)
include hlen hp

theorem lt_depth_of_mem : p.2 < depth Hs := by
  have := snd_lt_of_mem_zipIdx hp
  omega

theorem bitmapBit_compress :
    bitmapBit (compressSmtProof Hs siblings).bitmap p.2 = decide (p.1 ≠ emptySibling Hs p.2) := by
  have hds : ∀ d ∈ (realSiblings Hs siblings).map Prod.snd,
      d < 8 * (List.replicate Hs.size (0 : UInt8)).length := by
    intro d hd
    obtain ⟨q, hq, rfl⟩ := mem_map.mp hd
    rw [length_replicate]
    exact lt_depth_of_mem hlen (mem_filter.mp hq).1
  have hmem : p.2 ∈ (realSiblings Hs siblings).map Prod.snd ↔ p.1 ≠ emptySibling Hs p.2 := by
    constructor
    · intro h
      obtain ⟨q, hq, he⟩ := mem_map.mp h
      obtain ⟨hqmem, hqne⟩ := mem_filter.mp hq
      -- a depth has one sibling
      have hqp : q = p := by
        have h1 := mem_zipIdx_iff_getElem?.mp hqmem
        have h2 := mem_zipIdx_iff_getElem?.mp hp
        rw [he, h2] at h1
        exact Prod.ext (some.inj h1).symm he
      rw [hqp] at hqne
      exact of_decide_eq_true hqne
    · intro h
      exact mem_map.mpr ⟨p, mem_filter.mpr ⟨hp, decide_eq_true h⟩, rfl⟩
  rw [compressSmtProof, bitmapBit_foldl hds, bitmapBit_zero]
  exact decide_eq_decide.mpr hmem

end

theorem decompressFrom_real {d : ℕ}
    (hbits : ∀ p ∈ siblings.zipIdx d, bitmapBit bitmap p.2 = decide (p.1 ≠ emptySibling Hs p.2)) :
    decompressFrom Hs bitmap d siblings.length
      (((siblings.zipIdx d).filter fun p => p.1 ≠ emptySibling Hs p.2).map fun p => some p.1) =
        some (siblings.map some) := by
  induction siblings generalizing d with
  | nil => rfl
  | cons sib siblings ih =>
    rw [zipIdx_cons, forall_mem_cons] at hbits
    obtain ⟨hbit, hrest⟩ := hbits
    rw [zipIdx_cons, length_cons]
    unfold decompressFrom
    rw [hbit]
    by_cases he : sib = emptySibling Hs d
    · rw [filter_cons_of_neg (by simp [he]), if_neg (by simp [he]), ih hrest, he]
      rfl
    · rw [filter_cons_of_pos (by simp [he]), if_pos (by simp [he]), map_cons]
      dsimp only
      rw [ih hrest]
      rfl

/-- **Round trip.** -/
theorem decompress_compress (hlen : siblings.length = depth Hs) :
    decompressSmtProof Hs (compressSmtProof Hs siblings) = some (siblings.map some) := by
  unfold decompressSmtProof
  rw [← hlen]
  exact decompressFrom_real fun p hp => bitmapBit_compress hlen hp

theorem mapM_id_some (l : List Bytes) : (l.map some).mapM id = some l := by
  induction l with
  | nil => rfl
  | cons x l ih => simp [mapM_cons, ih]

variable {key : Digest Hs} {leaf : Option (Digest Hs)}

theorem verify_compress {root : Bytes} (hlen : siblings.length = depth Hs) :
    verifyCompressedSmtProof root key leaf (compressSmtProof Hs siblings) =
      some (decide (climb Hs (leaf.getD (nodes Hs).empty0).1 (path key) siblings = root)) := by
  unfold verifyCompressedSmtProof verifySmtProof
  rw [decompress_compress hlen]
  simp only [bind_eq_bind, bind_some, length_map, hlen, ne_eq, not_true_eq_false,
    if_false, mapM_id_some, map_some]

/-! ### Honest proofs -/

section
variable (Hs : Hash) (es : List Entry) (key : List Bool)

theorem length_provePath : (provePath Hs es key).length = key.length := by
  induction key generalizing es with
  | nil => rfl
  | cons b key ih => rw [provePath, length_cons, ih, length_cons]

theorem climb_provePath : climb Hs (smtNode Hs emptyInput 0 (under key es)) key (provePath Hs es key) =
      smtNode Hs emptyInput key.length es := by
  induction key generalizing es with
  | nil => rfl
  | cons b key ih =>
    rw [provePath, climb, under, ih, length_cons, smtNode_succ]
    cases b <;> rfl

end

theorem smtNode_under (t : SparseMerkleTree Hs) (key : Digest Hs) :
    smtNode Hs emptyInput 0 (under (path key) t.entries) = ((t.get key).getD (nodes Hs).empty0).1 := by
  have hlen : ∀ x ∈ under (path key) t.entries, x.1.length = 0 := by
    intro x hx
    have hmem := SparseMerkleTree.length_entries (mem_under.mp hx)
    rw [length_append, length_path] at hmem
    omega
  have hlookup : ∀ (p : List Bool) (es : List Entry), (under p es).lookup [] = es.lookup p := by
    intro p
    induction p with
    | nil => exact fun es => rfl
    | cons b p ih => exact fun es => (ih (side b es)).trans (lookup_side b es p)
  rw [smtNode_eq_root hlen, ← SparseMerkleTree.leaf_path, ← SparseMerkleTree.leavesOf_entries]
  show leavesOf Hs (under (path key) t.entries) [] = _
  rw [leavesOf, hlookup, leavesOf]

theorem coe_climb (v : Digest Hs) (key : List Bool) (sibs : List (Digest Hs)) :
    (Smt.climb (nodes Hs) v key sibs).1.1 = climb Hs v.1 key (sibs.map Subtype.val) := by
  induction key generalizing sibs with
  | nil => rfl
  | cons b key ih =>
    cases sibs with
    | nil => rfl
    | cons sib sibs =>
      rw [map_cons, climb, ← ih]
      cases b <;> rfl

theorem verify_proveReference (t : SparseMerkleTree Hs) (key : Digest Hs) :
    verifyCompressedSmtProof t.root key (t.get key) (proveReference t key).2 = some true := by
  have hlen : (provePath Hs t.entries (path key)).length = depth Hs := by
    rw [length_provePath, length_path]
  rw [proveReference, verify_compress hlen, ← smtNode_under, climb_provePath, length_path]
  exact congrArg some (decide_eq_true rfl)

section
variable {S : Set Bytes} (hinj : Set.InjOn Hs.digest S)
include hinj

theorem verify_provePersistent
    (hblanks : ∀ x ∈ emptyInputs Hs emptyInput (depth Hs), x ∈ S) {m : SparseMerkleTree Hs}
    {t : Lib.NodeStore.Store (Digest Hs) × Digest Hs} (ht : Keeps S m t) {b : Batch Hs}
    (hcache : ∀ p ∈ b.nodeCache, (nodes Hs).nodeHash p.2.1 p.2.2 = p.1 ∧ p.2 ∈ pairsIn S)
    (key : Digest Hs) : (provePersistent (b.engine t.1) t.2 key).1.getD (nodes Hs).empty0 =
        (m.get key).getD (nodes Hs).empty0 ∧
      verifyCompressedSmtProof m.root key (provePersistent (b.engine t.1) t.2 key).1
        (provePersistent (b.engine t.1) t.2 key).2 = some true := by
  have hprove := prove_spec (free_of_injOn hinj (emptyInput_mem hblanks)) (blanksIn_of_inputs hblanks)
    (ht.holds hcache) (length_path key)
  unfold provePersistent
  rw [hprove]
  have hleaf : (if m.leaf (path key) = (nodes Hs).empty0 then none
      else some (m.leaf (path key))).getD (nodes Hs).empty0 = m.leaf (path key) := by
    split_ifs with he
    · exact he.symm
    · rfl
  refine ⟨by rw [hleaf, SparseMerkleTree.leaf_path], ?_⟩
  have hlen : ((Lib.SparseTree.siblings (nodes Hs) m.leaf (path key)).map Subtype.val).length = depth Hs := by
    rw [length_map, Lib.SparseTree.length_siblings, length_path]
  rw [verify_compress hlen, hleaf, ← coe_climb, climb_siblings, Lib.SparseTree.withLeaf,
    Function.update_eq_self, length_path, SparseMerkleTree.root_eq]
  exact congrArg some (decide_eq_true rfl)

/-! ### Any proof -/

/-- **Soundness.** Only the leaf of the key verifies. -/
theorem leaf_of_verify {t : SparseMerkleTree Hs}
    {c : Compressed} (htree : ∀ x ∈ smtInputs Hs emptyInput (depth Hs) t.entries, x ∈ S)
    (hverify : ∀ x ∈ verifyInputs key leaf c, x ∈ S)
    (h : verifyCompressedSmtProof t.root key leaf c = some true) :
    leaf.getD (nodes Hs).empty0 = (t.get key).getD (nodes Hs).empty0 := by
  obtain ⟨out, hout, h⟩ := bind_eq_some_iff.mp h
  unfold verifySmtProof at h
  split_ifs at h with hlen
  · exact absurd h (by decide)
  obtain ⟨sibs, hsibs, hclimb⟩ := map_eq_some_iff.mp h
  replace hlen := (Lib.Outcome.forall₂_of_mapM hsibs).length_eq.symm.trans (not_not.mp hlen)
  replace hclimb := of_decide_eq_true hclimb
  rw [verifyInputs, hout, bind_some, hsibs] at hverify
  have hes : ∀ x ∈ t.entries, x.2.length = Hs.size := by
    intro x hx
    obtain ⟨l, -, rfl⟩ := mem_map.mp hx
    exact l.2.2
  rw [SparseMerkleTree.root, ← length_path key] at hclimb
  rw [← length_path key] at htree hlen
  have hleaf := climb_eq_smtNode hinj (leaf.getD (nodes Hs).empty0).2 hlen hes hverify htree hclimb
  rw [smtNode_under] at hleaf
  exact Subtype.ext hleaf

end

/-- **Compressed proofs.** For every map and key, the proof that the reference builds verifies against the
root of the map with the leaf of the key, or with `null`; so does the proof of the persistent tree. When no
two strings hashed collide, no bitmap and list of siblings verifies with another leaf, the constant of an
absent leaf counting as absence, and none shows the absence of a key that has a leaf. -/
theorem compressed_proofs (t : SparseMerkleTree Hs) (key : Digest Hs) :
    verifyCompressedSmtProof t.root key (t.get key) (proveReference t key).2 = some true ∧
    (∀ S st root, ∀ b : Batch Hs, Set.InjOn Hs.digest S →
      (∀ x ∈ emptyInputs Hs emptyInput (depth Hs), x ∈ S) → Keeps S t (st, root) →
      (∀ p ∈ b.nodeCache, (nodes Hs).nodeHash p.2.1 p.2.2 = p.1 ∧ p.2 ∈ pairsIn S) →
      (provePersistent (b.engine st) root key).1.getD (nodes Hs).empty0 =
          (t.get key).getD (nodes Hs).empty0 ∧
        verifyCompressedSmtProof t.root key (provePersistent (b.engine st) root key).1
          (provePersistent (b.engine st) root key).2 = some true) ∧
    (∀ S, Set.InjOn Hs.digest S →
      (∀ x ∈ smtInputs Hs emptyInput (depth Hs) t.entries, x ∈ S) →
      (∀ leaf c, (∀ x ∈ verifyInputs key leaf c, x ∈ S) →
        verifyCompressedSmtProof t.root key leaf c = some true →
        leaf.getD (nodes Hs).empty0 = (t.get key).getD (nodes Hs).empty0) ∧
      (∀ v c, t.get key = some v → v ≠ (nodes Hs).empty0 →
        (∀ x ∈ verifyInputs key none c, x ∈ S) →
        verifyCompressedSmtProof t.root key none c ≠ some true)) := by
  refine ⟨verify_proveReference t key, ?_, ?_⟩
  · intro S st root b hinj hblanks ht hcache
    exact verify_provePersistent hinj hblanks ht hcache key
  · intro S hinj htree
    refine ⟨fun leaf c hverify h => leaf_of_verify hinj htree hverify h, ?_⟩
    intro v c hv hne hverify h
    have hleaf := leaf_of_verify hinj htree hverify h
    rw [hv] at hleaf
    exact hne hleaf.symm

/-! ### A tree of two leaves -/

def twoLeaves : SparseMerkleTree wordHash :=
  ((SparseMerkleTree.new wordHash).set (word 1 3) (some (word 8 8))).set (word 1 2) (some (word 9 9))

/-- What is hashed for the tree and for a proof of absence made of the siblings of the leaf. -/
def twoLeavesInputs : List Bytes :=
  (smtInputs wordHash emptyInput (depth wordHash) twoLeaves.entries ++
    verifyInputs (word 1 3) none (proveReference twoLeaves (word 1 3)).2).dedup

theorem compressed_proofs_twoLeaves :
    (proveReference twoLeaves (word 1 3)).2.siblings = [some (word 9 9).1] ∧
    verifyCompressedSmtProof twoLeaves.root (word 1 3) (some (word 8 8))
        (proveReference twoLeaves (word 1 3)).2 = some true ∧
      verifyCompressedSmtProof twoLeaves.root (word 1 3) none (proveReference twoLeaves (word 1 3)).2 ≠
        some true := by
  have hinj : Set.InjOn wordHash.digest { x | x ∈ twoLeavesInputs } := injOn_of_nodup (by decide +kernel)
  have hproofs := compressed_proofs twoLeaves (word 1 3)
  refine ⟨by decide +kernel, hproofs.1, ?_⟩
  refine (hproofs.2.2 _ hinj ?_).2 (word 8 8) _ rfl (by decide +kernel) ?_
  · exact fun x hx => mem_dedup.mpr (mem_append_left _ hx)
  · exact fun x hx => mem_dedup.mpr (mem_append_right _ hx)

end XChainIndexer.StateTree.Proofs
