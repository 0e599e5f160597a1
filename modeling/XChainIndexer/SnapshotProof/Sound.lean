import XChainIndexer.SnapshotProof.Verify
import XChainIndexer.Lib.Outcome

/-! # A verdict is what the signed state says

A response may hold anything. The quorum check counts keys of the trust set whose signature of the
checkpoint verifies (`quorum_of_snapshotCheckpointQuorum`), the state root of the checkpoint fixes the
stakes root (`stakes_of_stateRoot`), and the path fixes the leaf under the row's key
(`leaf_of_verifySmtProof`). The memo holds for each key what would be computed for it (`MemoOk`), which
every call keeps, so a hit changes nothing (`judge_of_memoOk`). -/

namespace XChainIndexer.SnapshotProof.Sound

open IndexTables Lib.MerklePath List Option Lib.Outcome SnapshotProof.Encoding SnapshotProof.Verify

variable {nd : Node}

/-! ### What is claimed of a state -/

/-- Keys of the trust set that reach its threshold have signed the message. -/
def QuorumSigned (nd : Node) (signed : Text → Text → Prop) (trust : TrustSet) (message : Text) : Prop :=
  ∃ signers : List Text, signers.Nodup ∧ meetsStakeThreshold nd trust signers = true ∧
    ∀ key ∈ signers, key ∈ trust.validators.map (fun v => nd.toLowerCase v.pubkey) ∧ signed key message

/-- A quorum of the trust set has signed a checkpoint of the network at the block with the state root. -/
def Endorsed (nd : Node) (signed : Text → Text → Prop) (trust : TrustSet) (network : Text) (block : ℕ)
    (root : Bytes) : Prop :=
  ∃ hash rootText version, fromHex rootText = root ∧
    QuorumSigned nd signed trust (checkpointText network block hash rootText version)

/-- The state has the row's key, capability, source and amount. -/
def Commits (rt : Runtime) (st : State) (row : Row) : Prop :=
  ∃ weight amount, ⟨row.signing_pubkey, row.capability, .member row.source weight⟩ ∈ st.stakes ∧
    canonicalAmount rt weight = some amount ∧ canonicalAmount rt row.amount = some amount

/-- The state has no stake of the row's key for the capability, or one of its source with another
amount. -/
def Contradicts (rt : Runtime) (st : State) (row : Row) : Prop :=
  (∀ leaf, ⟨row.signing_pubkey, row.capability, leaf⟩ ∉ st.stakes) ∨
  ∃ weight amount rowAmount,
    ⟨row.signing_pubkey, row.capability, .member row.source weight⟩ ∈ st.stakes ∧
    canonicalAmount rt weight = some amount ∧ canonicalAmount rt row.amount = some rowAmount ∧
    amount ≠ rowAmount

/-! ### What is hashed for a judgement -/

def pathInputs (nd : Node) (key : Bytes) (m : Member) : List Bytes :=
  match leafNode nd.toRuntime m.leaf_value, m.siblings.bind (·.mapM Value.toBuf) with
  | some leaf, some siblings => climbInputs nd.hash leaf (bits (nd.hash.digest key)) siblings
  | _, _ => []

def committedInputs (nd : Node) (m : Member) : List Bytes :=
  match m.committed with
  | some (.str source, .str weight) => (memberLeafInput nd.toRuntime source weight).toList
  | _ => []

def memberInputs (nd : Node) (row : Row) (m : Member) : List Bytes :=
  emptyInput :: ((stakeKeyInput row.signing_pubkey row.capability).toList.flatMap fun key =>
    key :: pathInputs nd key m) ++ committedInputs nd m

def proofInputs (nd : Node) (row : Row) (proof : Proof) : List Bytes :=
  (proof.sub_roots.bind readSubRoots).toList.flatMap (stateRootInputs nd.toRuntime) ++
    (proof.members.bind (findMember nd · row.signing_pubkey)).toList.flatMap (memberInputs nd row)

/-- The byte strings that are hashed to judge the call. -/
def hashed (nd : Node) (c : Call) : List Bytes :=
  match c.response with
  | .ok (some response) => response.proof.toList.flatMap (proofInputs nd c.row)
  | _ => []

/-- The state root of the checkpoint in the response. -/
def namedRoot (c : Call) : Option Bytes :=
  match c.response with
  | .ok (some response) =>
    match response.checkpoint.map Checkpoint.state_root with
    | some (.str root) => some (fromHex root)
    | _ => none
  | _ => none

/-! ### The quorum -/

theorem countSigners_spec (nd : Node) (trusted : List Text) (canonical : Text) (sigs : List Sig)
    (signers : List Text) (hnodup : signers.Nodup) (P : Text → Prop) (hP : ∀ key ∈ signers, P key)
    (hstep : ∀ s ∈ sigs, nd.toLowerCase s.pubkey ∈ trusted → nd.verify canonical s.sig s.pubkey →
      P (nd.toLowerCase s.pubkey)) : (countSigners nd trusted canonical signers sigs).Nodup ∧
      ∀ key ∈ countSigners nd trusted canonical signers sigs, P key := by
  induction sigs generalizing signers with
  | nil => exact ⟨hnodup, hP⟩
  | cons s sigs ih =>
    have hrest := fun s' hs' => hstep s' (mem_cons_of_mem s hs')
    unfold countSigners
    dsimp only
    split_ifs with h
    · obtain ⟨htrusted, hnew, hverify⟩ := h
      refine ih _ (hnodup.append (nodup_singleton _) (by simpa using hnew)) ?_ hrest
      intro key hkey
      rcases mem_append.mp hkey with hkey | hkey
      · exact hP key hkey
      · rw [mem_singleton.mp hkey]
        exact hstep s mem_cons_self htrusted hverify
    · exact ih _ hnodup hP hrest

variable {cp : Checkpoint}

theorem quorum_of_snapshotCheckpointQuorum {signed : Text → Text → Prop}
    (unforgeable : ∀ message sig key, nd.verify message sig key →
      signed (nd.toLowerCase key) message) {trust : TrustSet}
    (h : snapshotCheckpointQuorum nd cp trust = some true) :
    ∃ message, snapshotCheckpointCanonical nd cp = some message ∧ QuorumSigned nd signed trust message := by
  unfold snapshotCheckpointQuorum at h
  split_ifs at h
  · split at h
    · cases h
    · simp only [Option.bind_eq_bind, Option.bind_eq_some_iff, Option.pure_def, Option.some.injEq] at h
      obtain ⟨message, hmessage, sigs, -, hmeets⟩ := h
      obtain ⟨hnodup, hsigned⟩ := countSigners_spec nd
        (trust.validators.map fun v => nd.toLowerCase v.pubkey) message (sigs.filterMap id) []
        nodup_nil
        (fun key => key ∈ trust.validators.map (fun v => nd.toLowerCase v.pubkey) ∧ signed key message)
        (by simp) (fun s _ htrusted hverify => ⟨htrusted, unforgeable _ _ _ hverify⟩)
      exact ⟨message, hmessage, _, hnodup, hmeets, hsigned⟩
  · cases h

/-- The text of a checkpoint at a block names the network, the block and the state root. -/
theorem canonical_of_checkpointAt {network message : Text} {block : ℕ} (hat : checkpointAt network block cp)
    (h : snapshotCheckpointCanonical nd cp = some message) : ∃ hash root version, cp.state_root = .str root ∧
      message = checkpointText network block hash (nd.toLowerCase root) version := by
  simp only [checkpointAt, sameBlock, Bool.and_eq_true, decide_eq_true_eq] at hat
  obtain ⟨⟨-, hnetwork⟩, -, hblock⟩ := hat
  unfold snapshotCheckpointCanonical at h
  split at h
  · rename_i n hash root hn hhash hroot
    split_ifs at h
    simp only [hnetwork, Value.joinText, Value.text, Option.bind_eq_bind, Option.bind_some,
      Option.bind_eq_some_iff, Option.pure_def, Option.some.injEq] at h
    obtain ⟨version, -, rfl⟩ := h
    have hn' : n = block := by
      rw [hn] at hblock
      simp only [Value.block] at hblock
      split_ifs at hblock <;> simp at hblock <;> omega
    exact ⟨_, root, version, hroot, by rw [hn']⟩
  · cases h

/-! ### The memo -/

/-- Every entry is what would be computed for its key. -/
def MemoOk (nd : Node) (memo : Memo) : Prop :=
  ∀ key v, (key, v) ∈ memo → ∀ cp trust firstUse,
    checkpointValidationKey nd cp trust firstUse = some key → validate nd cp trust firstUse = v

theorem memoOk_nil (nd : Node) : MemoOk nd [] := fun _ _ hmem => nomatch hmem

variable {memo : Memo}

theorem checkpointValidation_of_memoOk (hmemo : MemoOk nd memo) (cp : Checkpoint)
    (trust : Option TrustSet) (firstUse : Bool) : (checkpointValidation nd memo cp trust firstUse).1 =
        validate nd cp trust (trust.isNone && firstUse) ∧
      MemoOk nd (checkpointValidation nd memo cp trust firstUse).2 := by
  unfold checkpointValidation
  dsimp only
  split
  · exact ⟨rfl, hmemo⟩
  · rename_i key hkey
    split
    · rename_i hit hlookup
      have hmem := Lib.Assoc.mem_of_lookup hlookup
      refine ⟨(hmemo key hit hmem _ _ _ hkey).symm, ?_⟩
      intro key' v' hmem'
      rcases mem_append.mp hmem' with hmem' | hmem'
      · exact hmemo key' v' (mem_filter.mp hmem').1
      · obtain ⟨rfl, rfl⟩ := Prod.mk.inj (mem_singleton.mp hmem')
        exact hmemo _ _ hmem
    · refine ⟨rfl, ?_⟩
      intro key' v' hmem'
      rcases mem_append.mp (mem_of_mem_drop hmem') with hmem' | hmem'
      · exact hmemo key' v' hmem'
      · obtain ⟨rfl, rfl⟩ := Prod.mk.inj (mem_singleton.mp hmem')
        intro cp' trust' firstUse' hkey'
        obtain ⟨canonical, hc, rfl⟩ := map_eq_some_iff.mp hkey
        obtain ⟨canonical', hc', heq⟩ := map_eq_some_iff.mp hkey'
        obtain ⟨rfl, hsigs, rfl, rfl⟩ : canonical' = canonical ∧ cp'.validator_signatures =
            cp.validator_signatures ∧ firstUse' = (trust.isNone && firstUse) ∧ trust' = trust := by
          simpa using heq
        unfold validate snapshotCheckpointQuorum firstUseSigners
        rw [hc, hc', hsigs]

theorem judge_of_memoOk (hmemo : MemoOk nd memo) (c : Call) :
    (judgeMirroredCapabilityRow nd memo c).1 = (judgeMirroredCapabilityRow nd [] c).1 ∧
      MemoOk nd (judgeMirroredCapabilityRow nd memo c).2 := by
  unfold judgeMirroredCapabilityRow
  split
  · exact ⟨rfl, hmemo⟩
  · exact ⟨rfl, hmemo⟩
  · split
    · exact ⟨rfl, hmemo⟩
    · rename_i trust _
      unfold verifyCapabilitySnapshotProof
      dsimp only
      split_ifs
      · exact ⟨rfl, hmemo⟩
      · split
        · exact ⟨rfl, hmemo⟩
        · rename_i cp _
          obtain ⟨hv, hok⟩ := checkpointValidation_of_memoOk hmemo cp trust trust.isNone
          obtain ⟨hv', -⟩ := checkpointValidation_of_memoOk (memoOk_nil nd) cp trust trust.isNone
          exact ⟨by dsimp only; rw [hv, hv'], hok⟩

theorem memoOk_memoAfter (nd : Node) (calls : List Call) : MemoOk nd (memoAfter nd calls) := by
  unfold memoAfter
  induction calls using List.reverseRecOn with
  | nil => exact memoOk_nil nd
  | append_singleton calls c ih =>
    rw [foldl_append]
    exact (judge_of_memoOk ih c).2

/-! ### The leaf under a key -/

variable {key leaf : Bytes}

theorem stake_inputs_eq_some {rt : Runtime} {s : Stake} (h : s.inputs rt = some (key, leaf)) :
    stakeKeyInput s.pubkey s.capability = some key ∧ s.leaf.input rt = some leaf := by
  simp only [Stake.inputs, Option.bind_eq_bind, Option.bind_eq_some_iff, Option.pure_def,
    Option.some.injEq, Prod.mk.injEq] at h
  obtain ⟨_, hkey, _, hleaf, rfl, rfl⟩ := h
  exact ⟨hkey, hleaf⟩

section
variable {rt : Runtime} {st : State} {inputs : List (Bytes × Bytes)} {S : Set Bytes}

/-- The node at the end of a key's path in the stakes tree: that of an absent leaf, and no stake of the
key, or the leaf of its stake. -/
theorem stake_of_path (hS : Set.InjOn rt.hash.digest S)
    (hinputs : st.stakes.mapM (Stake.inputs rt) = some inputs) (hin : ∀ i ∈ inputs, i.1 ∈ S)
    {pubkey capability : Text} {key : Bytes} (hkey : stakeKeyInput pubkey capability = some key)
    (hkeyS : key ∈ S) :
    smtNode rt.hash emptyInput 0 (under (bits (rt.hash.digest key)) (treeEntries rt inputs)) =
        rt.hash.digest emptyInput ∧ (∀ leaf, ⟨pubkey, capability, leaf⟩ ∉ st.stakes) ∨
      ∃ leaf x, ⟨pubkey, capability, leaf⟩ ∈ st.stakes ∧ leaf.input rt = some x ∧ (∃ i ∈ inputs, i.2 = x) ∧
        smtNode rt.hash emptyInput 0 (under (bits (rt.hash.digest key)) (treeEntries rt inputs)) =
          rt.hash.digest x := by
  obtain ⟨hto, hfrom⟩ := mem_of_mapM hinputs
  cases hunder : under (bits (rt.hash.digest key)) (treeEntries rt inputs) with
  | nil =>
    refine .inl ⟨rfl, fun leaf hmem => ?_⟩
    obtain ⟨⟨key', x⟩, hi, hstake⟩ := hto _ hmem
    obtain ⟨hkey', -⟩ := stake_inputs_eq_some hstake
    obtain rfl : key = key' := some.inj (hkey.symm.trans hkey')
    have hentry : (([] : List Bool), rt.hash.digest x) ∈
        under (bits (rt.hash.digest key)) (treeEntries rt inputs) :=
      mem_under.mpr (mem_map.mpr ⟨_, hi, by simp⟩)
    rw [hunder] at hentry
    exact nomatch hentry
  | cons entry rest =>
    right
    have hentry : (bits (rt.hash.digest key) ++ entry.1, entry.2) ∈ treeEntries rt inputs :=
      mem_under.mp (by rw [hunder]; exact mem_cons_self)
    obtain ⟨⟨key', x⟩, hi, heq⟩ := mem_map.mp hentry
    obtain ⟨hbits, hx⟩ := Prod.mk.inj heq
    -- both keys have all the bits of a digest, so nothing is left after them
    have hrest : entry.1 = [] := by
      have hlen := congrArg List.length hbits
      rw [length_append, length_bits, length_bits, rt.hash.length_digest, rt.hash.length_digest]
        at hlen
      exact length_eq_zero_iff.mp (by omega)
    rw [hrest, append_nil] at hbits
    obtain rfl : key' = key := hS (hin _ hi) hkeyS (bits_inj hbits)
    obtain ⟨stake, hstake, hsome⟩ := hfrom _ hi
    obtain ⟨hkey', hleaf⟩ := stake_inputs_eq_some hsome
    obtain ⟨rfl, rfl⟩ := stakeKeyInput_inj hkey hkey'
    exact ⟨stake.leaf, x, hstake, hleaf, ⟨_, hi, rfl⟩, hx.symm⟩

theorem length_treeEntries {x : Entry} (hx : x ∈ treeEntries rt inputs) : x.2.length = rt.hash.size := by
  obtain ⟨i, -, rfl⟩ := mem_map.mp hx
  exact rt.hash.length_digest _

/-- A proof that is accepted starts at the node at the end of the key's path. -/
theorem leaf_of_verifySmtProof (hS : Set.InjOn rt.hash.digest S)
    (htree : ∀ x ∈ smtInputs rt.hash emptyInput rt.depth (treeEntries rt inputs), x ∈ S)
    {root : Text} (hroot : fromHex root = stakesRoot rt inputs) {v : Value} {siblings : Option (List Value)}
    (h : verifySmtProof rt (rt.toLowerCase root) key v siblings = some true)
    (hleaf : leafNode rt v = some leaf) (hlen : leaf.length = rt.hash.size)
    (hpath : ∀ sibs, siblings.bind (·.mapM Value.toBuf) = some sibs →
      ∀ x ∈ climbInputs rt.hash leaf (bits (rt.hash.digest key)) sibs, x ∈ S) :
    leaf = smtNode rt.hash emptyInput 0 (under (bits (rt.hash.digest key)) (treeEntries rt inputs)) := by
  unfold verifySmtProof at h
  cases siblings with
  | none => cases h
  | some values =>
    dsimp only at h
    by_cases hlength : values.length ≠ rt.depth
    · rw [if_pos hlength] at h
      cases h
    rw [if_neg hlength] at h
    simp only [hleaf, Option.bind_eq_bind, Option.bind_some, Option.bind_eq_some_iff, Option.pure_def,
      Option.some.injEq, decide_eq_true_eq] at h
    obtain ⟨sibs, hsibs, hclimb⟩ := h
    have hbits : (bits (rt.hash.digest key)).length = rt.depth := by
      rw [length_bits, rt.hash.length_digest, Runtime.depth]
    have hsibsLen : sibs.length = (bits (rt.hash.digest key)).length := by
      rw [hbits, ← not_not.mp hlength]
      exact (forall₂_of_mapM hsibs).length_eq.symm
    refine climb_eq_smtNode hS hlen hsibsLen (fun x hx => length_treeEntries hx) (hpath sibs hsibs)
      (by rwa [hbits]) ?_
    have hnode := congrArg fromHex hclimb
    rw [fromHex_toHex, rt.fromHex_toLowerCase, hroot] at hnode
    rw [hnode, hbits, stakesRoot]

end

/-! ### Judging a proof -/

/-- What a verdict says about a state. -/
def Truthful (rt : Runtime) (st : State) (row : Row) : Verdict → Prop
  | .verified => Commits rt st row
  | .refused => Contradicts rt st row
  | .held => True

section
variable {st : State} {row : Row} {inputs : List (Bytes × Bytes)} {S : Set Bytes}

/-- What the judgement of a member needs: a hash without collisions on what was hashed, and the stakes
root of the state. -/
structure Bound (nd : Node) (st : State) (row : Row) (inputs : List (Bytes × Bytes)) (S : Set Bytes)
    (root : Text) (m : Member) : Prop where
  injOn : Set.InjOn nd.hash.digest S
  stakes : st.stakes.mapM (Stake.inputs nd.toRuntime) = some inputs
  keys : ∀ i ∈ inputs, i.1 ∈ S
  leaves : ∀ i ∈ inputs, i.2 ∈ S
  tree : ∀ x ∈ smtInputs nd.hash emptyInput nd.depth (treeEntries nd.toRuntime inputs), x ∈ S
  member : ∀ x ∈ memberInputs nd row m, x ∈ S
  fromHex_root : fromHex root = stakesRoot nd.toRuntime inputs

variable {root : Text} {m : Member} {key : Bytes}

section
variable (b : Bound nd st row inputs S root m)
include b

variable {leaf : Bytes}

theorem Bound.stake (hkey : stakeKeyInput row.signing_pubkey row.capability = some key)
    (hproof : verifySmtProof nd.toRuntime (nd.toLowerCase root) key m.leaf_value m.siblings = some true)
    (hleaf : leafNode nd.toRuntime m.leaf_value = some leaf) (hlen : leaf.length = nd.hash.size) :
    leaf = nd.hash.digest emptyInput ∧ (∀ l, ⟨row.signing_pubkey, row.capability, l⟩ ∉ st.stakes) ∨
      ∃ l x, ⟨row.signing_pubkey, row.capability, l⟩ ∈ st.stakes ∧ l.input nd.toRuntime = some x ∧
        x ∈ S ∧ leaf = nd.hash.digest x := by
  have hmem : ∀ x, x = key ∨ x ∈ pathInputs nd key m → x ∈ S := fun x hx => by
    refine b.member x (mem_append_left _ (mem_cons_of_mem _ ?_))
    rw [hkey]
    simpa using hx
  have hpath := leaf_of_verifySmtProof b.injOn b.tree b.fromHex_root hproof hleaf hlen fun sibs hsibs x hx =>
    hmem x (.inr (by
      unfold pathInputs
      rw [hleaf, hsibs]
      exact hx))
  rcases stake_of_path b.injOn b.stakes b.keys hkey (hmem key (.inl rfl)) with
    ⟨hnode, hnone⟩ | ⟨l, x, hstake, hx, ⟨i, hi, rfl⟩, hnode⟩
  · exact .inl ⟨hpath.trans hnode, hnone⟩
  · exact .inr ⟨l, _, hstake, hx, b.leaves i hi, hpath.trans hnode⟩

theorem Bound.empty_mem : emptyInput ∈ S :=
  b.member _ (mem_append_left _ mem_cons_self)

theorem Bound.absent (hkey : stakeKeyInput row.signing_pubkey row.capability = some key)
    (hproof : verifySmtProof nd.toRuntime (nd.toLowerCase root) key m.leaf_value m.siblings = some true)
    (hnull : m.leaf_value = .null) : ∀ l, ⟨row.signing_pubkey, row.capability, l⟩ ∉ st.stakes := by
  have hleaf : leafNode nd.toRuntime m.leaf_value = some (nd.hash.digest emptyInput) := by
    unfold leafNode
    rw [if_pos (.inl hnull)]
    rfl
  rcases b.stake hkey hproof hleaf (nd.hash.length_digest _) with ⟨-, hnone⟩ | ⟨l, x, -, hx, hxS, heq⟩
  · exact hnone
  · exact absurd (b.injOn b.empty_mem hxS heq).symm (leafInput_ne_empty hx)

theorem Bound.present {source weight : Text}
    (hkey : stakeKeyInput row.signing_pubkey row.capability = some key)
    (hproof : verifySmtProof nd.toRuntime (nd.toLowerCase root) key m.leaf_value m.siblings = some true)
    (hcommitted : m.committed = some (.str source, .str weight))
    (hinput : memberLeafInput nd.toRuntime source weight = some leaf)
    (hhex : sameHex nd (toHex (nd.hash.digest leaf)) m.leaf_value) :
    ∃ w, ⟨row.signing_pubkey, row.capability, .member source w⟩ ∈ st.stakes ∧
      canonicalAmount nd.toRuntime w = canonicalAmount nd.toRuntime weight := by
  have hleafS : leaf ∈ S := by
    refine b.member leaf (mem_append_right _ ?_)
    unfold committedInputs
    rw [hcommitted]
    simpa using hinput
  have hleaf : leafNode nd.toRuntime m.leaf_value = some (nd.hash.digest leaf) := by
    unfold sameHex at hhex
    split at hhex
    · rename_i t ht
      have hbytes := congrArg fromHex (of_decide_eq_true hhex)
      rw [nd.fromHex_toLowerCase, nd.fromHex_toLowerCase, fromHex_toHex] at hbytes
      unfold leafNode
      rw [if_neg (by rw [ht]; simp), ht, Value.toBuf, hbytes]
    · cases hhex
  rcases b.stake hkey hproof hleaf (nd.hash.length_digest _) with ⟨heq, -⟩ | ⟨l, x, hstake, hx, hxS, heq⟩
  · have hinput' : (StakeLeaf.member source weight).input nd.toRuntime = some leaf := hinput
    exact absurd (b.injOn hleafS b.empty_mem heq) (leafInput_ne_empty hinput')
  · obtain rfl := b.injOn hleafS hxS heq
    obtain ⟨w, rfl, hw⟩ := leafInput_inj hinput hx
    exact ⟨w, hstake, hw⟩

theorem judgeMember_truthful : Truthful nd.toRuntime st row (judgeMember nd row root m).verdict := by
  unfold judgeMember
  split
  · trivial
  · trivial
  · rename_i hverified
    obtain ⟨key, hkey, hproof⟩ := bind_eq_some_iff.mp hverified
    split_ifs with hnull
    · exact .inl (b.absent hkey hproof hnull)
    · split
      · rename_i source weight hcommitted
        split
        · trivial
        · rename_i leaf hinput
          split_ifs with hhex hsource
          · trivial
          · obtain ⟨w, hstake, hw⟩ := b.present hkey hproof hcommitted hinput hhex
            obtain rfl := not_not.mp hsource
            split
            · rename_i amount rowAmount hamount hrow
              split_ifs with hne
              · exact .inr ⟨w, amount, rowAmount, hstake, hw.trans hamount, hrow, hne⟩
              · exact ⟨w, amount, hstake, hw.trans hamount, by rw [hrow, not_not.mp hne]⟩
            · trivial
          · trivial
      · trivial

end

/-- The stakes root that a proof names is the one that its state root is taken over. -/
theorem stakes_readSubRoots {raw : RawSubRoots} {r : SubRoots} {t : Text} (hraw : raw.stakes_root = .str t)
    (hhex : isHexText nd.hexWidth t) (h : readSubRoots raw = some r) : r.stakes nd.toRuntime = fromHex t := by
  simp only [readSubRoots, Option.bind_eq_bind, Option.bind_eq_some_iff, Option.pure_def,
    Option.some.injEq] at h
  obtain ⟨_, -, stakes, hstakes, _, -, _, -, _, -, rfl⟩ := h
  rw [hraw] at hstakes
  by_cases ht : t = []
  · -- only digests of no bytes are written as no digits
    subst ht
    have hsize : nd.hash.size = 0 := by
      have := of_decide_eq_true (Bool.and_eq_true_iff.mp hhex).1
      simp only [length_nil, Runtime.hexWidth] at this
      omega
    obtain rfl : none = stakes := by simpa [readRoot, Value.truthy] using hstakes
    exact length_eq_zero_iff.mp ((length_empty _ _ _).trans hsize)
  · obtain rfl : some (fromHex t) = stakes := by
      simpa [readRoot, Value.truthy, Value.toBuf, ht] using hstakes
    rfl

theorem judgeCapabilityStakeProof_truthful (hS : Set.InjOn nd.hash.digest S) {proof : Option Proof}
    (hst : ∀ x ∈ st.hashed nd.toRuntime, x ∈ S)
    (hproof : ∀ x ∈ proof.toList.flatMap (proofInputs nd row), x ∈ S) {network rootText : Text}
    {cp : Checkpoint} (hcp : cp.state_root = .str rootText)
    (hroot : st.root nd.toRuntime = some (fromHex rootText)) :
    Truthful nd.toRuntime st row (judgeCapabilityStakeProof nd network row cp proof).verdict := by
  simp only [State.root, Option.bind_eq_bind, Option.bind_eq_some_iff, Option.pure_def,
    Option.some.injEq] at hroot
  obtain ⟨inputs, hinputs, hroot⟩ := hroot
  simp only [State.hashed, hinputs, mem_append] at hst
  unfold judgeCapabilityStakeProof
  split
  · trivial
  split_ifs
  · trivial
  split
  · trivial
  split_ifs
  · trivial
  split
  · trivial
  rename_i raw hraw
  split
  · rename_i t subRoots ht hsub
    split_ifs with hhex hsame
    · trivial
    · trivial
    split
    · trivial
    rename_i members hmembers
    split
    · trivial
    rename_i m hm
    simp only [Option.toList_some, flatMap_singleton, proofInputs, hraw, hmembers, Option.bind_some,
      hsub, hm, mem_append] at hproof
    have hhex : isHexText nd.hexWidth t := by simpa using hhex
    have hread := stakes_readSubRoots ht hhex hsub
    have heq : stateRoot nd.toRuntime subRoots = stateRoot nd.toRuntime (st.subRoots nd.toRuntime inputs) := by
      have hsame : nd.toLowerCase (toHex (stateRoot nd.toRuntime subRoots)) = nd.toLowerCase rootText := by
        simpa [sameHex, hcp] using hsame
      have hbytes := congrArg fromHex hsame
      rwa [nd.fromHex_toLowerCase, nd.fromHex_toLowerCase, fromHex_toHex, ← hroot] at hbytes
    have hstakes : fromHex t = stakesRoot nd.toRuntime inputs := by
      rw [← hread]
      refine stakes_of_stateRoot hS (fun x hx => hproof x (.inl hx)) (fun x hx => hst x (.inr hx)) ?_ heq
      rw [hread, length_fromHex hhex]
      exact (length_smtNode _ fun x hx => length_treeEntries hx).symm
    exact judgeMember_truthful {
      injOn := hS
      stakes := hinputs
      keys := fun i hi => hst _ (.inl (.inl (.inl (mem_map_of_mem hi))))
      leaves := fun i hi => hst _ (.inl (.inl (.inr (mem_map_of_mem hi))))
      tree := fun x hx => hst x (.inl (.inr hx))
      member := fun x hx => hproof x (.inr hx)
      fromHex_root := hstakes }
  · trivial

end

/-! ### Every call -/

section
variable {signed : Text → Text → Prop}

/-- A judgement other than `held`, without the memo: the pinned set and the checkpoint it approved. -/
theorem checkpoint_of_judged {c : Call}
    (hpin : resolveTrustSet nd c.network c.row.snapshot_block c.pins ≠ .ok none)
    (hne : (judgeMirroredCapabilityRow nd [] c).1.verdict ≠ .held) : ∃ trust response cp,
      resolveTrustSet nd c.network c.row.snapshot_block c.pins = .ok (some trust) ∧
      c.response = .ok (some response) ∧ response.checkpoint = some cp ∧
      checkpointAt c.network (snapshotCheckpointBlock nd c.row.snapshot_block c.network) cp ∧
      snapshotCheckpointQuorum nd cp trust = some true ∧ (judgeMirroredCapabilityRow nd [] c).1 =
        judgeCapabilityStakeProof nd c.network c.row cp response.proof := by
  unfold judgeMirroredCapabilityRow at hne ⊢
  split at hne
  · exact absurd rfl hne
  · exact absurd rfl hne
  rename_i response hresponse
  split at hne
  · exact absurd rfl hne
  rename_i trust htrust
  obtain ⟨trust, rfl⟩ := ne_none_iff_exists'.mp fun hnone => hpin (hnone ▸ htrust)
  unfold verifyCapabilitySnapshotProof at hne ⊢
  dsimp only at hne ⊢
  split_ifs at hne ⊢
  · exact absurd rfl hne
  split at hne
  · exact absurd rfl hne
  rename_i cp hcp
  have hv := (checkpointValidation_of_memoOk (memoOk_nil nd) cp (some trust) (some trust).isNone).1
  rw [hv] at hne ⊢
  cases hquorum : (snapshotCheckpointQuorum nd cp trust).getD false with
  | false =>
    simp only [judgeValidated, validate, hquorum] at hne
    exact absurd rfl hne
  | true =>
    obtain ⟨hsome, hat⟩ := filter_eq_some_iff.mp hcp
    refine ⟨trust, response, cp, htrust, hresponse, hsome, hat, ?_, ?_⟩
    · cases hsome : snapshotCheckpointQuorum nd cp trust with
      | none => rw [hsome] at hquorum; cases hquorum
      | some q => rw [hsome] at hquorum; exact congrArg some hquorum
    · simp [judgeValidated, validate, hquorum, isRegtestSeededSigner]

/-- **Verdicts are sound.** Whatever was judged before, the judgement of a row is the one without the
memo. Other than on first use, a row that is not held was judged by a state root that a quorum of the
pinned set has signed at the derived block; of a state with that root a verified row says what the state commits,
and a refused one is contradicted by it. -/
theorem verdict_sound (nd : Node) (signed : Text → Text → Prop)
    (unforgeable : ∀ message sig key, nd.verify message sig key = true →
      signed (nd.toLowerCase key) message)
    (calls : List Call) (c : Call) :
    (judgeMirroredCapabilityRow nd (memoAfter nd calls) c).1 =
        (judgeMirroredCapabilityRow nd [] c).1 ∧
      (resolveTrustSet nd c.network c.row.snapshot_block c.pins ≠ .ok none →
        (judgeMirroredCapabilityRow nd (memoAfter nd calls) c).1.verdict ≠ .held →
        ∃ pinned root,
          resolveTrustSet nd c.network c.row.snapshot_block c.pins = .ok (some pinned) ∧
          namedRoot c = some root ∧
          Endorsed nd signed pinned c.network
            (snapshotCheckpointBlock nd c.row.snapshot_block c.network) root ∧
          ∀ st : State, st.root nd.toRuntime = some root →
            Set.InjOn nd.hash.digest {x | x ∈ st.hashed nd.toRuntime ∨ x ∈ hashed nd c} →
            Truthful nd.toRuntime st c.row
              (judgeMirroredCapabilityRow nd (memoAfter nd calls) c).1.verdict) := by
  have hmemo := (judge_of_memoOk (memoOk_memoAfter nd calls) c).1
  refine ⟨hmemo, ?_⟩
  rw [hmemo]
  intro hpin hne
  obtain ⟨pinned, response, cp, htrust, hresponse, hcp, hat, hquorum, hjudged⟩ :=
    checkpoint_of_judged hpin hne
  obtain ⟨message, hmessage, hsigned⟩ := quorum_of_snapshotCheckpointQuorum unforgeable hquorum
  obtain ⟨hash, rootText, version, hroot, rfl⟩ := canonical_of_checkpointAt hat hmessage
  have hnamed : namedRoot c = some (fromHex rootText) := by
    simp only [namedRoot, hresponse, hcp, map_some, hroot]
  refine ⟨pinned, fromHex rootText, htrust, hnamed,
    ⟨hash, _, version, nd.fromHex_toLowerCase rootText, hsigned⟩, fun st hst hinj => ?_⟩
  rw [hjudged]
  refine judgeCapabilityStakeProof_truthful hinj (fun x hx => .inl hx) (fun x hx => .inr ?_) hroot hst
  simpa only [hashed, hresponse] using hx

end

/-! ### A row that is verified -/

def byteHash : Hash where
  size := 1
  digest x := [UInt8.ofNat (x.foldl (fun n b => (n * 7 + b.toNat + 3) % 251) 5)]
  length_digest _ := rfl

def onlyKey : Text := List.replicate 64 '1'

theorem fromHex_id (t : Text) : fromHex (id t) = fromHex t := rfl

/-- A node that trusts one key and takes any signature of it for good. -/
def oneKeyNode : Node where
  hash := byteHash
  toLowerCase := id
  trim := id
  fromHex_toLowerCase := fromHex_id
  toUpperCase := id
  verify _ _ key := key = onlyKey
  signatureRows _ := some [⟨.str onlyKey, .str (List.replicate 128 '0')⟩]
  stateRootVersion _ _ := some 1
  burial _ := some 0
  parsePinnedSet _ := .ok [⟨onlyKey, ['s'], ['1']⟩]

def oneStake : State where
  balances_root := none
  ownership_root := none
  tokens_root := none
  contract_state_root := none
  stakes := [⟨onlyKey, "price".toList, .member ['s'] ['5']⟩]
  nodup := List.nodup_singleton _

def stakeRow : Row := ⟨106, "price".toList, onlyKey, ['s'], "5.0".toList⟩

def stakeCheckpoint : Checkpoint where
  chain := .str "BTC".toList
  network := .str "mainnet".toList
  block_index := .int 100
  block_hash := .str onlyKey
  state_root := .str (toHex [183])
  state_root_version := .int 1
  validator_signatures := some "[]".toList

/-- The proof of the stake. All siblings on its path are empty. -/
def stakeProof : Proof where
  block_index := .int 100
  sub_roots := some ⟨.null, .str (toHex [190]), .null, .null, .null⟩
  members := some [{
    pubkey := .str onlyKey
    leaf_value := .str (toHex [141])
    siblings := some ((List.range 8).map fun d => .str (toHex (empty byteHash emptyInput (7 - d))))
    committed := some (.str ['s'], .str ['5']) }]

def stakeCall : Call where
  network := "mainnet".toList
  pins := ⟨some ['p'], none, none⟩
  row := stakeRow
  response := .ok (some ⟨.int 106, .str "price".toList, some stakeCheckpoint, some stakeProof⟩)

theorem verdict_sound_verified :
    (judgeMirroredCapabilityRow oneKeyNode (memoAfter oneKeyNode [stakeCall]) stakeCall).1.verdict =
        .verified ∧ Commits oneKeyNode.toRuntime oneStake stakeRow := by
  have hverdict : (judgeMirroredCapabilityRow oneKeyNode (memoAfter oneKeyNode [stakeCall])
      stakeCall).1.verdict = .verified := by decide +kernel
  obtain ⟨-, h⟩ := verdict_sound oneKeyNode (fun key _ => key = onlyKey)
    (fun _ _ _ hverify => of_decide_eq_true hverify) [stakeCall] stakeCall
  have hpin : resolveTrustSet oneKeyNode stakeCall.network stakeCall.row.snapshot_block stakeCall.pins =
      .ok (some ⟨[⟨onlyKey, ['s'], ['1']⟩], false⟩) := rfl
  obtain ⟨pinned, root, -, hroot, -, hst⟩ := h (by rw [hpin]; nofun) (by rw [hverdict]; decide)
  rw [hverdict] at hst
  refine ⟨hverdict, hst oneStake ?_ ?_⟩
  · rw [← hroot]
    decide +kernel
  · have hinj : ∀ x ∈ oneStake.hashed oneKeyNode.toRuntime ++ hashed oneKeyNode stakeCall,
        ∀ y ∈ oneStake.hashed oneKeyNode.toRuntime ++ hashed oneKeyNode stakeCall,
          byteHash.digest x = byteHash.digest y → x = y := by decide +kernel
    exact fun x hx y hy => hinj x (mem_append.mpr hx) y (mem_append.mpr hy)

end XChainIndexer.SnapshotProof.Sound
