import XChainIndexer.Lib.Digits
import XChainIndexer.Lib.MerklePath
import XChainIndexer.IndexTables

/-! # What the state commitment hashes

The byte layer of `consensus/merkle/primitives.js` and the trees of `consensus/merkle.js` over it, as far
as the stakes of a capability go: hex texts, canonical amounts, fields joined by a zero byte, the keys and
leaves of the stakes tree, and the state root over the five named sub-roots. The length of a digest is a
parameter; that of sha256 is 32, so a digest is 64 hex digits and a key has 256 bits.

`State` is what a block commits: one leaf for a key and capability, and the roots of the other trees. Two
different lists of fields are never joined to the same bytes (`joinFields_inj`), and `state_root` gives
the stakes root away only with that root itself (`stakesRoot_of_stateRoot`). -/

namespace XChainIndexer.SnapshotProof.Encoding

open IndexTables Lib.Digits Lib.MerklePath List

/-! ### Hex texts -/

def hexVal (c : Char) : Option ℕ :=
  if '0' ≤ c ∧ c ≤ '9' then some (c.toNat - 48)
  else if 'a' ≤ c ∧ c ≤ 'f' then some (c.toNat - 87)
  else if 'A' ≤ c ∧ c ≤ 'F' then some (c.toNat - 55)
  else none

def hexChar (n : ℕ) : Char := Char.ofNat (if n < 10 then 48 + n else 87 + n)

/-- `Buffer.from(t, 'hex')`: what stands before the first pair that is not hex. -/
def fromHex : Text → Bytes
  | a :: b :: t =>
    match hexVal a, hexVal b with
    | some x, some y => UInt8.ofNat (16 * x + y) :: fromHex t
    | _, _ => []
  | _ => []

def toHex (bytes : Bytes) : Text :=
  bytes.flatMap fun x => [hexChar (x.toNat / 16), hexChar (x.toNat % 16)]

/-- `/^[0-9a-fA-F]{n}$/`. -/
def isHexText (n : ℕ) (t : Text) : Bool := t.length = n && t.all fun c => (hexVal c).isSome

/-- What is taken from the runtime. -/
structure Runtime where
  /-- `sha256`. -/
  hash : Hash
  toLowerCase : Text → Text
  trim : Text → Text
  /-- Lower case changes no hex digit's value and makes no hex digit of another character. -/
  fromHex_toLowerCase : ∀ t, fromHex (toLowerCase t) = fromHex t

/-- The hex digits of a digest. -/
def Runtime.hexWidth (rt : Runtime) : ℕ := 2 * rt.hash.size

/-- `SMT_DEPTH`. -/
def Runtime.depth (rt : Runtime) : ℕ := 8 * rt.hash.size

/-! ### Encodings -/

/-- `replace(/^0+(?=\d)/, '')`. -/
def stripZeros (t : Text) : Text :=
  match t.dropWhile (· = '0') with
  | [] => ['0']
  | rest => rest

/-- A text of digits with at most 18 decimals, as one without leading zeros and with 18 decimals;
`none` where the source throws. -/
def canonicalAmount (rt : Runtime) (input : Text) : Option Text :=
  let s := rt.trim input
  let intPart := s.takeWhile (· ≠ '.')
  if isDigits intPart then
    match s.dropWhile (· ≠ '.') with
    | [] => some (stripZeros intPart ++ '.' :: List.replicate 18 '0')
    | _ :: fracPart =>
      if isDigits fracPart && decide (fracPart.length ≤ 18) then
        some (stripZeros intPart ++ '.' :: (fracPart ++ List.replicate (18 - fracPart.length) '0'))
      else none
  else none

def utf8 (t : Text) : Bytes := t.flatMap String.utf8EncodeChar

/-- The fields, joined by a zero byte; a field that holds one is refused. -/
def joinFields (parts : List Text) : Option Bytes :=
  if parts.any fun p => decide ((0 : UInt8) ∈ utf8 p) then none
  else some (List.intercalate [0] (parts.map utf8))

/-- What `stakeKey` hashes. -/
def stakeKeyInput (pubkey capability : Text) : Option Bytes :=
  joinFields ["XCHAIN_STK".toList, pubkey, capability]

/-- What `stakeMemberLeaf` hashes. -/
def memberLeafInput (rt : Runtime) (source weight : Text) : Option Bytes := do
  let amount ← canonicalAmount rt weight
  let fields ← joinFields ["STK".toList, source, amount]
  return 0 :: fields

/-- What `stakeTotalLeaf` hashes. -/
def totalLeafInput (rt : Runtime) (total : Text) : Option Bytes := do
  let amount ← canonicalAmount rt total
  let fields ← joinFields ["STKTOTAL".toList, amount]
  return 0 :: fields

/-- What is hashed for an absent leaf. -/
def emptyInput : Bytes := 2 :: utf8 "XCHAIN_EMPTY_LEAF".toList

def byteBits (x : UInt8) : List Bool := (List.range 8).map fun i => x.toNat.testBit (7 - i)

/-- The bits of a key, from the highest of the first byte on. -/
def bits (key : Bytes) : List Bool := key.flatMap byteBits

/-! ### The state root -/

/-- `EMPTY_SMT_ROOT`. -/
def Runtime.emptyRoot (rt : Runtime) : Bytes := empty rt.hash emptyInput rt.depth

/-- The named sub-roots; `none` for one that is absent. -/
structure SubRoots where
  balances_root : Option Bytes
  stakes_root : Option Bytes
  ownership_root : Option Bytes
  tokens_root : Option Bytes
  contract_state_root : Option Bytes
deriving DecidableEq

/-- The leaves of the state root, in the order of `STATE_SUBTREES`. -/
def SubRoots.leaves (rt : Runtime) (r : SubRoots) : List Bytes :=
  [r.balances_root, r.stakes_root, r.ownership_root, r.tokens_root, r.contract_state_root].map
    (·.getD rt.emptyRoot)

def stateRoot (rt : Runtime) (r : SubRoots) : Bytes :=
  fixedMerkleRoot rt.hash (empty rt.hash emptyInput 0) (r.leaves rt)

def stateRootInputs (rt : Runtime) (r : SubRoots) : List Bytes :=
  fixedInputs rt.hash (empty rt.hash emptyInput 0) (r.leaves rt)

/-! ### The state of a block -/

/-- A leaf of the stakes tree: a member with the source and the weight it stands for, or the total. -/
inductive StakeLeaf
  | member (source weight : Text)
  | total (amount : Text)

structure Stake where
  pubkey : Text
  capability : Text
  leaf : StakeLeaf

/-- What a block commits: the stakes, one for a key and capability, and the roots of the other trees. -/
structure State where
  balances_root : Option Bytes
  ownership_root : Option Bytes
  tokens_root : Option Bytes
  contract_state_root : Option Bytes
  stakes : List Stake
  nodup : (stakes.map fun s => (s.pubkey, s.capability)).Nodup

def StakeLeaf.input (rt : Runtime) : StakeLeaf → Option Bytes
  | .member source weight => memberLeafInput rt source weight
  | .total amount => totalLeafInput rt amount

/-- What is hashed for the key and for the leaf of a stake. -/
def Stake.inputs (rt : Runtime) (s : Stake) : Option (Bytes × Bytes) := do
  let key ← stakeKeyInput s.pubkey s.capability
  let leaf ← s.leaf.input rt
  return (key, leaf)

def treeEntries (rt : Runtime) (inputs : List (Bytes × Bytes)) : List Entry :=
  inputs.map fun i => (bits (rt.hash.digest i.1), rt.hash.digest i.2)

def stakesRoot (rt : Runtime) (inputs : List (Bytes × Bytes)) : Bytes :=
  smtNode rt.hash emptyInput rt.depth (treeEntries rt inputs)

def State.subRoots (rt : Runtime) (st : State) (inputs : List (Bytes × Bytes)) : SubRoots :=
  ⟨st.balances_root, some (stakesRoot rt inputs), st.ownership_root, st.tokens_root,
    st.contract_state_root⟩

/-- The state root of a block; `none` where a stake cannot be encoded. -/
def State.root (rt : Runtime) (st : State) : Option Bytes := do
  let inputs ← st.stakes.mapM (Stake.inputs rt)
  return stateRoot rt (st.subRoots rt inputs)

/-- Everything that is hashed for the root. -/
def State.hashed (rt : Runtime) (st : State) : List Bytes :=
  match st.stakes.mapM (Stake.inputs rt) with
  | none => []
  | some inputs =>
    inputs.map Prod.fst ++ inputs.map Prod.snd ++
      smtInputs rt.hash emptyInput rt.depth (treeEntries rt inputs) ++
      stateRootInputs rt (st.subRoots rt inputs)

/-! ### Hex texts and bytes -/

theorem hexVal_hexChar : ∀ n < 16, hexVal (hexChar n) = some n := by decide

theorem fromHex_toHex (bytes : Bytes) : fromHex (toHex bytes) = bytes := by
  induction bytes with
  | nil => rfl
  | cons x bytes ih =>
    have hx := x.toNat_lt
    have hval : 16 * (x.toNat / 16) + x.toNat % 16 = x.toNat := Nat.div_add_mod _ _
    show fromHex (hexChar (x.toNat / 16) :: hexChar (x.toNat % 16) :: toHex bytes) = _
    simp only [fromHex, hexVal_hexChar _ (by omega : x.toNat / 16 < 16),
      hexVal_hexChar _ (Nat.mod_lt x.toNat (by omega : 16 > 0)), hval, UInt8.ofNat_toNat, ih]

theorem length_fromHex {n : ℕ} {t : Text} (h : isHexText (2 * n) t) : (fromHex t).length = n := by
  obtain ⟨hlen, hall⟩ := Bool.and_eq_true_iff.mp h
  replace hlen := of_decide_eq_true hlen
  clear h
  induction n generalizing t with
  | zero => rw [length_eq_zero_iff.mp hlen]; rfl
  | succ n ih =>
    match t, hlen, hall with
    | a :: b :: t, hlen, hall =>
      simp only [all_cons, Bool.and_eq_true] at hall
      obtain ⟨x, hx⟩ := Option.isSome_iff_exists.mp hall.1
      obtain ⟨y, hy⟩ := Option.isSome_iff_exists.mp hall.2.1
      simp only [length_cons] at hlen
      simp only [fromHex, hx, hy, length_cons, ih hall.2.2 (by omega)]

theorem utf8_inj {s t : Text} (h : utf8 s = utf8 t) : s = t := by
  have hbytes : s.utf8Encode = t.utf8Encode := congrArg List.toByteArray h
  rw [← String.ofList_inj, ← String.toByteArray_inj, String.toByteArray_ofList,
    String.toByteArray_ofList, hbytes]

@[simp] theorem length_byteBits (x : UInt8) : (byteBits x).length = 8 := by simp [byteBits]

theorem byteBits_inj {x y : UInt8} (h : byteBits x = byteBits y) : x = y := by
  have hbit : ∀ i < 8, x.toNat.testBit i = y.toNat.testBit i := fun i hi => by
    have := map_inj_left.mp h (7 - i) (mem_range.mpr (by omega))
    rwa [show 7 - (7 - i) = i by omega] at this
  refine UInt8.toNat_inj.mp (Nat.eq_of_testBit_eq fun i => ?_)
  by_cases hi : i < 8
  · exact hbit i hi
  · have hlt : ∀ z : UInt8, z.toNat < 2 ^ i := fun z =>
      z.toNat_lt.trans_le (Nat.pow_le_pow_right (by omega) (by omega))
    rw [Nat.testBit_lt_two_pow (hlt x), Nat.testBit_lt_two_pow (hlt y)]

theorem length_bits (key : Bytes) : (bits key).length = 8 * key.length := by
  induction key with
  | nil => rfl
  | cons x key ih =>
    show (byteBits x ++ bits key).length = _
    rw [length_append, length_byteBits, length_cons]
    omega

theorem bits_inj {k k' : Bytes} (h : bits k = bits k') : k = k' := by
  induction k generalizing k' with
  | nil =>
    have hlen := congrArg List.length h
    rw [length_bits, length_bits, length_nil] at hlen
    exact (length_eq_zero_iff.mp (by omega)).symm
  | cons x k ih =>
    cases k' with
    | nil =>
      have hlen := congrArg List.length h
      rw [length_bits, length_bits, length_nil, length_cons] at hlen
      omega
    | cons x' k' =>
      have happ : byteBits x ++ bits k = byteBits x' ++ bits k' := h
      obtain ⟨hx, hk⟩ := append_inj happ (by simp)
      rw [byteBits_inj hx, ih hk]

/-! ### Joined fields -/

variable {x : Bytes}

theorem joinFields_eq_some {parts : List Text} (h : joinFields parts = some x) :
    (∀ p ∈ parts, (0 : UInt8) ∉ utf8 p) ∧ List.intercalate [0] (parts.map utf8) = x := by
  unfold joinFields at h
  split_ifs at h with hz
  refine ⟨fun p hp hmem => hz (any_eq_true.mpr ⟨p, hp, decide_eq_true hmem⟩), Option.some.inj h⟩

theorem joinFields_inj {ps qs : List Text} (hps : ps ≠ []) (hqs : qs ≠ [])
    (hp : joinFields ps = some x) (hq : joinFields qs = some x) : ps = qs := by
  obtain ⟨hp0, hp⟩ := joinFields_eq_some hp
  obtain ⟨hq0, hq⟩ := joinFields_eq_some hq
  have hsplit : ∀ {l : List Text}, l ≠ [] → (∀ p ∈ l, (0 : UInt8) ∉ utf8 p) →
      (List.intercalate [0] (l.map utf8)).splitOn 0 = l.map utf8 := fun hl h0 =>
    splitOn_intercalate 0 (by simpa using h0) (by simpa using hl)
  have hmap : ps.map utf8 = qs.map utf8 := by
    rw [← hsplit hps hp0, ← hsplit hqs hq0, hp, hq]
  exact map_injective_iff.mpr (fun _ _ => utf8_inj) hmap

theorem stakeKeyInput_inj {p c p' c' : Text} (h : stakeKeyInput p c = some x)
    (h' : stakeKeyInput p' c' = some x) : p = p' ∧ c = c' := by
  simpa using joinFields_inj (by simp) (by simp) h h'

variable {rt : Runtime} {source weight : Text}

theorem memberLeafInput_eq_some (h : memberLeafInput rt source weight = some x) : ∃ amount fields,
      canonicalAmount rt weight = some amount ∧ joinFields ["STK".toList, source, amount] = some fields ∧
      x = 0 :: fields := by
  simp only [memberLeafInput, Option.bind_eq_bind, Option.bind_eq_some_iff, Option.pure_def,
    Option.some.injEq] at h
  obtain ⟨amount, hamount, fields, hfields, rfl⟩ := h
  exact ⟨amount, fields, hamount, hfields, rfl⟩

variable {leaf : StakeLeaf}

theorem leafInput_inj (h : memberLeafInput rt source weight = some x) (hleaf : leaf.input rt = some x) :
    ∃ w, leaf = .member source w ∧ canonicalAmount rt w = canonicalAmount rt weight := by
  obtain ⟨amount, fields, hamount, hfields, rfl⟩ := memberLeafInput_eq_some h
  cases leaf with
  | member source' w =>
    obtain ⟨amount', fields', hamount', hfields', heq⟩ := memberLeafInput_eq_some hleaf
    obtain rfl := (List.cons.inj heq).2
    have hparts := joinFields_inj (by simp) (by simp) hfields hfields'
    simp only [List.cons.injEq, and_true, true_and] at hparts
    exact ⟨w, by rw [hparts.1], by rw [hamount, hamount', hparts.2]⟩
  | total total =>
    simp only [StakeLeaf.input, totalLeafInput, Option.bind_eq_bind, Option.bind_eq_some_iff,
      Option.pure_def, Option.some.injEq] at hleaf
    obtain ⟨amount', -, fields', hfields', heq⟩ := hleaf
    rw [(List.cons.inj heq).2] at hfields'
    exact absurd (congrArg List.length (joinFields_inj (by simp) (by simp) hfields hfields')) (by simp)

theorem leafInput_ne_empty (h : leaf.input rt = some x) : x ≠ emptyInput := by
  have hhead : x.head? = some 0 := by
    cases leaf <;>
      simp only [StakeLeaf.input, memberLeafInput, totalLeafInput, Option.bind_eq_bind,
        Option.bind_eq_some_iff, Option.pure_def, Option.some.injEq] at h <;>
      obtain ⟨_, -, _, -, rfl⟩ := h <;> rfl
  intro heq
  rw [heq] at hhead
  exact absurd (Option.some.inj hhead) (by decide)

/-! ### The stakes root in the state root -/

section
variable {rt : Runtime} {S : Set Bytes}

/-- The leaf of the state root that stands for the stakes. -/
def SubRoots.stakes (rt : Runtime) (r : SubRoots) : Bytes := r.stakes_root.getD rt.emptyRoot

/-- The rest of the state root, as two nodes. -/
def SubRoots.others (rt : Runtime) (r : SubRoots) : Bytes × Bytes :=
  let pad := empty rt.hash emptyInput 0
  (nodeHash rt.hash (r.ownership_root.getD rt.emptyRoot) (r.tokens_root.getD rt.emptyRoot),
    nodeHash rt.hash (nodeHash rt.hash (r.contract_state_root.getD rt.emptyRoot) pad)
      (nodeHash rt.hash pad pad))

def SubRoots.balances (rt : Runtime) (r : SubRoots) : Bytes := r.balances_root.getD rt.emptyRoot

section
variable (rt : Runtime)

theorem clog_leaves (r : SubRoots) : Nat.clog 2 (r.leaves rt).length = 3 :=
  (by decide : Nat.clog 2 5 = 3)

theorem padded_leaves (pad : Bytes) (r : SubRoots) : padded pad (r.leaves rt) =
    [r.balances rt, r.stakes rt, r.ownership_root.getD rt.emptyRoot, r.tokens_root.getD rt.emptyRoot,
      r.contract_state_root.getD rt.emptyRoot, pad, pad, pad] := by
  unfold padded
  rw [clog_leaves]
  rfl

theorem stateRoot_eq (r : SubRoots) : stateRoot rt r =
    nodeHash rt.hash (nodeHash rt.hash (nodeHash rt.hash (r.balances rt) (r.stakes rt)) (r.others rt).1)
      (r.others rt).2 := by
  unfold stateRoot fixedMerkleRoot
  rw [clog_leaves, padded_leaves]
  rfl

theorem mem_stateRootInputs (r : SubRoots) : nodeInput (r.balances rt) (r.stakes rt) ∈ stateRootInputs rt r ∧
    nodeInput (nodeHash rt.hash (r.balances rt) (r.stakes rt)) (r.others rt).1 ∈ stateRootInputs rt r ∧
    nodeInput (nodeHash rt.hash (nodeHash rt.hash (r.balances rt) (r.stakes rt)) (r.others rt).1)
      (r.others rt).2 ∈ stateRootInputs rt r := by
  simp only [stateRootInputs, fixedInputs, mem_flatMap, mem_range, clog_leaves, padded_leaves]
  exact ⟨⟨0, by omega, mem_cons_self⟩, ⟨1, by omega, mem_cons_self⟩, ⟨2, by omega, mem_cons_self⟩⟩

end

/-- **The state root binds the stakes root.** The other sub-roots may be of any length. -/
theorem stakes_of_stateRoot (hS : Set.InjOn rt.hash.digest S) {r r' : SubRoots}
    (hr : ∀ x ∈ stateRootInputs rt r, x ∈ S) (hr' : ∀ x ∈ stateRootInputs rt r', x ∈ S)
    (hlen : (r.stakes rt).length = (r'.stakes rt).length) (h : stateRoot rt r = stateRoot rt r') :
    r.stakes rt = r'.stakes rt := by
  obtain ⟨h1, h2, h3⟩ := mem_stateRootInputs rt r
  obtain ⟨h1', h2', h3'⟩ := mem_stateRootInputs rt r'
  rw [stateRoot_eq, stateRoot_eq] at h
  have htop := (nodeHash_inj_left hS (hr _ h3) (hr' _ h3') (by simp) h).1
  have hmid := (nodeHash_inj_left hS (hr _ h2) (hr' _ h2') (by simp) htop).1
  exact (nodeHash_inj_right hS (hr _ h1) (hr' _ h1') hlen hmid).2

end

end XChainIndexer.SnapshotProof.Encoding
