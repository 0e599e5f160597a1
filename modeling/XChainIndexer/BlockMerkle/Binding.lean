import XChainIndexer.BlockMerkle.Proofs

/-! # The roots bind what they are made of

`roots_bind`: two blocks with one Merkle root have the same rows in the same order, and two assignments
of sub-roots with one state root assign the same roots. The fields of a row can be read off its leaf, the
leaf names the section, and the padding is no row's leaf.

Two things are not told apart, by the encoding: an amount that is `NULL` and one that is the text `null`,
and a sub-root that is absent and one that is the root of the empty tree (`same_roots`). -/

namespace XChainIndexer.BlockMerkle.Binding

open IndexTables Lib.MerklePath Lib.FixedTree List Option Lib.Outcome SnapshotProof.Encoding
open BlockMerkle.Content BlockMerkle.Proofs

/-! ### Fields -/

theorem numText_inj {m n : ℕ} (h : numText m = numText n) : m = n :=
  Nat.repr_inj.mp (String.toList_inj.mp h)

theorem numText_ne_nil (n : ℕ) : numText n ≠ [] := by
  rw [numText, Nat.toList_repr]
  exact Nat.toDigits_ne_nil

theorem numText_ne_null (n : ℕ) : numText n ≠ "null".toList := by
  intro h
  have hmem : 'n' ∈ Nat.toDigits 10 n := by
    rw [← Nat.toList_repr, ← numText, h]
    decide
  exact absurd (Nat.isDigit_of_mem_toDigits (by omega) le_rfl hmem) (by decide)

variable {t t' : Option Text}

theorem orNull_inj (ht : t ≠ some "null".toList) (ht' : t' ≠ some "null".toList)
    (h : orNull t = orNull t') : t = t' := by
  cases t with
  | none =>
    cases t' with
    | none => rfl
    | some x => exact absurd (congrArg some (h : "null".toList = x)).symm ht'
  | some x =>
    cases t' with
    | none => exact absurd (congrArg some (h : x = "null".toList)) ht
    | some y => exact congrArg some (h : x = y)

variable {n n' : Option ℕ}

theorem orEmptyNum_inj (h : orEmptyNum n = orEmptyNum n') : n = n' := by
  cases n with
  | none =>
    cases n' with
    | none => rfl
    | some x => exact absurd (h : [] = numText x).symm (numText_ne_nil x)
  | some x =>
    cases n' with
    | none => exact absurd (h : numText x = []) (numText_ne_nil x)
    | some y => exact congrArg some (numText_inj h)

theorem orNullNum_inj (h : orNullNum n = orNullNum n') : n = n' := by
  have hne : ∀ n : Option ℕ, n.map numText ≠ some "null".toList := by
    intro n hn
    obtain ⟨m, -, hm⟩ := map_eq_some_iff.mp hn
    exact numText_ne_null m hm
  exact map_injective (fun _ _ => numText_inj) (orNull_inj (hne n) (hne n') h)

/-! ### Rows -/

/-- The text with `NULL` read as empty. -/
def blank (t : Option Text) : Option Text := some (orEmpty t)

theorem blank_eq (h : orEmpty t = orEmpty t') : blank t = blank t' :=
  congrArg some h

def normalLedger (r : LedgerRow) : LedgerRow := { r with address := blank r.address, tick := blank r.tick }

def normalAction (r : ActionRow) : ActionRow := { r with action := blank r.action }

def normalContract (r : ContractRow) : ContractRow :=
  { r with source_address := blank r.source_address, code_hash := blank r.code_hash, status := blank r.status }

def normalState (r : StateRow) : StateRow :=
  { r with state_key := blank r.state_key, state_value := blank r.state_value }

def normalExecution (r : ExecutionRow) : ExecutionRow :=
  { r with caller_address := blank r.caller_address, status := blank r.status }

def normalEmission (r : EmissionRow) : EmissionRow := { r with emitted_action := blank r.emitted_action }

def normalTransfer (r : TransferRow) : TransferRow :=
  { r with source_address := blank r.source_address, tick := blank r.tick, status := blank r.status }

/-- A row with the null texts of its guarded columns read as empty. -/
def normalRow : Row → Row
  | .ledger kind r => .ledger kind (normalLedger r)
  | .action r => .action (normalAction r)
  | .contract r => .contract (normalContract r)
  | .state r => .state (normalState r)
  | .execution r => .execution (normalExecution r)
  | .emission r => .emission (normalEmission r)
  | .transfer kind r => .transfer kind (normalTransfer r)

def normal (b : BlockRows) : BlockRows where
  credits := b.credits.map normalLedger
  debits := b.debits.map normalLedger
  escrows := b.escrows.map normalLedger
  actions := b.actions.map normalAction
  contracts := b.contracts.map normalContract
  state := b.state.map normalState
  executions := b.executions.map normalExecution
  emissions := b.emissions.map normalEmission
  deposits := b.deposits.map normalTransfer
  withdrawals := b.withdrawals.map normalTransfer

/-- The amount of a row, if it has the column. -/
def amountOf : Row → Option Text
  | .ledger _ r => r.amount
  | .transfer _ r => r.amount
  | _ => none

/-- No amount is the text that `NULL` is written as. -/
def AmountsNamed (b : BlockRows) : Prop := ∀ r ∈ b.rows, amountOf r ≠ some "null".toList

instance (b : BlockRows) : Decidable (AmountsNamed b) := by unfold AmountsNamed; infer_instance

theorem ledgerKind_text_inj {k k' : LedgerKind} (h : k.text = k'.text) : k = k' := by
  cases k <;> cases k' <;> first | rfl | exact absurd h (by decide)

theorem transferKind_text_inj {k k' : TransferKind} (h : k.text = k'.text) : k = k' := by
  cases k <;> cases k' <;> first | rfl | exact absurd h (by decide)

/-- The section that a row is in. -/
def sectionOf : Row → ℕ
  | .ledger _ _ => 0
  | .action _ => 1
  | .contract _ => 2
  | .state _ => 3
  | .execution _ => 4
  | .emission _ => 5
  | .transfer _ _ => 6

variable {r r' : Row}

/-- The letter, the name of the table and the number of fields tell the sections apart. -/
theorem sectionOf_eq (h : r.parts = r'.parts) : sectionOf r = sectionOf r' := by
  have hlength := congrArg List.length h
  have hletter := congrArg List.head? h
  have htable := congrArg (fun l => l.tail.head?) h
  have hnames : ∀ kind : TransferKind, kind.text ≠ "executions".toList := by
    intro kind
    cases kind <;> decide
  cases r <;> cases r' <;> first
    | rfl
    | (simp [Row.parts] at hlength; done)
    | (simp [Row.parts] at hletter; done)
    | (simp [Row.parts] at htable; done)
    | exact absurd (some.inj htable) (hnames _)
    | exact absurd (some.inj htable).symm (hnames _)

/-- **A row can be read off its fields.** -/
theorem parts_inj (hr : amountOf r ≠ some "null".toList) (hr' : amountOf r' ≠ some "null".toList)
    (h : r.parts = r'.parts) : normalRow r = normalRow r' := by
  have hsection := sectionOf_eq h
  cases r <;> cases r' <;> simp [sectionOf] at hsection
  all_goals simp only [Row.parts, List.cons.injEq, true_and, and_true] at h
  case ledger.ledger k r k' r' =>
    obtain ⟨hkind, hindex, haddress, htick, hamount⟩ := h
    have hsame : r.amount = r'.amount := orNull_inj hr hr' hamount
    simp only [normalRow, normalLedger, ledgerKind_text_inj hkind, numText_inj hindex,
      blank_eq haddress, blank_eq htick, hsame]
  case action.action r r' =>
    obtain ⟨hindex, htx, haction⟩ := h
    simp only [normalRow, normalAction, numText_inj hindex, orEmptyNum_inj htx, blank_eq haction]
  case contract.contract r r' =>
    obtain ⟨hindex, hsource, hhash, hstatus⟩ := h
    simp only [normalRow, normalContract, numText_inj hindex, blank_eq hsource, blank_eq hhash,
      blank_eq hstatus]
  case state.state r r' =>
    obtain ⟨hindex, hkey, hvalue⟩ := h
    simp only [normalRow, normalState, numText_inj hindex, blank_eq hkey, blank_eq hvalue]
  case execution.execution r r' =>
    obtain ⟨hindex, hcontract, hcaller, hgas, hstatus, hcount⟩ := h
    simp only [normalRow, normalExecution, numText_inj hindex, orNullNum_inj hcontract,
      blank_eq hcaller, orEmptyNum_inj hgas, blank_eq hstatus, orEmptyNum_inj hcount]
  case emission.emission r r' =>
    obtain ⟨hexecution, haction, hindex, hposition⟩ := h
    simp only [normalRow, normalEmission, numText_inj hexecution, blank_eq haction,
      orNullNum_inj hindex, numText_inj hposition]
  case transfer.transfer k r k' r' =>
    obtain ⟨hkind, hindex, hcontract, hsource, htick, hamount, hstatus⟩ := h
    have hsame : r.amount = r'.amount := orNull_inj hr hr' hamount
    simp only [normalRow, normalTransfer, transferKind_text_inj hkind, numText_inj hindex,
      orNullNum_inj hcontract, blank_eq hsource, blank_eq htick, hsame, blank_eq hstatus]

theorem rows_normal (b : BlockRows) : (normal b).rows = b.rows.map normalRow := by
  simp [BlockRows.rows, normal, normalRow, Function.comp_def]

/-- The ledger rows of a kind. -/
def ledger? (kind : LedgerKind) : Row → Option LedgerRow
  | .ledger k r => if k = kind then some r else none
  | _ => none

def action? : Row → Option ActionRow
  | .action r => some r
  | _ => none

def contract? : Row → Option ContractRow
  | .contract r => some r
  | _ => none

def state? : Row → Option StateRow
  | .state r => some r
  | _ => none

def execution? : Row → Option ExecutionRow
  | .execution r => some r
  | _ => none

def emission? : Row → Option EmissionRow
  | .emission r => some r
  | _ => none

def transfer? (kind : TransferKind) : Row → Option TransferRow
  | .transfer k r => if k = kind then some r else none
  | _ => none

/-- The sections of a list of rows. -/
def sections (rows : List Row) : BlockRows where
  credits := rows.filterMap (ledger? .credit)
  debits := rows.filterMap (ledger? .debit)
  escrows := rows.filterMap (ledger? .escrow)
  actions := rows.filterMap action?
  contracts := rows.filterMap contract?
  state := rows.filterMap state?
  executions := rows.filterMap execution?
  emissions := rows.filterMap emission?
  deposits := rows.filterMap (transfer? .deposits)
  withdrawals := rows.filterMap (transfer? .withdrawals)

theorem sections_rows (b : BlockRows) : sections b.rows = b := by
  simp [sections, BlockRows.rows, filterMap_append, filterMap_map, Function.comp_def, ledger?,
    action?, contract?, state?, execution?, emission?, transfer?]

/-! ### The block -/

variable {H : Hash} {S : Set Bytes}

theorem normalRow_of_leafInput {input : Bytes} (h : r.leafInput = some input)
    (h' : r'.leafInput = some input) (hr : amountOf r ≠ some "null".toList)
    (hr' : amountOf r' ≠ some "null".toList) : normalRow r = normalRow r' := by
  obtain ⟨fields, hfields, rfl⟩ := map_eq_some_iff.mp h
  obtain ⟨fields', hfields', heq⟩ := map_eq_some_iff.mp h'
  obtain rfl := (List.cons.inj heq).2
  have hne : ∀ r : Row, r.parts ≠ [] := by
    intro r
    cases r <;> simp [Row.parts]
  exact parts_inj hr hr' (joinFields_inj (hne r) (hne r') hfields hfields')

variable {inputs : List Bytes}

theorem normalRows_of_inputs {rows rows' : List Row}
    (h : List.Forall₂ (fun r x => r.leafInput = some x) rows inputs)
    (h' : List.Forall₂ (fun r x => r.leafInput = some x) rows' inputs)
    (hr : ∀ r ∈ rows, amountOf r ≠ some "null".toList)
    (hr' : ∀ r ∈ rows', amountOf r ≠ some "null".toList) : rows.map normalRow = rows'.map normalRow := by
  induction h generalizing rows' with
  | nil =>
    cases h'
    rfl
  | cons hx hrest ih =>
    cases h' with
    | cons hx' hrest' =>
      rw [forall_mem_cons] at hr hr'
      rw [map_cons, map_cons, normalRow_of_leafInput hx hx' hr.1 hr'.1, ih hrest' hr.2 hr'.2]

variable {b : BlockRows}

section
variable (hS : Set.InjOn H.digest S) (hempty : emptyInput ∈ S)
include hS hempty

theorem emptyLeaf_notMem (hinputs : b.leafInputs = some inputs) (hin : ∀ x ∈ inputs, x ∈ S) :
    emptyLeaf H ∉ inputs.map H.digest := by
  intro hmem
  obtain ⟨input, hinput, heq⟩ := mem_map.mp hmem
  obtain ⟨row, -, hrow⟩ := (mem_of_mapM hinputs).2 input hinput
  have hsame : input = emptyInput := hS (hin input hinput) hempty heq
  rw [hsame] at hrow
  exact absurd (head_of_leafInput hrow) (by decide)

theorem leafInputs_of_root {b' : BlockRows}
    (hhashed : ∀ x ∈ b.hashed H, x ∈ S) (hhashed' : ∀ x ∈ b'.hashed H, x ∈ S) {root : Bytes}
    (h : b.merkleRoot H = some root) (h' : b'.merkleRoot H = some root) :
    ∃ inputs, b.leafInputs = some inputs ∧ b'.leafInputs = some inputs := by
  obtain ⟨leaves, hb, rfl⟩ := map_eq_some_iff.mp h
  obtain ⟨leaves', hb', hroot⟩ := map_eq_some_iff.mp h'
  have hpadded : padded (emptyLeaf H) leaves = padded (emptyLeaf H) leaves' := by
    refine root_inj hS (length_padded _ _) (length_padded _ _) (isLeaf_of_mem_padded hb hhashed hempty)
      (isLeaf_of_mem_padded hb' hhashed' hempty) (layersIn_of_hashed hb hhashed)
      (layersIn_of_hashed hb' hhashed') ?_
    rw [top_eq_root, top_eq_root]
    exact congrArg (fun x => [x]) hroot.symm
  obtain ⟨inputs, hinputs, rfl⟩ := map_eq_some_iff.mp hb
  obtain ⟨inputs', hinputs', rfl⟩ := map_eq_some_iff.mp hb'
  have hin : ∀ x ∈ inputs, x ∈ S := fun x hx => hhashed x (by simp [BlockRows.hashed, hinputs, hx])
  have hin' : ∀ x ∈ inputs', x ∈ S := fun x hx => hhashed' x (by simp [BlockRows.hashed, hinputs', hx])
  have hleaves := padded_inj (emptyLeaf_notMem hS hempty hinputs hin)
    (emptyLeaf_notMem hS hempty hinputs' hin') hpadded
  refine ⟨inputs, hinputs, ?_⟩
  rw [hinputs', map_digest_inj hS hin' hin hleaves.symm]

end

/-! ### The state root -/

/-- The sub-roots that are there have the length of a hash. -/
def Sized (rt : Runtime) (r : SubRoots) : Prop := ∀ x ∈ r.leaves rt, x.length = rt.hash.size

/-- **The state root binds the sub-roots.** -/
theorem leaves_of_stateRoot {rt : Runtime} (hS : Set.InjOn rt.hash.digest S) {r r' : SubRoots}
    (hsize : Sized rt r) (hsize' : Sized rt r') (hhashed : ∀ x ∈ stateRootInputs rt r, x ∈ S)
    (hhashed' : ∀ x ∈ stateRootInputs rt r', x ∈ S) (h : stateRoot rt r = stateRoot rt r') :
    r.leaves rt = r'.leaves rt := by
  have hlength : (r.leaves rt).length = (r'.leaves rt).length := rfl
  have hpadSize : ∀ {l : List Bytes}, (∀ x ∈ l, x.length = rt.hash.size) →
      ∀ x ∈ padded (emptyLeaf rt.hash) l, x.length = rt.hash.size := by
    intro l hl x hx
    rcases mem_padded hx with hx | rfl
    · exact hl x hx
    · exact length_empty _ _ 0
  have hpadded : padded (emptyLeaf rt.hash) (r.leaves rt) = padded (emptyLeaf rt.hash) (r'.leaves rt) := by
    refine iterate_layerUp_inj hS (by rw [length_padded, length_padded, hlength]) (hpadSize hsize)
      (hpadSize hsize') (layersIn_of_fixedInputs hhashed) (layersIn_of_fixedInputs hhashed') ?_
    rw [top_eq_root, hlength, top_eq_root]
    exact congrArg (fun x => [x]) h
  exact (append_inj hpadded hlength).1

/-- **The roots bind what they are made of.** -/
theorem roots_bind {rt : Runtime} (hS : Set.InjOn rt.hash.digest S) (hempty : emptyInput ∈ S) :
    (∀ (b b' : BlockRows) (root : Bytes), AmountsNamed b → AmountsNamed b' →
      (∀ x ∈ b.hashed rt.hash, x ∈ S) → (∀ x ∈ b'.hashed rt.hash, x ∈ S) →
      b.merkleRoot rt.hash = some root → b'.merkleRoot rt.hash = some root → normal b = normal b') ∧
    ∀ r r' : SubRoots, Sized rt r → Sized rt r' → (∀ x ∈ stateRootInputs rt r, x ∈ S) →
      (∀ x ∈ stateRootInputs rt r', x ∈ S) → stateRoot rt r = stateRoot rt r' →
      r.leaves rt = r'.leaves rt := by
  constructor
  · intro b b' root hnamed hnamed' hhashed hhashed' h h'
    obtain ⟨inputs, hinputs, hinputs'⟩ := leafInputs_of_root hS hempty hhashed hhashed' h h'
    rw [← sections_rows (normal b), ← sections_rows (normal b'), rows_normal, rows_normal,
      normalRows_of_inputs (forall₂_of_mapM hinputs) (forall₂_of_mapM hinputs') hnamed hnamed']
  · intro r r' hsize hsize' hhashed hhashed' h
    exact leaves_of_stateRoot hS hsize hsize' hhashed hhashed' h

/-! ### What is not told apart -/

section Same

open StateTree.Reference

def shortRuntime : Runtime := ⟨wordHash, id, id, fun _ => rfl⟩

def oneCredit (amount : Option Text) : BlockRows :=
  ⟨[⟨1, some ['a'], some ['T'], amount⟩], [], [], [], [], [], [], [], [], []⟩

def noRoots : SubRoots := ⟨none, none, none, none, none⟩

def emptyBalances : SubRoots := ⟨some shortRuntime.emptyRoot, none, none, none, none⟩

/-- **Same roots.** -/
theorem same_roots :
    (oneCredit none ≠ oneCredit (some "null".toList) ∧ normal (oneCredit none) ≠
        normal (oneCredit (some "null".toList)) ∧
      (oneCredit none).merkleRoot wordHash = (oneCredit (some "null".toList)).merkleRoot wordHash) ∧
    noRoots ≠ emptyBalances ∧ stateRoot shortRuntime noRoots = stateRoot shortRuntime emptyBalances := by
  decide +kernel

/-- Rows of three sections, so that a leaf is padded. -/
def threeRows (tick : Option Text) : BlockRows :=
  ⟨[⟨1, some ['a'], tick, some ['5']⟩], [⟨1, some ['b'], tick, some ['5']⟩], [], [⟨1, some 1, some ['S']⟩],
    [], [], [], [], [], []⟩

def balancesOnly (others : Option Bytes) : SubRoots := ⟨some (word 5 6).1, others, others, others, others⟩

/-- What is hashed for a block and for a state root. -/
def boundInputs : List Bytes :=
  (emptyInput :: (threeRows none).hashed wordHash ++
    stateRootInputs shortRuntime (balancesOnly none)).dedup

/-- A `NULL` tick and an empty one give one root, and are the same row up to that; so are an absent
sub-root and the empty one. -/
theorem roots_bind_threeRows :
    ∃ root, (threeRows none).merkleRoot wordHash = some root ∧
      (threeRows (some [])).merkleRoot wordHash = some root ∧
      normal (threeRows none) = normal (threeRows (some [])) ∧
      (balancesOnly none).leaves shortRuntime =
        (balancesOnly (some shortRuntime.emptyRoot)).leaves shortRuntime := by
  have hS : Set.InjOn shortRuntime.hash.digest { x | x ∈ boundInputs } :=
    injOn_of_nodup (by decide +kernel)
  have hbind := roots_bind hS (show emptyInput ∈ boundInputs by decide +kernel)
  have hsome : ((threeRows none).merkleRoot wordHash).isSome = true := by decide +kernel
  obtain ⟨root, hroot⟩ := isSome_iff_exists.mp hsome
  have hsame : (threeRows none).merkleRoot wordHash = (threeRows (some [])).merkleRoot wordHash := by
    decide +kernel
  refine ⟨root, hroot, hsame ▸ hroot, ?_, ?_⟩
  · exact hbind.1 _ _ root (by decide +kernel) (by decide +kernel)
      (show ∀ x ∈ _, x ∈ boundInputs by decide +kernel) (show ∀ x ∈ _, x ∈ boundInputs by decide +kernel)
      hroot (hsame ▸ hroot)
  · refine hbind.2 _ _ ?_ ?_ (show ∀ x ∈ _, x ∈ boundInputs by decide +kernel)
      (show ∀ x ∈ _, x ∈ boundInputs by decide +kernel) (by decide +kernel)
    · unfold Sized; decide +kernel
    · unfold Sized; decide +kernel

end Same

end XChainIndexer.BlockMerkle.Binding
