import XChainIndexer.Interning
import XChainIndexer.Ledger.Exact
import XChainIndexer.Lib.Run
import XChainIndexer.StateTree.Guards

/-! # Every balance a block moves is touched

Main result: `touched_set_complete`, provided that no name is interned under an id that the block has
already resolved to another name. The provision is needed (`reassigned_id_refuses_block`): an id freed by
a savepoint rollback is handed out again, and the memo still answers with the old name. -/

namespace XChainIndexer.StateTree.Touched

open IndexTables Interning Ledger.Records List Option Ledger.Exact Ledger.Block Lib.Keyed
open Lib.Savepoint Lib.Run Lib.NodeStore StateTree.Smt StateTree.Guards

/-! ### The property and its condition -/

/-- What earlier blocks left: tables of names in order, and no action of this block yet. -/
structure Opened (c : BlockCtx) (db : BlockDb) : Prop where
  tickers : IndexOk db.names.tickers
  addresses : IndexOk db.names.addresses
  rows : ∀ t, ∀ r ∈ db.rows t, r.actionIndex < getNextActionIndex db
  actions : ∀ a ∈ db.actions, a.blockIndex ≠ c.blockIndex

def touchedKeys (s : State) : List Text := s.smt.touched.getD []

/-- Every credit and debit row that the block wrote and kept is touched under its canonical names. -/
def TouchedComplete (start : BlockDb) (s : State) : Prop :=
  ∀ t ∈ [LedgerTable.credits, .debits], ∀ r ∈ s.db.rows t, r ∉ start.rows t →
    ∀ n ∈ joinNames s.db.toDb r, touchedKey n.1 n.2 ∈ touchedKeys s

/-- The keys of the touched balances, and of the locked escrows beside them, do not collide. -/
structure KeysApart {H : Type} (M : Merkle H) (s : State) (escrows : List (List Bool × Option H)) :
    Prop where
  balances : ∀ e ∈ touchedKeys s, ∀ e' ∈ touchedKeys s, entryKey M e = entryKey M e' → e = e'
  escrows : ∀ l ∈ escrows, l.1.length = M.depth ∧ ∀ e ∈ touchedKeys s, l.1 ≠ entryKey M e

/-- Neither guard refuses the block, on whatever tree it continues. -/
def GuardsPass (c : BlockCtx) (s : State) : Prop :=
  ∀ (H : Type) [DecidableEq H] (M : Merkle H) (prior : Store H × H)
    (escrows : List (List Bool × Option H)), Hashed M.toNodeHash prior.1 → KeysApart M s escrows →
    (∀ missing, threadBalancesRoot M c s prior escrows ≠ .error (.touchedSet missing)) ∧
      ∀ absent, threadBalancesRoot M c s prior escrows ≠ .error (.leafPresence absent)

/-- The next id is not remembered under another name. -/
def unremembered (memo : List (ℕ × Text)) (rows : List IndexRow) (name : Text) : Bool :=
  (memo.lookup (nextId rows)).all (· = name)

def safeTicker (s : State) (tick : Text) : Bool :=
  unremembered s.smt.tickNames s.db.names.tickers tick

def safeAddress (s : State) (address : Text) : Bool :=
  unremembered s.smt.addressNames s.db.names.addresses (substringUnits 120 address)

/-- **The condition.** A step that may intern a name does not give it an id that the block remembers
under another name. -/
def safe (s : State) : Event → Bool
  | .ledger _ _ r => safeTicker s r.tick.text && safeAddress s r.address.text
  | .ticker tick => safeTicker s tick
  | .address address => safeAddress s address
  | _ => true

/-! ### The memos -/

/-- A remembered name is that of the row, where there is one. -/
def MemoOk (memo : List (ℕ × Text)) (rows : List IndexRow) : Prop :=
  ∀ row ∈ rows, ∀ name, memo.lookup row.id = some name → name = row.name

section
variable {memo : List (ℕ × Text)} {rows rows' : List IndexRow}

theorem MemoOk.subset (h : MemoOk memo rows')
    (hsub : rows ⊆ rows') : MemoOk memo rows := fun row hrow => h row (hsub hrow)

theorem MemoOk.interned {block : ℕ} {name : Text} (h : MemoOk memo rows) (hi : Interned block name rows rows')
    (hsafe : unremembered memo rows name) : MemoOk memo rows' := by
  intro row hrow found hfound
  rcases hi.mem hrow with hold | ⟨hid, hname⟩
  · exact h row hold found hfound
  · unfold unremembered at hsafe
    rw [← hid, hfound, all_some, decide_eq_true_eq] at hsafe
    exact hsafe.trans hname.symm

end

theorem smtName_spec {memo : List (ℕ × Text)} {rows : List IndexRow} (h : MemoOk memo rows)
    (hok : IndexOk rows) {row : IndexRow} (hrow : row ∈ rows) :
    (smtName rows memo row.id).2 = some row.name ∧ MemoOk (smtName rows memo row.id).1 rows := by
  unfold smtName
  cases hlook : memo.lookup row.id with
  | some name => exact ⟨congrArg some (h row hrow name hlook), h⟩
  | none =>
    have hfind : (rows.find? fun r => r.id = row.id) = some row := find?_key hok.nodup hrow
    rw [hfind]
    dsimp only
    rw [if_neg (hok.name_ne row hrow)]
    refine ⟨rfl, fun r hr name hname => ?_⟩
    rw [lookup_cons] at hname
    split at hname
    · rename_i hid
      rw [beq_iff_eq] at hid
      rw [← some.inj hname, hok.row_unique hr hrow hid]
    · exact h r hr name hname

variable {keys : List Text} {n : Node}

theorem recordTouchedKey_spec (hopen : n.smt.touched = some keys)
    (htick : MemoOk n.smt.tickNames n.db.names.tickers)
    (haddr : MemoOk n.smt.addressNames n.db.names.addresses) (hticks : IndexOk n.db.names.tickers)
    (haddrs : IndexOk n.db.names.addresses) {y x : IndexRow} (hy : y ∈ n.db.names.tickers)
    (hx : x ∈ n.db.names.addresses) :
    let smt := (recordTouchedKey n (some y.id) (some x.id)).smt
    smt.touched = some (touchedKey x.name y.name :: keys) ∧
      MemoOk smt.tickNames n.db.names.tickers ∧ MemoOk smt.addressNames n.db.names.addresses := by
  obtain ⟨hname, hmemo⟩ := smtName_spec htick hticks hy
  obtain ⟨hname', hmemo'⟩ := smtName_spec haddr haddrs hx
  unfold recordTouchedKey
  rw [hopen]
  dsimp only
  rw [hname, hname']
  dsimp only
  rw [if_pos ⟨hticks.name_ne y hy, haddrs.name_ne x hx⟩]
  exact ⟨rfl, hmemo, hmemo'⟩

theorem recordTouchedKey_none {tickId addressId : Option ℕ}
    (h : tickId = none ∨ addressId = none) : recordTouchedKey n tickId addressId = n := by
  unfold recordTouchedKey
  rcases h with rfl | rfl
  · split <;> simp_all
  · split <;> simp_all

/-! ### The invariant -/

/-- The row's ids have rows, and the key of their names is among `keys`. -/
def Named (keys : List Text) (names : Names) (r : LedgerRow) : Prop :=
  ∀ a t, r.addressId = some a → r.tickId = some t →
    ∃ x ∈ names.addresses, ∃ y ∈ names.tickers, x.id = a ∧ y.id = t ∧ touchedKey x.name y.name ∈ keys

/-- What holds of the data of the transaction and of every savepoint. -/
structure DbOk (start : BlockDb) (keys : List Text) (db : BlockDb) : Prop where
  tickers : IndexOk db.names.tickers
  addresses : IndexOk db.names.addresses
  covered : ∀ t, ∀ r ∈ db.rows t, r ∈ start.rows t ∨ Named keys db.names r
  actions : ∀ a ∈ db.actions, a ∈ start.actions ∨ getNextActionIndex start ≤ a.actionIndex
  kept : start.actions ⊆ db.actions

def NamesGrow (older newer : BlockDb) : Prop :=
  older.names.tickers ⊆ newer.names.tickers ∧ older.names.addresses ⊆ newer.names.addresses

structure Inv (start : BlockDb) (s : State) : Prop where
  installed : s.smt.touched = some (touchedKeys s)
  all : s.tx.All (DbOk start (touchedKeys s))
  grown : s.tx.Grown NamesGrow
  tickMemo : MemoOk s.smt.tickNames s.db.names.tickers
  addressMemo : MemoOk s.smt.addressNames s.db.names.addresses

variable {c : BlockCtx} {start : BlockDb} {s : State}

theorem NamesGrow.refl (db : BlockDb) : NamesGrow db db := ⟨List.Subset.refl _, List.Subset.refl _⟩

theorem NamesGrow.trans {a b d : BlockDb} (h : NamesGrow a b) (h' : NamesGrow b d) : NamesGrow a d :=
  ⟨List.Subset.trans h.1 h'.1, List.Subset.trans h.2 h'.2⟩

variable {keys keys' : List Text}

theorem Named.mono {names names' : Names} {r : LedgerRow}
    (h : Named keys names r) (hkeys : keys ⊆ keys') (ht : names.tickers ⊆ names'.tickers)
    (ha : names.addresses ⊆ names'.addresses) : Named keys' names' r := by
  intro a t hra hrt
  obtain ⟨x, hx, y, hy, hxa, hyt, hkey⟩ := h a t hra hrt
  exact ⟨x, ha hx, y, ht hy, hxa, hyt, hkeys hkey⟩

variable {db : BlockDb}

theorem DbOk.mono (h : DbOk start keys db) (hkeys : keys ⊆ keys') : DbOk start keys' db :=
  { h with covered := fun t r hr => (h.covered t r hr).imp_right fun hn =>
      hn.mono hkeys (List.Subset.refl _) (List.Subset.refl _) }

theorem Inv.write (h : Inv start s) (hnames : db.names = s.db.names)
    (hdb : DbOk start (touchedKeys s) db) : Inv start (s.writeDb db) where
  installed := h.installed
  all := h.all.write hdb
  grown := by
    refine Tx.Grown.write (R := NamesGrow) NamesGrow.trans h.grown ?_
    unfold NamesGrow
    rw [hnames]
    exact NamesGrow.refl s.db
  tickMemo := by
    show MemoOk s.smt.tickNames db.names.tickers
    rw [hnames]
    exact h.tickMemo
  addressMemo := by
    show MemoOk s.smt.addressNames db.names.addresses
    rw [hnames]
    exact h.addressMemo

theorem DbOk.names (h : DbOk start keys db) {names : Names}
    (ht : IndexOk names.tickers) (ha : IndexOk names.addresses)
    (hst : db.names.tickers ⊆ names.tickers) (hsa : db.names.addresses ⊆ names.addresses) :
    DbOk start keys { db with toDb := { db.toDb with names } } where
  tickers := ht
  addresses := ha
  covered := fun t r hr => by
    have hr' : r ∈ db.rows t := by cases t <;> exact hr
    exact (h.covered t r hr').imp_right fun hn => hn.mono (List.Subset.refl _) hst hsa
  actions := h.actions
  kept := h.kept

theorem Inv.ticker (h : Inv start s) {tick : Text} (hsafe : safeTicker s tick) :
    Inv start (s.writeNames (createTicker c.toCtx s.db.names tick).1) := by
  obtain ⟨haddr, hint, _⟩ := createTicker_spec c.toCtx s.db.names tick
  have hok := h.all.1
  have hsame : s.db.names.addresses ⊆ (createTicker c.toCtx s.db.names tick).1.addresses :=
    fun _ hx => haddr.symm ▸ hx
  refine ⟨h.installed, h.all.write (hok.names (hok.tickers.interned hint) (haddr.symm ▸ hok.addresses)
    hint.subset hsame), Tx.Grown.write (R := NamesGrow) NamesGrow.trans h.grown ⟨hint.subset, hsame⟩,
    h.tickMemo.interned hint hsafe, ?_⟩
  show MemoOk s.smt.addressNames (createTicker c.toCtx s.db.names tick).1.addresses
  rw [haddr]
  exact h.addressMemo

theorem Inv.address (h : Inv start s) {address : Text} (hsafe : safeAddress s address) :
    Inv start (s.writeNames (createAddress c.toCtx s.db.names address).1) := by
  obtain ⟨htick, hint, _⟩ := createAddress_spec c.toCtx s.db.names address
  have hok := h.all.1
  have hsame : s.db.names.tickers ⊆ (createAddress c.toCtx s.db.names address).1.tickers :=
    fun _ hx => htick.symm ▸ hx
  refine ⟨h.installed, h.all.write (hok.names (htick.symm ▸ hok.tickers) (hok.addresses.interned hint)
    hsame hint.subset), Tx.Grown.write (R := NamesGrow) NamesGrow.trans h.grown ⟨hsame, hint.subset⟩,
    ?_, h.addressMemo.interned hint hsafe⟩
  show MemoOk s.smt.tickNames (createAddress c.toCtx s.db.names address).1.tickers
  rw [htick]
  exact h.tickMemo

theorem getNextActionIndex_mono (h : start.actions ⊆ db.actions) :
    getNextActionIndex start ≤ getNextActionIndex db := by
  refine Nat.succ_le_succ (foldl_max_le_iff.mpr ⟨Nat.zero_le _, fun i hi => ?_⟩)
  exact (foldl_max_le_iff.mp le_rfl).2 i (map_subset _ h hi)

theorem Inv.action (h : Inv start s) : Inv start (s.writeDb (createActionIndex c s.db)) := by
  have hok := h.all.1
  refine h.write rfl { hok with actions := fun a ha => ?_, kept := fun a ha => ?_ }
  · rcases mem_append.mp ha with ha | ha
    · exact hok.actions a ha
    · rw [mem_singleton.mp ha]
      exact .inr (getNextActionIndex_mono hok.kept)
  · exact mem_append_left _ (hok.kept ha)

/-! ### A ledger write -/

/-- Record the touched key of a row and write it. -/
def recordRow (s : State) (t : LedgerTable) (row : LedgerRow) : State :=
  { s.writeDb { s.db with toDb := upsertRow s.db.toDb t row } with
    smt := (recordTouchedKey ⟨s.db.toDb, s.smt⟩ row.tickId row.addressId).smt }

/-- The names of a record are resolved one after the other, then its row is written. -/
theorem writeRecord_eq (c : BlockCtx) (s : State) (t : LedgerTable) (actionIndex : ℕ) (r : Record) :
    s.writeRecord c t actionIndex r =
      recordRow ((s.writeNames (createTicker c.toCtx s.db.names r.tick.text).1).writeNames
        (createAddress c.toCtx (createTicker c.toCtx s.db.names r.tick.text).1 r.address.text).1) t
        (writtenRow c s.db.issues actionIndex (r, (resolveRecord c s.db.names r).2)) := by
  unfold State.writeRecord recordRow
  dsimp only
  rw [createLedgerChangeRecord_db]
  rfl

variable {row : LedgerRow}

theorem covered_upsert (h : DbOk start keys db) (t : LedgerTable) (hrow : Named keys db.names row) :
    DbOk start keys { db with toDb := upsertRow db.toDb t row } where
  tickers := by
    unfold upsertRow
    rw [Db.names_setRows]
    exact h.tickers
  addresses := by
    unfold upsertRow
    rw [Db.names_setRows]
    exact h.addresses
  covered := fun t' r hr => by
    unfold upsertRow at hr ⊢
    rw [Db.rows_setRows] at hr
    rw [Db.names_setRows]
    split_ifs at hr with ht
    · rcases mem_upsert _ hr with hold | rfl
      · exact ht ▸ h.covered t r hold
      · exact .inr hrow
    · exact h.covered t' r hr
  actions := h.actions
  kept := h.kept

theorem Inv.recordRow (h : Inv start s) (t : LedgerTable)
    (ht : ∀ id, row.tickId = some id → ∃ y ∈ s.db.names.tickers, y.id = id)
    (ha : ∀ id, row.addressId = some id → ∃ x ∈ s.db.names.addresses, x.id = id) :
    Inv start (recordRow s t row) := by
  have hnames : (upsertRow s.db.toDb t row).names = s.db.names := by
    unfold upsertRow
    rw [Db.names_setRows]
  by_cases hnone : row.tickId = none ∨ row.addressId = none
  · -- no key to touch
    have hrow : Named (touchedKeys s) s.db.names row := by
      intro a i hai hti
      rcases hnone with hn | hn
      · rw [hn] at hti
        simp at hti
      · rw [hn] at hai
        simp at hai
    unfold Touched.recordRow
    rw [recordTouchedKey_none hnone]
    exact h.write hnames (covered_upsert h.all.1 t hrow)
  · obtain ⟨ht', ha'⟩ := not_or.mp hnone
    obtain ⟨i, hti⟩ := ne_none_iff_exists'.mp ht'
    obtain ⟨a, hai⟩ := ne_none_iff_exists'.mp ha'
    obtain ⟨y, hy, rfl⟩ := ht i hti
    obtain ⟨x, hx, rfl⟩ := ha a hai
    obtain ⟨htouched, htick, haddr⟩ := recordTouchedKey_spec (n := ⟨s.db.toDb, s.smt⟩) h.installed
      h.tickMemo h.addressMemo h.all.1.tickers h.all.1.addresses hy hx
    rw [← hti, ← hai] at htouched htick haddr
    have hkeys : touchedKeys (Touched.recordRow s t row) = touchedKey x.name y.name :: touchedKeys s := by
      unfold touchedKeys Touched.recordRow
      rw [htouched]
      rfl
    have hsub : touchedKeys s ⊆ touchedKeys (Touched.recordRow s t row) :=
      hkeys ▸ subset_cons_self _ _
    have hrow : Named (touchedKeys (Touched.recordRow s t row)) s.db.names row := by
      intro a' i' ha' hi'
      rw [hai, some.injEq] at ha'
      rw [hti, some.injEq] at hi'
      exact ⟨x, hx, y, hy, ha', hi', hkeys ▸ mem_cons_self⟩
    refine ⟨htouched.trans (congrArg some hkeys.symm), ⟨covered_upsert (h.all.1.mono hsub) t hrow,
      fun sv hsv => (h.all.2 sv hsv).mono hsub⟩, ?_, ?_, ?_⟩
    · refine Tx.Grown.write (R := NamesGrow) NamesGrow.trans h.grown ?_
      show s.db.names.tickers ⊆ (upsertRow s.db.toDb t row).names.tickers ∧
        s.db.names.addresses ⊆ (upsertRow s.db.toDb t row).names.addresses
      rw [hnames]
      exact NamesGrow.refl s.db
    · show MemoOk _ (upsertRow s.db.toDb t row).names.tickers
      rw [hnames]
      exact htick
    · show MemoOk _ (upsertRow s.db.toDb t row).names.addresses
      rw [hnames]
      exact haddr

theorem Inv.ledger (h : Inv start s) {t : LedgerTable} {actionIndex : ℕ} {r : Record}
    (hsafe : safe s (.ledger t actionIndex r)) : Inv start (s.writeRecord c t actionIndex r) := by
  simp only [safe, Bool.and_eq_true] at hsafe
  obtain ⟨haddr, hint, hid⟩ := createTicker_spec c.toCtx s.db.names r.tick.text
  obtain ⟨htick, hint', hid'⟩ := createAddress_spec c.toCtx
    (createTicker c.toCtx s.db.names r.tick.text).1 r.address.text
  have h1 := h.ticker (c := c) hsafe.1
  have hsafe' : safeAddress (s.writeNames (createTicker c.toCtx s.db.names r.tick.text).1)
      r.address.text := by
    show unremembered s.smt.addressNames (createTicker c.toCtx s.db.names r.tick.text).1.addresses _
    rw [haddr]
    exact hsafe.2
  have h2 := h1.address (c := c) hsafe'
  rw [writeRecord_eq]
  refine h2.recordRow t (fun id hi => ?_) fun id hi => hid' id hi
  show ∃ y ∈ (createAddress c.toCtx (createTicker c.toCtx s.db.names r.tick.text).1
    r.address.text).1.tickers, y.id = id
  rw [htick]
  exact hid id hi

/-! ### The run -/

/-- **A safe step keeps the invariant.** -/
theorem inv_step (s : State) (e : Event) (s' : State) (hsafe : safe s e)
    (h : step c s e = some s') (hi : Inv start s) : Inv start s' := by
  cases e with
  | action => exact some.inj h ▸ hi.action
  | ledger t actionIndex r => exact some.inj h ▸ hi.ledger hsafe
  | ticker tick => exact some.inj h ▸ hi.ticker hsafe
  | address address => exact some.inj h ▸ hi.address hsafe
  | issue row =>
    have hok := hi.all.1
    refine some.inj h ▸ hi.write rfl { hok with covered := fun t r hr => hok.covered t r ?_ }
    cases t <;> exact hr
  | createSavepoint name =>
    exact some.inj h ▸ ⟨hi.installed, hi.all.savepoint name, hi.grown.savepoint NamesGrow.refl name,
      hi.tickMemo, hi.addressMemo⟩
  | releaseSavepoint name =>
    obtain ⟨tx, htx, rfl⟩ := map_eq_some_iff.mp h
    have hcur : tx.cur = s.tx.cur := Tx.release_cur htx
    refine ⟨hi.installed, hi.all.release htx, hi.grown.release htx, ?_, ?_⟩
    · show MemoOk _ tx.cur.names.tickers
      rw [hcur]
      exact hi.tickMemo
    · show MemoOk _ tx.cur.names.addresses
      rw [hcur]
      exact hi.addressMemo
  | rollbackToSavepoint name =>
    -- the names of the savepoint are among those of now, so the memos are right about them
    obtain ⟨tx, htx, rfl⟩ := map_eq_some_iff.mp h
    obtain ⟨sv, hsv, hcur⟩ := Tx.rollbackTo_mem htx
    obtain ⟨ht, ha⟩ := hi.grown.of_save hsv
    refine ⟨hi.installed, hi.all.rollbackTo htx, hi.grown.rollbackTo NamesGrow.refl htx,
      hi.tickMemo.subset ?_, hi.addressMemo.subset ?_⟩
    · show tx.cur.names.tickers ⊆ s.db.names.tickers
      rw [hcur]
      exact ht
    · show tx.cur.names.addresses ⊆ s.db.names.addresses
      rw [hcur]
      exact ha

theorem inv_openBlock (h : Opened c start) : Inv start (openBlock start) where
  installed := rfl
  all := ⟨⟨h.tickers, h.addresses, fun _ _ hr => Or.inl hr, fun _ ha => Or.inl ha,
    List.Subset.refl _⟩, by simp [openBlock]⟩
  grown := pairwise_singleton _ _
  tickMemo := fun row _ name hname => by simp [openBlock] at hname
  addressMemo := fun row _ name hname => by simp [openBlock] at hname

theorem Inv.touchedComplete (h : Inv start s) : TouchedComplete start s := by
  intro t _ r hr hnew n hn
  obtain ⟨x, hx, hn⟩ := mem_flatMap.mp hn
  obtain ⟨y, hy, rfl⟩ := mem_map.mp hn
  simp only [mem_filter, decide_eq_true_eq] at hx hy
  rcases h.all.1.covered t r hr with hold | hnamed
  · exact absurd hold hnew
  · obtain ⟨x', hx', y', hy', hid, hid', hkey⟩ := hnamed x.id y.id hx.2.symm hy.2.symm
    rw [h.all.1.addresses.row_unique hx.1 hx' hid.symm, h.all.1.tickers.row_unique hy.1 hy' hid'.symm]
    exact hkey

/-! ### The guards -/

section guards

variable {H : Type} [DecidableEq H] {M : Merkle H} {ctx : Ctx} {db : Db} {tree tree' : Store H × H}

/-- The net balance of a touched entry. -/
def entryNet (ctx : Ctx) (db : Db) (entry : Text) : ℚ :=
  getNetBalance ctx db (splitEntry entry).1 (splitEntry entry).2

/-- The leaf of the entry is in the tree, unless its balance is zero. -/
def Landed (M : Merkle H) (ctx : Ctx) (db : Db) (tree : Store H × H) (entry : Text) : Prop :=
  entryNet ctx db entry ≠ 0 →
    Path tree.1 tree.2 (entryKey M entry) (M.amountLeaf (entryNet ctx db entry))

variable {entry : Text} {leaf : Option H}

omit [DecidableEq H] in
theorem entryLeaf_ok (h : entryLeaf M ctx db entry = .ok leaf)
    (hne : entryNet ctx db entry ≠ 0) : leaf = some (M.amountLeaf (entryNet ctx db entry)) := by
  unfold entryLeaf leafOrNull at h
  dsimp only at h
  change getNetBalance ctx db _ _ ≠ 0 at hne
  split_ifs at h
  · rw [Except.ok.injEq] at h
    exact h.symm

theorem landed_update_ne (hst : Hashed M.toNodeHash tree.1) {key : List Bool}
    (hlen : key.length = M.depth) (hne : key ≠ entryKey M entry) (h : Landed M ctx db tree entry) :
    Landed M ctx db (update M.toNodeHash tree.1 tree.2 key leaf) entry := by
  intro hnet
  refine path_update_ne hst (M.amountLeaf_ne _) ?_ hne.symm (h hnet)
  rw [hlen]
  exact M.balanceKey_length _ _

variable {entries : List Text}

/-- The entries applied have landed, and those that had landed before stay. -/
theorem landed_applyBalances {all : List Text}
    (hinj : ∀ e ∈ all, ∀ e' ∈ all, entryKey M e = entryKey M e' → e = e')
    (hsub : entries ⊆ all) (hst : Hashed M.toNodeHash tree.1)
    (h : applyBalances M ctx db entries tree = .ok tree') : Hashed M.toNodeHash tree'.1 ∧
      ∀ e ∈ all, (e ∈ entries ∨ Landed M ctx db tree e) → Landed M ctx db tree' e := by
  induction entries generalizing tree with
  | nil =>
    rw [applyBalances, Except.ok.injEq] at h
    subst h
    exact ⟨hst, fun e _ he => he.resolve_left (by simp)⟩
  | cons x entries ih =>
    rw [applyBalances] at h
    split at h
    · simp at h
    · rename_i leaf hleaf
      obtain ⟨hst', hland⟩ := ih (fun e he => hsub (mem_cons_of_mem _ he)) (hashed_update hst) h
      refine ⟨hst', fun e he hor => hland e he ?_⟩
      by_cases hex : e = x
      · subst hex
        refine Or.inr fun hne => ?_
        rw [entryLeaf_ok hleaf hne]
        exact path_update_self hst (M.amountLeaf_ne _)
      · rcases hor with hmem | hl
        · exact .inl ((mem_cons.mp hmem).resolve_left hex)
        · refine Or.inr (landed_update_ne hst (M.balanceKey_length _ _) ?_ hl)
          exact fun hk => hex (hinj e he x (hsub mem_cons_self) hk.symm)

theorem landed_applyEscrowLeaves {escrows : List (List Bool × Option H)}
    (hesc : ∀ l ∈ escrows, l.1.length = M.depth ∧ l.1 ≠ entryKey M entry)
    (hst : Hashed M.toNodeHash tree.1) (h : Landed M ctx db tree entry) :
    Landed M ctx db (applyEscrowLeaves M escrows tree) entry := by
  induction escrows generalizing tree with
  | nil => exact h
  | cons l escrows ih =>
    obtain ⟨hlen, hne⟩ := hesc l mem_cons_self
    exact ih (fun x hx => hesc x (mem_cons_of_mem _ hx)) (hashed_update hst)
      (landed_update_ne hst hlen hne h)

theorem not_leafAbsent (h : Landed M ctx db tree entry) : leafAbsent M ctx db tree entry = false := by
  unfold leafAbsent
  by_cases hnet : entryNet ctx db entry = 0
  · have hzero : getNetBalance ctx db (splitEntry entry).1 (splitEntry entry).2 = 0 := hnet
    simp [hzero]
  · rw [prove_of_path (h hnet) (M.amountLeaf_ne _)]
    rfl

theorem applyBalances_error {refusal : Refusal} (h : applyBalances M ctx db entries tree = .error refusal) :
    ∃ entry, refusal = .nonCanonicalAmount entry := by
  induction entries generalizing tree with
  | nil => simp [applyBalances] at h
  | cons x entries ih =>
    rw [applyBalances] at h
    split at h
    · rename_i r hr
      rw [Except.error.injEq] at h
      subst h
      unfold entryLeaf leafOrNull at hr
      dsimp only at hr
      split_ifs at hr
      all_goals
        rw [Except.error.injEq] at hr
        exact ⟨x, hr.symm⟩
    · exact ih h

end guards

variable {e : Text}

theorem mem_touchedEntries : e ∈ touchedEntries s.smt ↔ e ∈ touchedKeys s := by
  unfold touchedEntries touchedKeys
  rw [mem_eraseDups, mem_reverse]

theorem Inv.ledgerKeys (h : Inv start s) (ho : Opened c start)
    (he : e ∈ ledgerKeysForBlock s.db c.blockIndex) : e ∈ touchedKeys s := by
  obtain ⟨n, hn, rfl⟩ := mem_map.mp he
  obtain ⟨r, hr, hjoin⟩ := mem_flatMap.mp (mem_of_mem_filter hn)
  obtain ⟨hrow, hof⟩ := mem_filter.mp hr
  obtain ⟨a, ha, hact⟩ := any_eq_true.mp hof
  simp only [Bool.and_eq_true, decide_eq_true_eq] at hact
  -- a row of an action of this block was not there before it
  have hnew : ∀ t, r ∉ start.rows t := by
    intro t hold
    have hlt := ho.rows t r hold
    rcases h.all.1.actions a ha with ha | ha
    · exact ho.actions a ha hact.2
    · omega
  rcases mem_append.mp hrow with hrow | hrow
  · exact h.touchedComplete .credits (by simp) r hrow (hnew _) n hjoin
  · exact h.touchedComplete .debits (by simp) r hrow (hnew _) n hjoin

theorem Inv.guardsPass (h : Inv start s) (ho : Opened c start) : GuardsPass c s := by
  intro H _ M prior escrows hst hapart
  cases happ : applyBalances M c.toCtx s.db.toDb (touchedEntries s.smt) prior with
  | error refusal =>
    obtain ⟨entry, rfl⟩ := applyBalances_error happ
    have heq : threadBalancesRoot M c s prior escrows = .error (.nonCanonicalAmount entry) := by
      unfold threadBalancesRoot
      dsimp only
      rw [happ]
      rfl
    rw [heq]
    exact ⟨by simp, by simp⟩
  | ok tree =>
    obtain ⟨hst', hland⟩ := landed_applyBalances hapart.balances
      (fun e he => mem_touchedEntries.mp he) hst happ
    have hmissing : (ledgerKeysForBlock s.db c.blockIndex).filter
        (fun k => k ∉ touchedEntries s.smt) = [] := by
      refine filter_eq_nil_iff.mpr fun e he => ?_
      simpa using mem_touchedEntries.mpr (h.ledgerKeys ho he)
    have habsent : (ledgerKeysForBlock s.db c.blockIndex).filter
        (leafAbsent M c.toCtx s.db.toDb (applyEscrowLeaves M escrows tree)) = [] := by
      refine filter_eq_nil_iff.mpr fun e he => ?_
      have hkey := h.ledgerKeys ho he
      rw [not_leafAbsent (landed_applyEscrowLeaves
        (fun l hl => ⟨(hapart.escrows l hl).1, (hapart.escrows l hl).2 e hkey⟩) hst'
        (hland e hkey (Or.inl (mem_touchedEntries.mpr hkey))))]
      simp
    have heq : threadBalancesRoot M c s prior escrows = .ok (applyEscrowLeaves M escrows tree) := by
      unfold threadBalancesRoot enforceTouchedSet assertCommittedLeaves
      dsimp only
      rw [happ, hmissing]
      dsimp only [bind, Except.bind]
      rw [habsent]
      rfl
    rw [heq]
    exact ⟨by simp, by simp⟩

/-- **The touched set is complete.** After any safe run of a block the touched keys name every balance
that its credit and debit rows moved, and the guards let the block pass. -/
theorem touched_set_complete (c : BlockCtx) (start : BlockDb) (hstart : Opened c start) (s : State)
    (h : Reaches (step c) (fun s e => safe s e = true) (openBlock start) s) :
    TouchedComplete start s ∧ GuardsPass c s := by
  have hi := h.invariant (inv_openBlock hstart) inv_step
  exact ⟨hi.touchedComplete, hi.guardsPass hstart⟩

/-! ### A savepoint rolled back, and the id it freed -/

/-- A block that compares names as they are. -/
def plainCtx : BlockCtx where
  collation := ⟨id, id, id⟩
  blockIndex := 10
  tickNormalizeActive := true
  suppressIndexIdCreation := false
  ledgerAmountPrecisionActive := true

def emptyDb : BlockDb where
  names := ⟨[], []⟩
  issues := []
  credits := []
  debits := []
  escrows := []
  actions := []

theorem opened_emptyDb : Opened plainCtx emptyDb where
  tickers := ⟨nodup_nil, by simp [emptyDb]⟩
  addresses := ⟨nodup_nil, by simp [emptyDb]⟩
  rows := fun t r hr => by cases t <;> simp [emptyDb, Db.rows] at hr
  actions := by simp [emptyDb]

def creditOf (tick : Char) (h : nul ∉ [tick]) : Record :=
  ⟨⟨[tick], h⟩, 5, ⟨['X'], by decide⟩⟩

/-- Inside a savepoint the new tick `A` is credited; the savepoint is rolled back, and the next new tick,
which gets the id of `A`, is credited. -/
def reassignRun (tick : Char) (h : nul ∉ [tick]) : List Event :=
  [.action, .createSavepoint ['s'], .ledger .credits 1 (creditOf 'A' (by decide)),
    .rollbackToSavepoint ['s'], .ledger .credits 1 (creditOf tick h)]

/-- When the next new tick is `A` again, its key is the touched one. -/
theorem touched_set_complete_again : ∃ s,
    run (step plainCtx) (openBlock emptyDb) (reassignRun 'A' (by decide)) = some s ∧
      TouchedComplete emptyDb s ∧ GuardsPass plainCtx s ∧ s.db.credits ≠ [] := by
  obtain ⟨s, hs, hp⟩ : ∃ s, run (fun s e => if safe s e then step plainCtx s e else none)
      (openBlock emptyDb) (reassignRun 'A' (by decide)) = some s ∧ s.db.credits ≠ [] := by
    decide +kernel
  obtain ⟨h1, h2⟩ := touched_set_complete plainCtx emptyDb opened_emptyDb s
    (Reaches.init.of_checked hs)
  exact ⟨s, run_of_checked hs, h1, h2, hp⟩

/-- When it is `B`, the memo answers `A`: the key of `B` is missing and the guard refuses the block. -/
theorem reassigned_id_refuses_block : ∃ s,
    run (step plainCtx) (openBlock emptyDb) (reassignRun 'B' (by decide)) = some s ∧
      ¬ TouchedComplete emptyDb s ∧
      enforceTouchedSet (ledgerKeysForBlock s.db plainCtx.blockIndex) (touchedEntries s.smt) =
        .error (.touchedSet [touchedKey ['X'] ['B']]) := by
  obtain ⟨s, hs, ⟨r, hr, n, hn, hmissing⟩, hkeys, hledger⟩ :
      ∃ s, run (step plainCtx) (openBlock emptyDb) (reassignRun 'B' (by decide)) = some s ∧
      (∃ r ∈ s.db.credits, ∃ n ∈ joinNames s.db.toDb r, touchedKey n.1 n.2 ∉ touchedKeys s) ∧
        touchedEntries s.smt = [touchedKey ['X'] ['A']] ∧
        ledgerKeysForBlock s.db plainCtx.blockIndex = [touchedKey ['X'] ['B']] := by
    decide +kernel
  refine ⟨s, hs, fun hc => hmissing (hc .credits (by simp) r hr (by simp [emptyDb, Db.rows]) n hn), ?_⟩
  rw [hkeys, hledger]
  decide +kernel

end XChainIndexer.StateTree.Touched
