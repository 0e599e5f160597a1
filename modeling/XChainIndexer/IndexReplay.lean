import XChainIndexer.Interning
import XChainIndexer.Lib.Run
import XChainIndexer.Lib.Savepoint

/-! # Index ids across reorgs

The ids of addresses and tickers are assigned in the order of first use and stamped with the block
(`IndexTables`). A reorg deletes the rows stamped at or above its block (`purgeIndexLookups`) and then
refreshes the caches of the entities it touched, resolving names without assigning ids
(`refreshDerivedProjections`).

A node takes blocks, abandons attempts, dry-runs actions between blocks and follows reorgs. The
processing of a block is an arbitrary program: it reads the tables, requests ids and sets, releases
and rolls back savepoints, and it may depend on all else the node has stored (`W`). Main results, for a
reorg that restores that rest (`Restores`): `index_tables_eq_replay`, `shared_blocks_share_ids`. -/

namespace XChainIndexer.IndexReplay

open IndexTables Interning Lib.Savepoint Lib.Run List Option

/-! ### Requests and programs -/

/-- A name that is to be resolved or interned. -/
inductive Request
  | ticker (tick : Text)
  | tickerExact (tick : Text)
  | address (address : Text)

def create (c : Ctx) (n : Names) : Request → Names × Option ℕ
  | .ticker tick => createTicker c n tick
  | .tickerExact tick => createTickerExact c n tick
  | .address address => createAddress c n address

/-- The processing of a block or of a dry run: what it does to the tables, and what the rest of the
database is at its end. -/
inductive Proc (W : Type)
  | done (world : W)
  /-- An error: the transaction is rolled back. -/
  | fail
  | read (next : Names → Proc W)
  /-- A lookup; with `suppress` it resolves only. -/
  | create (suppress : Bool) (request : Request) (next : Option ℕ → Proc W)
  | createSavepoint (name : Text) (next : Proc W)
  | releaseSavepoint (name : Text) (next : Proc W)
  | rollbackToSavepoint (name : Text) (next : Proc W)

/-- What is fixed for a chain. -/
structure Rules where
  collation : Collation
  tickNormalizeActive : ℕ → Bool
  /-- The height of the first block. -/
  firstBlock : ℕ
  /-- `GENESIS_BLOCK`, below which no reorg may reach; `0` turns the floor off. -/
  genesisBlock : ℕ

def Rules.ctx (c : Rules) (height : ℕ) (suppress : Bool) : Ctx where
  collation := c.collation
  blockIndex := height
  tickNormalizeActive := c.tickNormalizeActive height
  suppressIndexIdCreation := suppress

section processing

variable {W : Type} (c : Rules) (height : ℕ)

def advance (tx : Tx Text Names) : Proc W → Option (Tx Text Names × Proc W)
  | .done _ => none
  | .fail => none
  | .read next => some (tx, next tx.cur)
  | .create suppress request next =>
    let res := create (c.ctx height suppress) tx.cur request
    some (tx.write res.1, next res.2)
  | .createSavepoint name next => some (tx.savepoint name, next)
  | .releaseSavepoint name next => (tx.release name).map (·, next)
  | .rollbackToSavepoint name next => (tx.rollbackTo name).map (·, next)

/-- The whole program, `none` when it fails. -/
def exec : Tx Text Names → Proc W → Option (Names × W)
  | tx, .done world => some (tx.cur, world)
  | _, .fail => none
  | tx, .read next => exec tx (next tx.cur)
  | tx, .create suppress request next =>
    let res := create (c.ctx height suppress) tx.cur request
    exec (tx.write res.1) (next res.2)
  | tx, .createSavepoint name next => exec (tx.savepoint name) next
  | tx, .releaseSavepoint name next => (tx.release name).bind fun tx => exec tx next
  | tx, .rollbackToSavepoint name next => (tx.rollbackTo name).bind fun tx => exec tx next

end processing

/-! ### A node -/

/-- `DELETE … WHERE block_index >= ?` on both tables. -/
def purgeIndexLookups (n : Names) (height : ℕ) : Names where
  tickers := n.tickers.filter fun r => !r.blockIndex.any (height ≤ ·)
  addresses := n.addresses.filter fun r => !r.blockIndex.any (height ≤ ·)

/-- The refresh of the derived projections resolves what the orphaned blocks touched. -/
def refreshDerivedProjections (c : Rules) (height : ℕ) (touched : List Request) (n : Names) : Names :=
  touched.foldl (fun n request => (create (c.ctx height true) n request).1) n

/-- What a node runs: how a block is processed at a height, and how a reorg undoes the rest of the
database. -/
structure Program (B W : Type) where
  rules : Rules
  process : B → ℕ → W → Proc W
  undo : ℕ → W → W
  start : W

/-- An open transaction. -/
structure Open (B W : Type) where
  /-- The block it applies; `none` for a dry run. -/
  block : Option B
  height : ℕ
  tx : Tx Text Names
  rest : Proc W

structure Node (B W : Type) where
  names : Names
  world : W
  /-- The applied blocks, the first one first. -/
  chain : List B
  openTx : Option (Open B W)

inductive Event (B W : Type)
  | openBlock (block : B)
  | openDryRun (run : Proc W)
  | advance
  | commit
  /-- The end of a dry run, a failed block, the watchdog. -/
  | rollback
  | reorg (height : ℕ) (touched : List Request)

section node

variable {B W : Type} (p : Program B W)

def Node.nextHeight (s : Node B W) : ℕ := p.rules.firstBlock + s.chain.length

def step (s : Node B W) : Event B W → Option (Node B W)
  | .openBlock block =>
    match s.openTx with
    | some _ => none
    | none => some { s with
        openTx := some ⟨some block, s.nextHeight p, ⟨s.names, []⟩,
          p.process block (s.nextHeight p) s.world⟩ }
  | .openDryRun run =>
    match s.openTx with
    | some _ => none
    -- A dry run is judged at the tip.
    | none => some { s with openTx := some ⟨none, s.nextHeight p - 1, ⟨s.names, []⟩, run⟩ }
  | .advance => s.openTx.bind fun o =>
    (advance p.rules o.height o.tx o.rest).map fun r =>
      { s with openTx := some { o with tx := r.1, rest := r.2 } }
  | .commit =>
    match s.openTx with
    | some ⟨some block, _, tx, .done world⟩ =>
      some ⟨tx.cur, world, s.chain ++ [block], none⟩
    | _ => none
  | .rollback => s.openTx.map fun _ => { s with openTx := none }
  | .reorg height touched =>
    match s.openTx with
    | some _ => none
    | none =>
      -- `assertAboveGenesis`
      if p.rules.genesisBlock ≠ 0 ∧ height ≤ p.rules.genesisBlock then none
      else some {
        names := refreshDerivedProjections p.rules height touched (purgeIndexLookups s.names height)
        world := p.undo height s.world
        chain := s.chain.take (height - p.rules.firstBlock)
        openTx := none }

def init : Node B W := ⟨⟨[], []⟩, p.start, [], none⟩

/-- The blocks applied one after the other, from a height on. -/
def replayFrom : ℕ → Names × W → List B → Option (Names × W)
  | _, s, [] => some s
  | height, s, block :: blocks =>
    (exec p.rules height ⟨s.1, []⟩ (p.process block height s.2)).bind fun s' =>
      replayFrom (height + 1) s' blocks

/-- A fresh node that applies the chain from genesis. -/
def replay (chain : List B) : Option (Names × W) :=
  replayFrom p p.rules.firstBlock (⟨[], []⟩, p.start) chain

end node

/-! ### Ids are appended, stamped with the block -/

/-- Rows were added at the end, all stamped with a height that satisfies the condition. -/
def Appended (stamp : ℕ → Prop) (rows rows' : List IndexRow) : Prop :=
  ∃ new, rows' = rows ++ new ∧ ∀ r ∈ new, ∃ h, r.blockIndex = some h ∧ stamp h

/-- Both tables have grown so. -/
structure Extends (stamp : ℕ → Prop) (n n' : Names) : Prop where
  tickers : Appended stamp n.tickers n'.tickers
  addresses : Appended stamp n.addresses n'.addresses

section extend

variable {stamp : ℕ → Prop} {rows rows' rows'' : List IndexRow} {n n' n'' : Names}

theorem Appended.refl (rows : List IndexRow) : Appended stamp rows rows :=
  ⟨[], (append_nil _).symm, by simp⟩

theorem Appended.trans (h : Appended stamp rows rows') (h' : Appended stamp rows' rows'') :
    Appended stamp rows rows'' := by
  obtain ⟨a, rfl, ha⟩ := h
  obtain ⟨b, rfl, hb⟩ := h'
  refine ⟨a ++ b, append_assoc _ _ _, fun r hr => ?_⟩
  rcases mem_append.mp hr with hr | hr
  · exact ha r hr
  · exact hb r hr

variable {stamp' : ℕ → Prop}

theorem Appended.mono (h : Appended stamp rows rows')
    (himp : ∀ h, stamp h → stamp' h) : Appended stamp' rows rows' := by
  obtain ⟨new, rfl, hnew⟩ := h
  refine ⟨new, rfl, fun r hr => ?_⟩
  obtain ⟨k, hk, hs⟩ := hnew r hr
  exact ⟨k, hk, himp k hs⟩

theorem Extends.refl (n : Names) : Extends stamp n n := ⟨.refl _, .refl _⟩

theorem Extends.trans (h : Extends stamp n n') (h' : Extends stamp n' n'') : Extends stamp n n'' :=
  ⟨h.tickers.trans h'.tickers, h.addresses.trans h'.addresses⟩

theorem Extends.mono (h : Extends stamp n n') (himp : ∀ h, stamp h → stamp' h) : Extends stamp' n n' :=
  ⟨h.tickers.mono himp, h.addresses.mono himp⟩

theorem appended_of_interned {height : ℕ} {name : Text} (h : Interned height name rows rows') :
    Appended (· = height) rows rows' := by
  rcases h with rfl | ⟨-, rfl⟩
  · exact .refl _
  · exact ⟨_, rfl, by simp⟩

theorem createTickerExact_extends (c : Ctx) (n : Names) (tick : Text) :
    Extends (· = c.blockIndex) n (createTickerExact c n tick).1 := by
  unfold createTickerExact
  cases exactTickerId n tick with
  | some id => split_ifs <;> exact .refl n
  | none =>
    split_ifs with hnil
    · exact .refl n
    · exact .refl n
    · exact .refl n
    · exact .refl n
    · exact ⟨appended_of_interned (interned_insertTicker hnil _), .refl _⟩

theorem create_extends (c : Ctx) (n : Names) (request : Request) :
    Extends (· = c.blockIndex) n (create c n request).1 := by
  cases request with
  | ticker tick =>
    obtain ⟨haddresses, htickers, -⟩ := createTicker_spec c n tick
    exact ⟨appended_of_interned htickers, haddresses ▸ .refl _⟩
  | tickerExact tick => exact createTickerExact_extends c n tick
  | address address =>
    obtain ⟨htickers, haddresses, -⟩ := createAddress_spec c n address
    exact ⟨htickers ▸ .refl _, appended_of_interned haddresses⟩

theorem create_suppressed (c : Ctx) (hs : c.suppressIndexIdCreation) (n : Names)
    (request : Request) : (create c n request).1 = n := by
  cases request with
  | ticker tick =>
    rw [create, createTicker]
    cases getTickerId c n tick <;> simp only [hs, ite_true] <;> split_ifs <;> rfl
  | tickerExact tick =>
    rw [create, createTickerExact]
    cases exactTickerId n tick <;> simp only [hs, ite_true] <;> split_ifs <;> rfl
  | address address =>
    rw [create, createAddress]
    dsimp only
    cases getAddressId c n (substringUnits 120 address) <;> simp only [hs, ite_true] <;>
      split_ifs <;> rfl

theorem refreshDerivedProjections_eq (c : Rules) (height : ℕ) (touched : List Request) (n : Names) :
    refreshDerivedProjections c height touched n = n := by
  unfold refreshDerivedProjections
  induction touched with
  | nil => rfl
  | cons request touched ih => rw [foldl_cons, create_suppressed _ rfl, ih]

end extend

/-! ### A block appends rows stamped with its height -/

section blocks

variable {B W : Type} {c : Rules} {height : ℕ} {n n' : Names} {world : W}

variable {tx : Tx Text Names} {proc : Proc W}

/-- Along a program every version of the tables, current or saved, is related to those at its start as
a single request relates them. -/
theorem exec_related {R : Names → Names → Prop} (htrans : ∀ {a b d}, R a b → R b d → R a d)
    (hcreate : ∀ suppress n request, R n (create (c.ctx height suppress) n request).1)
    (htx : tx.All (R n)) (h : exec c height tx proc = some (n', world)) : R n n' := by
  induction proc generalizing tx with
  | done w =>
    rw [exec, some.injEq, Prod.mk.injEq] at h
    exact h.1 ▸ htx.1
  | fail => simp [exec] at h
  | read next ih => exact ih _ htx h
  | create suppress request next ih =>
    exact ih _ (htx.write (htrans htx.1 (hcreate suppress tx.cur request))) h
  | createSavepoint name next ih => exact ih (htx.savepoint name) h
  | releaseSavepoint name next ih =>
    obtain ⟨tx', hrel, h⟩ := bind_eq_some_iff.mp h
    exact ih (htx.release hrel) h
  | rollbackToSavepoint name next ih =>
    obtain ⟨tx', hback, h⟩ := bind_eq_some_iff.mp h
    exact ih (htx.rollbackTo hback) h

theorem exec_extends (htx : tx.All (Extends (· = height) n))
    (h : exec c height tx proc = some (n', world)) : Extends (· = height) n n' :=
  exec_related Extends.trans (fun suppress => create_extends (c.ctx height suppress)) htx h

theorem exec_advance {tx' : Tx Text Names} {proc' : Proc W}
    (h : advance c height tx proc = some (tx', proc')) : exec c height tx proc = exec c height tx' proc' := by
  cases proc with
  | done w => simp [advance] at h
  | fail => simp [advance] at h
  | read next =>
    obtain ⟨⟩ := h
    rfl
  | create suppress request next =>
    obtain ⟨⟩ := h
    rfl
  | createSavepoint name next =>
    obtain ⟨⟩ := h
    rfl
  | releaseSavepoint name next =>
    obtain ⟨t, hrel, h⟩ := map_eq_some_iff.mp h
    obtain ⟨⟩ := h
    rw [exec, hrel, bind_some]
  | rollbackToSavepoint name next =>
    obtain ⟨t, hback, h⟩ := map_eq_some_iff.mp h
    obtain ⟨⟩ := h
    rw [exec, hback, bind_some]

variable (p : Program B W)

theorem replayFrom_append (height : ℕ) (s : Names × W) (bs bs' : List B) : replayFrom p height s (bs ++ bs') =
      (replayFrom p height s bs).bind fun s' => replayFrom p (height + bs.length) s' bs' := by
  induction bs generalizing height s with
  | nil => rfl
  | cons b bs ih =>
    simp only [cons_append, replayFrom, length_cons, bind_assoc]
    refine congrArg _ (funext fun s' => ?_)
    rw [ih, Nat.add_right_comm, Nat.add_assoc]

theorem replayFrom_extends {s s' : Names × W} {bs : List B} (h : replayFrom p height s bs = some s')
    : Extends (fun k => height ≤ k ∧ k < height + bs.length) s.1 s'.1 := by
  induction bs generalizing height s with
  | nil =>
    rw [replayFrom, some.injEq] at h
    exact h ▸ .refl _
  | cons b bs ih =>
    obtain ⟨s1, hblock, hrest⟩ := bind_eq_some_iff.mp h
    have h1 : Extends (· = height) s.1 s1.1 := exec_extends ⟨.refl _, by simp⟩ hblock
    have h2 := ih hrest
    rw [length_cons]
    exact (h1.mono fun k hk => by omega).trans (h2.mono fun k hk => by omega)

variable {stamp : ℕ → Prop}

theorem appended_purge {rows rows' : List IndexRow}
    (h : Appended (· < height) [] rows) (h' : Appended stamp rows rows')
    (hstamp : ∀ k, stamp k → height ≤ k) : (rows'.filter fun r => !r.blockIndex.any (height ≤ ·)) = rows := by
  obtain ⟨old, rfl, hold⟩ := h
  obtain ⟨new, rfl, hnew⟩ := h'
  rw [filter_append, filter_eq_self.mpr, filter_eq_nil_iff.mpr, append_nil]
  · intro r hr
    obtain ⟨k, hk, hs⟩ := hnew r hr
    simp [hk, hstamp k hs]
  · intro r hr
    obtain ⟨k, hk, hs⟩ := hold r hr
    simp [hk, hs]

theorem extends_purge (h : Extends (· < height) ⟨[], []⟩ n)
    (h' : Extends stamp n n') (hstamp : ∀ k, stamp k → height ≤ k) : purgeIndexLookups n' height = n := by
  unfold purgeIndexLookups
  rw [appended_purge h.tickers h'.tickers hstamp, appended_purge h.addresses h'.addresses hstamp]

end blocks

/-! ### Every history is a replay -/

section histories

variable {B W : Type} (p : Program B W)

/-- A reorg restores the rest of the database: undoing the blocks from a height on leaves what a fresh
node has that stopped before it. -/
def Restores : Prop :=
  ∀ (chain : List B) (height : ℕ) (s s' : Names × W), replay p chain = some s →
    replay p (chain.take (height - p.rules.firstBlock)) = some s' → p.undo height s.2 = s'.2

structure Inv (s : Node B W) : Prop where
  replayed : replay p s.chain = some (s.names, s.world)
  /-- An open block is the beginning of its processing on the committed tables. -/
  opened : ∀ o ∈ s.openTx, ∀ b ∈ o.block,
    exec p.rules o.height o.tx o.rest =
      exec p.rules (s.nextHeight p) ⟨s.names, []⟩ (p.process b (s.nextHeight p) s.world)

variable {p}

/-- The blocks before a height were replayed too, and the purge leaves their tables. -/
theorem replay_purge {chain : List B} {s : Names × W} (h : replay p chain = some s) (height : ℕ) :
    ∃ world, replay p (chain.take (height - p.rules.firstBlock)) =
      some (purgeIndexLookups s.1 height, world) := by
  set k := height - p.rules.firstBlock with hk
  unfold replay at h ⊢
  rw [← take_append_drop k chain, replayFrom_append] at h
  obtain ⟨s1, h1, h2⟩ := bind_eq_some_iff.mp h
  have hkept := replayFrom_extends p h1
  have hlost := replayFrom_extends p h2
  rw [length_take, length_drop] at *
  have hpurge : purgeIndexLookups s.1 height = s1.1 :=
    extends_purge (hkept.mono fun j hj => by omega) hlost fun j hj => by omega
  exact ⟨s1.2, by rw [hpurge, h1]⟩

variable {s s' : Node B W}

theorem inv_step (hundo : Restores p) {e : Event B W} (h : Inv p s)
    (hstep : step p s e = some s') : Inv p s' := by
  obtain ⟨names, world, chain, openTx⟩ := s
  cases e with
  | openBlock block =>
    cases openTx with
    | some o => simp [step] at hstep
    | none =>
      obtain ⟨⟩ := hstep
      refine ⟨h.replayed, ?_⟩
      rintro o ⟨⟩ b ⟨⟩
      rfl
  | openDryRun run =>
    cases openTx with
    | some o => simp [step] at hstep
    | none =>
      obtain ⟨⟩ := hstep
      refine ⟨h.replayed, ?_⟩
      rintro o ⟨⟩ b hb
      simp at hb
  | advance =>
    obtain ⟨o, rfl, hmap⟩ := bind_eq_some_iff.mp hstep
    obtain ⟨⟨tx', rest'⟩, hadv, rfl⟩ := map_eq_some_iff.mp hmap
    refine ⟨h.replayed, ?_⟩
    rintro o' ⟨⟩ b hb
    exact (exec_advance hadv).symm.trans (h.opened o rfl b hb)
  | commit =>
    rcases openTx with _ | ⟨_ | block, height, tx, rest⟩
    · simp [step] at hstep
    · simp [step] at hstep
    · cases rest with
      | done w =>
        obtain ⟨⟩ := hstep
        refine ⟨?_, nofun⟩
        have hreplayed := h.replayed
        unfold replay at hreplayed ⊢
        rw [replayFrom_append, hreplayed]
        exact (bind_fun_some _).trans (h.opened _ rfl block rfl).symm
      | _ => simp [step] at hstep
  | rollback =>
    obtain ⟨o, -, rfl⟩ := map_eq_some_iff.mp hstep
    exact ⟨h.replayed, nofun⟩
  | reorg height touched =>
    cases openTx with
    | some o => simp [step] at hstep
    | none =>
      rw [step] at hstep
      split_ifs at hstep
      obtain ⟨⟩ := hstep
      obtain ⟨w, hw⟩ := replay_purge h.replayed height
      refine ⟨?_, nofun⟩
      rw [refreshDerivedProjections_eq, hw, hundo chain height _ _ h.replayed hw]

/-- **Nodes share the ids of the blocks they share.** If a reorg restores what else the blocks read, then
after any two histories, of nodes that may have followed different forks, the rows stamped below a height up to which their chains agree are the same,
in the same order. -/
theorem shared_blocks_share_ids (hundo : Restores p) (h : Reaches (step p) (fun _ _ => True) (init p) s)
    (h' : Reaches (step p) (fun _ _ => True) (init p) s') (height : ℕ)
    (hshared : s.chain.take (height - p.rules.firstBlock) = s'.chain.take (height - p.rules.firstBlock)) :
    purgeIndexLookups s.names height = purgeIndexLookups s'.names height := by
  have hinv : ∀ t, Reaches (step p) (fun _ _ => True) (init p) t → Inv p t := fun t ht =>
    ht.invariant ⟨rfl, nofun⟩ fun _ _ _ _ hs hi => inv_step hundo hi hs
  obtain ⟨w, hw⟩ := replay_purge (hinv s h).replayed height
  obtain ⟨w', hw'⟩ := replay_purge (hinv s' h').replayed height
  rw [hshared, hw', some.injEq, Prod.mk.injEq] at hw
  exact hw.1.symm

/-- A block interns a ticker inside a savepoint that it rolls back, and then its own unless a block before
it was of the same ticker. The rest of the database is the tickers of the blocks. -/
def issuing : Program Text (List Text) where
  rules := ⟨⟨id, id, id⟩, fun _ => true, 10, 0⟩
  process := fun tick _ issued => .createSavepoint ['s'] (.create false (.ticker ['T']) fun _ =>
    .rollbackToSavepoint ['s'] (if tick ∈ issued then .done (issued ++ [tick])
      else .create false (.ticker tick) fun _ => .done (issued ++ [tick])))
  undo := fun height issued => issued.take (height - 10)
  start := []

theorem issuing_world {chain : List Text} {height : ℕ} {s s' : Names × List Text}
    (h : replayFrom issuing height s chain = some s') : s'.2 = s.2 ++ chain := by
  induction chain generalizing height s with
  | nil =>
    obtain ⟨⟩ := h
    exact (append_nil _).symm
  | cons tick chain ih =>
    obtain ⟨s1, hblock, hrest⟩ := bind_eq_some_iff.mp h
    have hworld : s1.2 = s.2 ++ [tick] := by
      simp only [issuing, exec, Tx.savepoint, Tx.write, Tx.rollbackTo] at hblock
      obtain ⟨tx, -, hblock⟩ := bind_eq_some_iff.mp hblock
      split_ifs at hblock <;> (obtain ⟨⟩ := hblock; rfl)
    rw [ih hrest, hworld, append_assoc]
    rfl

theorem issuing_restores : Restores issuing := by
  intro chain height s s' h h'
  have hs : s.2 = chain := issuing_world h
  have hs' : s'.2 = chain.take (height - 10) := issuing_world h'
  rw [hs', hs]
  rfl

def applied (tick : Text) : List (Event Text (List Text)) :=
  [.openBlock tick, .advance, .advance, .advance, .advance, .commit]

/-- Block `B` is dry-run, applied, replaced by block `C` and applied again after it. -/
def forked : List (Event Text (List Text)) :=
  applied ['A'] ++ [.openDryRun (.create false (.ticker ['Z']) fun _ => .done []), .advance, .rollback] ++
    applied ['B'] ++ [.reorg 11 [.ticker ['B']]] ++ applied ['C'] ++ applied ['B']

/-- Chains `A`, `C`, `B` and `A`, `B` share the ids of their first block. -/
theorem shared_blocks_share_ids_forked : ∃ s s', run (step issuing) (init issuing) forked = some s ∧
    run (step issuing) (init issuing) (applied ['A'] ++ applied ['B']) = some s' ∧
    purgeIndexLookups s.names 11 = purgeIndexLookups s'.names 11 := by
  obtain ⟨s, hs, hchain⟩ : ∃ s, run (step issuing) (init issuing) forked = some s ∧
      s.chain = [['A'], ['C'], ['B']] := by decide +kernel
  obtain ⟨s', hs', hchain'⟩ : ∃ s, run (step issuing) (init issuing) (applied ['A'] ++ applied ['B']) =
      some s ∧ s.chain = [['A'], ['B']] := by decide +kernel
  exact ⟨s, s', hs, hs', shared_blocks_share_ids issuing_restores
    (Reaches.init.of_run (fun _ _ _ => trivial) hs) (Reaches.init.of_run (fun _ _ _ => trivial) hs') 11
    (by rw [hchain, hchain']; rfl)⟩

end histories

end XChainIndexer.IndexReplay
