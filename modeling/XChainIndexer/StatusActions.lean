import XChainIndexer.IndexTables
import XChainIndexer.Lib.Keyed
import XChainIndexer.Lib.Run
import XChainIndexer.Lib.Savepoint

/-! # The ids of statuses and actions

`createStatus` and `createAction` (`db/index_tables/index.js`) look a name up and insert it when it is
not there. The ids found are remembered in two maps (`status_action_cache.js`): those an open
transaction saw are pending until it commits, and dropped when it aborts. A savepoint rollback drops
nothing: an id it took back is still returned (`rolled_back_status_is_returned`). Main result:
`returned_ids_name_rows`. -/

namespace XChainIndexer.StatusActions

open IndexTables Lib.Savepoint Lib.Run List

/-! ### The tables -/

inductive Kind
  | status
  | action
deriving DecidableEq

/-- A row of `index_statuses` or `index_actions`. -/
structure NameRow where
  id : ℕ
  name : Text
deriving DecidableEq

structure Data where
  rows : Kind → List NameRow
  /-- The status and action ids that the rows of other tables carry. -/
  refs : List (Kind × ℕ)

def Data.addRow (d : Data) (kind : Kind) (r : NameRow) : Data :=
  { d with rows := fun k => if k = kind then d.rows k ++ [r] else d.rows k }

abbrev IdMap := List ((Kind × Text) × ℕ)

structure Cache where
  committed : IdMap
  pending : IdMap

structure State where
  db : Data
  /-- The open transaction. -/
  tx : Option (Tx Text Data)
  /-- `AUTO_INCREMENT`, which no rollback takes back. -/
  nextId : Kind → ℕ
  cache : Cache

/-- The data a statement sees. -/
def State.data (s : State) : Data :=
  match s.tx with
  | some tx => tx.cur
  | none => s.db

/-- A statement outside a transaction commits by itself. -/
def State.write (s : State) (d : Data) : State :=
  match s.tx with
  | some tx => { s with tx := some (tx.write d) }
  | none => { s with db := d }

/-! ### The cache -/

def read (cache : Cache) (kind : Kind) (name : Text) (includePending : Bool) : Option ℕ :=
  (cache.committed.lookup (kind, name)).or
    (if includePending then cache.pending.lookup (kind, name) else none)

def remember (cache : Cache) (kind : Kind) (name : Text) (id : ℕ) (pending : Bool) : Cache :=
  if pending then { cache with pending := ((kind, name), id) :: cache.pending }
  else { cache with committed := ((kind, name), id) :: cache.committed }

def promotePending (cache : Cache) : Cache := ⟨cache.pending ++ cache.committed, []⟩

def clearPending (cache : Cache) : Cache := { cache with pending := [] }

/-! ### Lookups -/

/-- Code points a `utf8mb3` column cannot hold become `U+FFFD`. -/
def toUtf8mb3 (t : Text) : Text := t.map fun ch => if 0xFFFF < ch.toNat then Char.ofNat 0xFFFD else ch

def statusMaxChars : ℕ := 250

/-- The name that is looked up and inserted. -/
def columnName : Kind → Text → Text
  | .status, name => (toUtf8mb3 name).take statusMaxChars
  | .action, name => name

/-- What `INSERT IGNORE` stores in a `VARCHAR(250)` column of `utf8mb3`. -/
def storedText (t : Text) : Text := (t.map fun ch => if 0xFFFF < ch.toNat then '?' else ch).take 250

/-- `SELECT id … WHERE name=? LIMIT 1`. -/
def selectId (c : Collation) (d : Data) (kind : Kind) (name : Text) : Option ℕ :=
  if fitsUtf8mb3 name then
    ((d.rows kind).find? fun r => c.generalCi r.name = c.generalCi name).map NameRow.id
  else none

/-- `getStatusId` and `getActionId`. -/
def getId (c : Collation) (s : State) (kind : Kind) (name : Text) : State × Option ℕ :=
  match read s.cache kind name s.tx.isSome with
  | some id => (s, some id)
  | none =>
    match selectId c s.data kind name with
    | some id => ({ s with cache := remember s.cache kind name id s.tx.isSome }, some id)
    | none => (s, none)

/-- `INSERT IGNORE`; only `index_statuses` has a unique key. -/
def insertName (c : Collation) (s : State) (kind : Kind) (name : Text) : State :=
  let s' := { s with nextId := fun k => if k = kind then s.nextId k + 1 else s.nextId k }
  let taken := kind = .status ∧
    (s.data.rows kind).any fun r => c.generalCi r.name = c.generalCi (storedText name)
  if taken then s'
  else s'.write (s.data.addRow kind ⟨s.nextId kind, storedText name⟩)

/-- `createStatus` and `createAction`. -/
def create (c : Collation) (s : State) (kind : Kind) (name : Text) : State × Option ℕ :=
  if kind = .status ∧ name = [] then (s, none)
  else
    let name := columnName kind name
    match getId c s kind name with
    | (s, some id) => (s, some id)
    | (s, none) => getId c (insertName c s kind name) kind name

/-! ### The step function -/

inductive Event
  | beginTransaction
  | commitTransaction
  /-- `rollbackTransaction`, and the failure path of a commit. -/
  | rollbackTransaction
  | createSavepoint (name : Text)
  | releaseSavepoint (name : Text)
  | rollbackToSavepoint (name : Text)
  | create (kind : Kind) (name : Text)
  /-- A row is written that carries the id of the name. -/
  | store (kind : Kind) (name : Text)

def storeRef (s : State) (kind : Kind) : Option ℕ → State
  | some id => s.write { s.data with refs := (kind, id) :: s.data.refs }
  | none => s

def step (c : Collation) (s : State) : Event → Option State
  | .beginTransaction =>
    match s.tx with
    | some _ => none
    | none => some { s with tx := some ⟨s.db, []⟩ }
  | .commitTransaction => s.tx.map fun tx =>
    { s with db := tx.cur, tx := none, cache := promotePending s.cache }
  | .rollbackTransaction => s.tx.map fun _ => { s with tx := none, cache := clearPending s.cache }
  | .createSavepoint name => s.tx.map fun tx => { s with tx := some (tx.savepoint name) }
  | .releaseSavepoint name => s.tx.bind fun tx => (tx.release name).map fun tx => { s with tx := some tx }
  | .rollbackToSavepoint name =>
    s.tx.bind fun tx => (tx.rollbackTo name).map fun tx => { s with tx := some tx }
  | .create kind name => some (create c s kind name).1
  | .store kind name => some (storeRef (create c s kind name).1 kind (create c s kind name).2)

def init : State where
  db := ⟨fun _ => [], []⟩
  tx := none
  nextId := fun _ => 1
  cache := ⟨[], []⟩

/-! ### What is claimed -/

/-- The id returned names a row that is there, with exactly the name asked for. -/
def ReturnsRow (c : Collation) (s : State) (kind : Kind) (name : Text) : Prop :=
  ∀ id, (create c s kind name).2 = some id →
    ⟨id, columnName kind name⟩ ∈ (create c s kind name).1.data.rows kind

/-- Every id a row carries is that of a name. -/
def RefsExist (d : Data) : Prop := ∀ ref ∈ d.refs, ∃ r ∈ d.rows ref.1, r.id = ref.2

/-- No row is a different spelling of the name, and the column can hold it; a status always fits. -/
def spelled (c : Collation) (s : State) (kind : Kind) (name : Text) : Bool :=
  ((s.data.rows kind).all fun r =>
    c.generalCi r.name ≠ c.generalCi (columnName kind name) || r.name = columnName kind name) &&
  (kind = .status || storedText name = name)

/-- The data has the row of every pending name. -/
def keepsPending (s : State) (d : Data) : Bool :=
  s.cache.pending.all fun e => (⟨e.2, e.1.2⟩ : NameRow) ∈ d.rows e.1.1

/-- A rollback to a savepoint takes back no row whose id is remembered. -/
def safe (c : Collation) (s : State) : Event → Bool
  | .rollbackToSavepoint name =>
    match s.tx.bind fun tx => (tx.upTo name).head? with
    | some save => keepsPending s save.2
    | none => true
  | .create kind name => spelled c s kind name
  | .store kind name => spelled c s kind name
  | _ => true

/-! ### Remembered ids name rows -/

/-- Every id in the map is that of a row with the name. -/
def MapOk (m : IdMap) (d : Data) : Prop :=
  ∀ e ∈ m, (⟨e.2, e.1.2⟩ : NameRow) ∈ d.rows e.1.1

/-- The later data has every row of the earlier one. -/
def RowsKept (d d' : Data) : Prop := ∀ k, d.rows k ⊆ d'.rows k

structure Inv (s : State) : Prop where
  committed : MapOk s.cache.committed s.db
  pending : MapOk s.cache.pending s.data
  idle : s.tx = none → s.cache.pending = []
  refs : RefsExist s.db
  kept : ∀ tx ∈ s.tx, tx.All fun d => RowsKept s.db d ∧ RefsExist d

variable {m : IdMap} {c : Collation} {s : State} {d d' : Data} {kind : Kind} {name : Text}

theorem MapOk.mono (h : MapOk m d) (hk : RowsKept d d') : MapOk m d' :=
  fun e he => hk _ (h e he)

theorem MapOk.lookup (h : MapOk m d) {id : ℕ}
    (hl : m.lookup (kind, name) = some id) : ⟨id, name⟩ ∈ d.rows kind := by
  exact h ((kind, name), id) (Lib.Assoc.mem_of_lookup hl)

theorem MapOk.cons (h : MapOk m d) {id : ℕ}
    (hr : ⟨id, name⟩ ∈ d.rows kind) : MapOk (((kind, name), id) :: m) d := by
  intro e he
  rcases mem_cons.mp he with rfl | he
  · exact hr
  · exact h e he

theorem Inv.kept_data (h : Inv s) : RowsKept s.db s.data := by
  unfold State.data
  cases htx : s.tx with
  | none => exact fun _ => List.Subset.refl _
  | some tx => exact (h.kept tx htx).1.1

theorem Inv.refs_data (h : Inv s) : RefsExist s.data := by
  unfold State.data
  cases htx : s.tx with
  | none => exact h.refs
  | some tx => exact (h.kept tx htx).1.2

theorem MapOk.nil (d : Data) : MapOk [] d := fun _ he => absurd he not_mem_nil

theorem Inv.remember (h : Inv s) {id : ℕ} (hr : ⟨id, name⟩ ∈ s.data.rows kind) :
    Inv { s with cache := remember s.cache kind name id s.tx.isSome } := by
  obtain ⟨db, tx, nextId, cache⟩ := s
  cases tx with
  | none => exact ⟨h.committed.cons hr, h.pending, h.idle, h.refs, h.kept⟩
  | some tx => exact ⟨h.committed, h.pending.cons hr, nofun, h.refs, h.kept⟩

theorem Inv.write (h : Inv s) (hk : RowsKept s.data d) (hr : RefsExist d) : Inv (s.write d) := by
  obtain ⟨db, tx, nextId, cache⟩ := s
  cases tx with
  | none => exact ⟨h.committed.mono hk, h.pending.mono hk, h.idle, hr, nofun⟩
  | some tx =>
    refine ⟨h.committed, h.pending.mono hk, nofun, h.refs, ?_⟩
    rintro tx' ⟨⟩
    exact (h.kept tx rfl).write ⟨fun k => List.Subset.trans (h.kept_data k) (hk k), hr⟩

theorem RefsExist.mono (h : RefsExist d) (hk : RowsKept d d') (hr : d'.refs = d.refs) : RefsExist d' := by
  intro ref href
  obtain ⟨r, hrow, hid⟩ := h ref (hr ▸ href)
  exact ⟨r, hk _ hrow, hid⟩

theorem write_data (s : State) (d : Data) : (s.write d).data = d := by
  obtain ⟨db, tx, nextId, cache⟩ := s
  cases tx <;> rfl

/-! ### One lookup -/

theorem getId_data (c : Collation) (s : State) (kind : Kind) (name : Text) :
    (getId c s kind name).1.data = s.data := by
  unfold getId
  split
  · rfl
  · split <;> rfl

theorem getId_inv (c : Collation) (h : Inv s) (name : Text)
    (hs : ∀ r ∈ s.data.rows kind, c.generalCi r.name = c.generalCi name → r.name = name) :
    Inv (getId c s kind name).1 ∧
      ∀ id, (getId c s kind name).2 = some id → ⟨id, name⟩ ∈ s.data.rows kind := by
  unfold getId
  split
  · rename_i id hread
    refine ⟨h, fun id' hid => ?_⟩
    rw [← Option.some.inj hid]
    rcases Option.or_eq_some_iff.mp hread with hc | ⟨-, hp⟩
    · exact h.kept_data kind (h.committed.lookup hc)
    · split_ifs at hp
      exact h.pending.lookup hp
  · split
    · rename_i id hsel
      have hrow : ⟨id, name⟩ ∈ s.data.rows kind := by
        unfold selectId at hsel
        split_ifs at hsel
        obtain ⟨r, hfind, rfl⟩ := Option.map_eq_some_iff.mp hsel
        have hmem := mem_of_find?_eq_some hfind
        have hname := hs r hmem (by simpa using find?_some hfind)
        exact hname ▸ hmem
      refine ⟨h.remember hrow, fun id' hid => ?_⟩
      rw [← Option.some.inj hid]
      exact hrow
    · exact ⟨h, fun id hid => by simp at hid⟩

theorem addRow_kept (d : Data) (kind : Kind) (r : NameRow) : RowsKept d (d.addRow kind r) := by
  intro k r hr
  unfold Data.addRow
  dsimp only
  split_ifs
  · exact mem_append_left _ hr
  · exact hr

theorem mem_addRow {r r' : NameRow} : r' ∈ (d.addRow kind r).rows kind ↔ r' ∈ d.rows kind ∨ r' = r := by
  simp [Data.addRow]

/-- An insertion keeps the rows, and a new one has the name as the column stores it. -/
theorem insertName_inv (c : Collation) (h : Inv s) (kind : Kind) (name : Text) :
    Inv (insertName c s kind name) ∧ ∀ r ∈ (insertName c s kind name).data.rows kind,
        r ∈ s.data.rows kind ∨ r.name = storedText name := by
  have hcounter : ∀ n, Inv { s with nextId := n } := fun n =>
    ⟨h.committed, h.pending, h.idle, h.refs, h.kept⟩
  unfold insertName
  dsimp only
  split_ifs with htaken
  · exact ⟨hcounter _, fun r hr => Or.inl hr⟩
  · have hkept := addRow_kept s.data kind ⟨s.nextId kind, storedText name⟩
    refine ⟨(hcounter _).write hkept (h.refs_data.mono hkept rfl), fun r hr => ?_⟩
    rw [write_data, mem_addRow] at hr
    exact hr.imp_right fun hr => by rw [hr]

theorem storedText_status (name : Text) : storedText (columnName .status name) = columnName .status name := by
  have hfits : ((toUtf8mb3 name).map fun ch => if 0xFFFF < ch.toNat then '?' else ch) = toUtf8mb3 name := by
    refine (map_congr_left fun ch hch => if_neg ?_).trans (map_id' _)
    obtain ⟨ch', -, rfl⟩ := mem_map.mp hch
    split_ifs with hbig
    · decide
    · exact hbig
  rw [columnName, storedText, map_take, hfits, statusMaxChars, take_take, Nat.min_self]

theorem spelled_rows (h : spelled c s kind name) {r : NameRow} (hr : r ∈ s.data.rows kind)
    (heq : c.generalCi r.name = c.generalCi (columnName kind name)) : r.name = columnName kind name := by
  simp only [spelled, Bool.and_eq_true, all_eq_true, Bool.or_eq_true, decide_eq_true_eq] at h
  exact (h.1 r hr).resolve_left (not_not_intro heq)

theorem spelled_stored
    (h : spelled c s kind name) : storedText (columnName kind name) = columnName kind name := by
  simp only [spelled, Bool.and_eq_true, Bool.or_eq_true, decide_eq_true_eq] at h
  cases kind with
  | status => exact storedText_status name
  | action => exact h.2.resolve_left (by decide)

/-- A name that is found or inserted has a row, and the id returned is that row's. -/
theorem create_inv (c : Collation) (h : Inv s) (hs : spelled c s kind name) :
    Inv (create c s kind name).1 ∧ ReturnsRow c s kind name := by
  have hfirst := getId_inv c h _ fun r => spelled_rows hs
  have hdata := getId_data c s kind (columnName kind name)
  unfold ReturnsRow create
  split_ifs with hempty
  · exact ⟨h, fun id hid => by simp at hid⟩
  · dsimp only
    generalize hget : getId c s kind (columnName kind name) = res at hfirst hdata
    obtain ⟨s1, found⟩ := res
    cases found with
    | some id =>
      refine ⟨hfirst.1, fun id' hid => ?_⟩
      rw [hdata]
      exact hfirst.2 id' hid
    | none =>
      obtain ⟨hinv, hnew⟩ := insertName_inv c hfirst.1 kind (columnName kind name)
      have hsecond := getId_inv c hinv (columnName kind name) fun r hr heq => by
        rcases hnew r hr with hold | hname
        · exact spelled_rows hs (hdata ▸ hold) heq
        · exact hname.trans (spelled_stored hs)
      rw [getId_data]
      exact hsecond

/-! ### Runs -/

theorem storeRef_inv (h : Inv s) {found : Option ℕ}
    (hf : ∀ id, found = some id → ∃ r ∈ s.data.rows kind, r.id = id) : Inv (storeRef s kind found) := by
  cases found with
  | none => exact h
  | some id =>
    refine h.write (fun _ => List.Subset.refl _) fun ref href => ?_
    rcases mem_cons.mp href with rfl | href
    · exact hf id rfl
    · exact h.refs_data ref href

theorem Inv.setTx (h : Inv s) {tx : Tx Text Data}
    (hall : tx.All fun d => RowsKept s.db d ∧ RefsExist d) (hp : MapOk s.cache.pending tx.cur) :
    Inv { s with tx := some tx } := by
  refine ⟨h.committed, hp, nofun, h.refs, ?_⟩
  rintro tx' ⟨⟩
  exact hall

theorem inv_step (c : Collation) {s s' : State} {e : Event} (hsafe : safe c s e)
    (hstep : step c s e = some s') (h : Inv s) : Inv s' := by
  obtain ⟨db, tx, nextId, cache⟩ := s
  cases e with
  | beginTransaction =>
    cases tx with
    | some tx => simp [step] at hstep
    | none =>
      obtain ⟨⟩ := hstep
      exact h.setTx ⟨⟨fun _ => List.Subset.refl _, h.refs⟩, by simp⟩ h.pending
  | commitTransaction =>
    cases tx with
    | none => simp [step] at hstep
    | some tx =>
      obtain ⟨⟩ := hstep
      have hcur := (h.kept tx rfl).1
      refine ⟨fun e he => ?_, MapOk.nil _, fun _ => rfl, hcur.2, nofun⟩
      rcases mem_append.mp he with he | he
      · exact h.pending e he
      · exact h.committed.mono hcur.1 e he
  | rollbackTransaction =>
    cases tx with
    | none => simp [step] at hstep
    | some tx =>
      obtain ⟨⟩ := hstep
      exact ⟨h.committed, MapOk.nil _, fun _ => rfl, h.refs, nofun⟩
  | createSavepoint name =>
    cases tx with
    | none => simp [step] at hstep
    | some tx =>
      obtain ⟨⟩ := hstep
      exact h.setTx ((h.kept tx rfl).savepoint name) h.pending
  | releaseSavepoint name =>
    obtain ⟨tx, rfl, hmap⟩ := Option.bind_eq_some_iff.mp hstep
    obtain ⟨tx', hrel, rfl⟩ := Option.map_eq_some_iff.mp hmap
    exact h.setTx ((h.kept tx rfl).release hrel) (Tx.release_cur hrel ▸ h.pending)
  | rollbackToSavepoint name =>
    obtain ⟨tx, rfl, hmap⟩ := Option.bind_eq_some_iff.mp hstep
    obtain ⟨tx', hback, rfl⟩ := Option.map_eq_some_iff.mp hmap
    obtain ⟨save, hhead, hcur⟩ := Tx.rollbackTo_head hback
    have hkeeps : keepsPending ⟨db, some tx, nextId, cache⟩ save.2 := by
      rw [safe, Option.bind_some, hhead] at hsafe
      exact hsafe
    refine h.setTx ((h.kept tx rfl).rollbackTo hback) fun e he => ?_
    rw [hcur]
    exact of_decide_eq_true (all_eq_true.mp hkeeps e he)
  | create kind name =>
    obtain ⟨⟩ := hstep
    exact (create_inv c h hsafe).1
  | store kind name =>
    obtain ⟨⟩ := hstep
    obtain ⟨hinv, hrow⟩ := create_inv c h hsafe
    exact storeRef_inv hinv fun id hid => ⟨_, hrow id hid, rfl⟩

theorem inv_init : Inv init :=
  ⟨MapOk.nil _, MapOk.nil _, fun _ => rfl, nofun, nofun⟩

/-- **Returned ids name rows.** In every run of transactions, nested savepoints and lookups in which
no savepoint rollback takes back the row of a remembered id, and every name is asked for as it is
spelled in its table, `createStatus` and `createAction` return only ids of rows that are there with
exactly the name, and every id in a committed row is that of a name. -/
theorem returned_ids_name_rows (c : Collation) {s : State}
    (h : Reaches (step c) (fun s e => safe c s e = true) init s) :
    (∀ kind name, spelled c s kind name = true → ReturnsRow c s kind name) ∧ RefsExist s.db := by
  have hinv : Inv s := h.invariant inv_init fun _ _ _ hok hs => inv_step c hok hs
  exact ⟨fun kind name hs => (create_inv c hinv hs).2, hinv.refs⟩

/-! ### A savepoint rolled back -/

/-- Names are compared as they are. -/
def plain : Collation := ⟨id, id, id⟩

/-- A savepoint is rolled back whose rows use a status seen before it; an action is stored and the
transaction commits. -/
def keptRun : List Event :=
  [.beginTransaction, .store .status ['v'], .createSavepoint ['s'], .store .status ['v'],
    .rollbackToSavepoint ['s'], .store .action ['S'], .commitTransaction]

theorem returned_ids_name_rows_kept : ∃ s, run (step plain) init keptRun = some s ∧
    s.db.refs = [(.action, 1), (.status, 1)] ∧ RefsExist s.db ∧ ReturnsRow plain s .status ['v'] := by
  obtain ⟨s, hs, hp⟩ : ∃ s, run (fun s e => if safe plain s e then step plain s e else none) init keptRun =
      some s ∧ s.db.refs = [(.action, 1), (.status, 1)] ∧ spelled plain s .status ['v'] = true := by
    decide +kernel
  obtain ⟨hrow, hrefs⟩ := returned_ids_name_rows plain (Reaches.init.of_checked hs)
  exact ⟨s, run_of_checked hs, hp.1, hrefs, hrow .status ['v'] hp.2⟩

/-- A status is created inside a savepoint that is rolled back. -/
def staleRun : List Event :=
  [.beginTransaction, .createSavepoint ['s'], .create .status ['v'], .rollbackToSavepoint ['s']]

/-- The pending map still has the id, so the status is not inserted again: the id returned has no row,
and a row that carries it is committed. -/
theorem rolled_back_status_is_returned :
    (∃ s, run (step plain) init staleRun = some s ∧ ¬ ReturnsRow plain s .status ['v']) ∧
    ∃ s, run (step plain) init (staleRun ++ [.store .status ['v'], .commitTransaction]) = some s ∧
      ¬ RefsExist s.db := by
  obtain ⟨s, hs, hp⟩ : ∃ s, run (step plain) init staleRun = some s ∧
      (create plain s .status ['v']).2 = some 1 ∧
        (create plain s .status ['v']).1.data.rows .status = [] := by
    decide +kernel
  obtain ⟨s', hs', hp'⟩ : ∃ s, run (step plain) init (staleRun ++ [.store .status ['v'],
      .commitTransaction]) = some s ∧ s.db.refs = [(.status, 1)] ∧ s.db.rows .status = [] := by
    decide +kernel
  refine ⟨⟨s, hs, fun hrow => ?_⟩, s', hs', fun hrefs => ?_⟩
  · have hmem := hrow 1 hp.1
    rw [hp.2] at hmem
    exact absurd hmem not_mem_nil
  · obtain ⟨r, hr, -⟩ := hrefs (.status, 1) (by rw [hp'.1]; exact mem_singleton_self _)
    rw [hp'.2] at hr
    exact absurd hr not_mem_nil

end XChainIndexer.StatusActions
