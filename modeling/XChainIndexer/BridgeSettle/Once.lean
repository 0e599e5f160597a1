import XChainIndexer.BridgeSettle.Transfer
import XChainIndexer.Lib.Run

/-! # Bridge transfers are paid out once

Main result: `bridge_settles_once`, over every mirror and every run of blocks and reorgs. An out leg
reads its escrow's balance by block and not by action, which leaves out the rows of injected actions,
the earlier out legs among them. `bridge_settles_once` asks that what the read leaves out does not lower
the balance; `escrow_overdrawn` is two releases of one lock. -/

namespace XChainIndexer.BridgeSettle.Once

open Lib.Decimal Lib.Run Bcmath List IndexTables Tokens.Numerals BridgeSettle.Transfer

variable {c : Config}

/-! ### Sums of ledger rows -/

theorem total_append (es es' : List Entry) (side : Side) (a t : Text) :
    total (es ++ es') side a t = total es side a t + total es' side a t := by
  simp [total]

theorem balance_append (es es' : List Entry) (a t : Text) :
    balance (es ++ es') a t = balance es a t + balance es' a t := by
  simp only [balance, total_append]
  ring

variable {e : Entry}

theorem balance_credit (he : e.side = .credit) (a t : Text) :
    balance [e] a t = if e.address = a ∧ e.tick = t then e.amount else 0 := by
  by_cases h : e.address = a ∧ e.tick = t <;> simp [balance, total, he, h]

theorem balance_debit (he : e.side = .debit) (a t : Text) :
    balance [e] a t = if e.address = a ∧ e.tick = t then -e.amount else 0 := by
  by_cases h : e.address = a ∧ e.tick = t <;> simp [balance, total, he, h]

theorem total_filter_add (es : List Entry) (p : Entry → Bool) (side : Side) (a t : Text) :
    total es side a t = total (es.filter p) side a t + total (es.filter fun e => !p e) side a t := by
  induction es with
  | nil => simp [total]
  | cons e es ih =>
    have hc : ∀ l : List Entry, total (e :: l) side a t = total [e] side a t + total l side a t :=
      fun l => total_append [e] l side a t
    cases hp : p e
    · rw [filter_cons_of_neg (by simp [hp]), filter_cons_of_pos (by simp [hp]), hc es, hc (es.filter _), ih]
      ring
    · rw [filter_cons_of_pos hp, filter_cons_of_neg (by simp [hp]), hc es, hc (es.filter _), ih]
      ring

variable {es : List Entry}

theorem onGrid_total (h : ∀ e ∈ es, OnGrid 18 e.amount) (side : Side) (a t : Text) :
    OnGrid 18 (total es side a t) := by
  induction es with
  | nil => exact onGrid_zero 18
  | cons e es ih =>
    rw [← singleton_append, total_append]
    refine OnGrid.add ?_ (ih fun e he => h e (by simp [he]))
    unfold total
    by_cases hm : e.side = side ∧ e.address = a ∧ e.tick = t
    · simpa [hm] using h e (by simp)
    · simpa [hm] using onGrid_zero 18

/-- The rows a balance read by block leaves out. -/
def unreadEntries (es : List Entry) (height : ℕ) : List Entry :=
  es.filter fun e => !e.txBlock.any (· < height)

/-- What the read leaves out does not lower the balance. -/
def readComplete (es : List Entry) (height : ℕ) (a t : Text) : Bool :=
  total (unreadEntries es height) .debit a t ≤ total (unreadEntries es height) .credit a t

variable {height : ℕ} {v : ℚ}

theorem le_balance_of_read (hg : ∀ e ∈ es, OnGrid 18 e.amount) {a t : Text} (hv : Fits 18 v)
    (hpos : 0 < v) (hread : readComplete es height a t) (h : v ≤ getAddressBalance es height a t) :
    v ≤ balance es a t := by
  have hgr : ∀ e ∈ readEntries es height, OnGrid 18 e.amount :=
    fun e he => hg e (mem_filter.mp he).1
  have hle : v ≤ total (readEntries es height) .credit a t - total (readEntries es height) .debit a t := by
    simp only [getAddressBalance] at h
    split_ifs at h
    · exact le_of_le_format ((onGrid_total hgr _ _ _).sub (onGrid_total hgr _ _ _)) hv hpos h
    · linarith
  have hc := total_filter_add es (fun e => e.txBlock.any (· < height)) .credit a t
  have hd := total_filter_add es (fun e => e.txBlock.any (· < height)) .debit a t
  have hr : total (unreadEntries es height) .debit a t ≤ total (unreadEntries es height) .credit a t :=
    of_decide_eq_true hread
  unfold balance
  unfold readEntries at hle
  unfold unreadEntries at hr
  linarith

/-! ### The books -/

/-- What a settle leg pays: the address, the tick's id and the amount. -/
def Entry.payment (e : Entry) : Text × Text × ℚ := (e.address, e.tick, e.amount)

/-- What the transfer says is to be paid. -/
def owed (c : Config) (st : Settlement) : Text × Text × ℚ :=
  (st.row.destAddress, st.localTick, c.value st.row.amount)

def payments (es : List Entry) : List (Text × Text × ℚ) :=
  (es.filter fun e => e.settle && decide (e.side = .credit)).map Entry.payment

/-- The two transfers are of one source leg, or have one id, as the database compares them. -/
def Collide (c : Config) (x y : Settlement) : Prop :=
  c.same x.transferId y.transferId = true ∨
    (c.same x.srcChain y.srcChain = true ∧ x.srcActionIndex = y.srcActionIndex)

instance (c : Config) : Std.Symm fun x y => ¬ Collide c x y where
  symm x y h hyx := by
    refine h (hyx.imp ?_ ?_)
    · rw [c.same_symm]
      exact id
    · rw [c.same_symm]
      exact fun hl => ⟨hl.1, hl.2.symm⟩

/-- The record carries the row's own id and source leg. -/
def Records (st : Settlement) : Prop :=
  st.transferId = st.row.transferId ∧ st.srcChain = st.row.srcChain ∧
    st.row.srcActionIndex = some st.srcActionIndex ∧ st.srcActionIndex ≤ maxSafeInteger

structure Good (c : Config) (es : List Entry) (sts : List Settlement) : Prop where
  escrow : ∀ chain escrow, c.bridgeAddress chain = some escrow → ∀ tick, 0 ≤ balance es escrow tick
  paid : payments es = sts.map (owed c)
  once : sts.Pairwise fun x y => ¬ Collide c x y
  records : ∀ st ∈ sts, Records st
  grid : ∀ e ∈ es, OnGrid 18 e.amount

/-- The books are good at every height they may be rolled back to, and no row is of a later block. -/
structure Inv (c : Config) (s : State) : Prop where
  good : ∀ h, Good c (s.db.upTo h).entries (s.db.upTo h).settlements
  entries_le : ∀ e ∈ s.db.entries, e.block ≤ s.height
  settlements_le : ∀ st ∈ s.db.settlements, st.block ≤ s.height

/-- The second database has further rows of the block. -/
structure Extends (height : ℕ) (db db' : Db) (es : List Entry) (sts : List Settlement) : Prop where
  entries : db'.entries = db.entries ++ es
  settlements : db'.settlements = db.settlements ++ sts
  entries_block : ∀ e ∈ es, e.block = height
  settlements_block : ∀ st ∈ sts, st.block = height

variable {s : State}

theorem Inv.good_db (h : Inv c s) : Good c s.db.entries s.db.settlements := by
  have := h.good (s.height + 1)
  have he : (s.db.upTo (s.height + 1)).entries = s.db.entries :=
    filter_eq_self.mpr fun e he => by have := h.entries_le e he; simp; omega
  have hs : (s.db.upTo (s.height + 1)).settlements = s.db.settlements :=
    filter_eq_self.mpr fun e he => by have := h.settlements_le e he; simp; omega
  rwa [he, hs] at this

variable {db : Db} {sts : List Settlement}

/-- What is added at the current block only has to leave the whole books good. -/
theorem Inv.extend (h : Inv c s) (hx : Extends s.height s.db db es sts)
    (hg : Good c db.entries db.settlements) (time : ℕ) (pass : Option Pass) :
    Inv c ⟨db, s.height, time, pass⟩ := by
  have hle : ∀ e ∈ db.entries, e.block ≤ s.height := by
    intro e he
    rw [hx.entries, mem_append] at he
    rcases he with he | he
    · exact h.entries_le e he
    · exact (hx.entries_block e he).le
  have hle' : ∀ st ∈ db.settlements, st.block ≤ s.height := by
    intro e he
    rw [hx.settlements, mem_append] at he
    rcases he with he | he
    · exact h.settlements_le e he
    · exact (hx.settlements_block e he).le
  refine ⟨fun k => ?_, hle, hle'⟩
  rcases Nat.lt_or_ge s.height k with hk | hk
  · have he : (db.upTo k).entries = db.entries :=
      filter_eq_self.mpr fun e he => by have := hle e he; simp; omega
    have hs : (db.upTo k).settlements = db.settlements :=
      filter_eq_self.mpr fun e he => by have := hle' e he; simp; omega
    rwa [he, hs]
  · have he : (db.upTo k).entries = (s.db.upTo k).entries := by
      have hn : es.filter (·.block < k) = [] :=
        filter_eq_nil_iff.mpr fun e he => by have := hx.entries_block e he; simp; omega
      simp only [Db.upTo, hx.entries, filter_append, hn, append_nil]
    have hs : (db.upTo k).settlements = (s.db.upTo k).settlements := by
      have hn : sts.filter (·.block < k) = [] :=
        filter_eq_nil_iff.mpr fun e he => by have := hx.settlements_block e he; simp; omega
      simp only [Db.upTo, hx.settlements, filter_append, hn, append_nil]
    rw [he, hs]
    exact h.good k

/-- The two tables are untouched. -/
def SameBooks (db db' : Db) : Prop := db'.entries = db.entries ∧ db'.settlements = db.settlements

theorem SameBooks.extends {db' : Db} (h : SameBooks db db') (height : ℕ) : Extends height db db' [] [] :=
  ⟨by simp [h.1], by simp [h.2], by simp, by simp⟩

theorem Inv.same (h : Inv c s) (hb : SameBooks s.db db) (time : ℕ) (pass : Option Pass) :
    Inv c ⟨db, s.height, time, pass⟩ := by
  refine h.extend (hb.extends s.height) ?_ time pass
  rw [hb.1, hb.2]
  exact h.good_db

theorem Inv.rollback (h : Inv c s) (k : ℕ) : Inv c (Transfer.rollback s k) := by
  have hcut : ∀ j, ((s.db.upTo k).upTo j).entries = (s.db.upTo (min k j)).entries ∧
      ((s.db.upTo k).upTo j).settlements = (s.db.upTo (min k j)).settlements := by
    intro j
    constructor <;>
    · simp only [Db.upTo, filter_filter]
      congr 1
      funext e
      rw [Bool.eq_iff_iff]
      simp [and_comm]
  refine ⟨fun j => ?_, fun e he => ?_, fun st hst => ?_⟩
  · rw [Transfer.rollback, (hcut j).1, (hcut j).2]
    exact h.good _
  · have hm := mem_filter.mp he
    have := h.entries_le e hm.1
    have := of_decide_eq_true hm.2
    simp only [Transfer.rollback]
    omega
  · have hm := mem_filter.mp hst
    have := h.settlements_le st hm.1
    have := of_decide_eq_true hm.2
    simp only [Transfer.rollback]
    omega

/-! ### One transfer -/

theorem toDouble_of_le {v : ℕ} (h : v ≤ maxSafeInteger) : toDouble v = v := if_pos h

def settleEntry (c : Config) (height actionIndex : ℕ) (side : Side) (tick : Text) (amount : ℚ)
    (address : Text) : Entry :=
  ⟨side, actionIndex, height, none, true, address, c.toUpperCase tick, amount⟩

/-- The ledger writes the amount as it stands. -/
def Exact (c : Config) (height : ℕ) (v : ℚ) : Prop :=
  c.ledgerAmountPrecisionActive height = true ∧ Fits 18 v

theorem createLedgerChangeRecord_exact (h : Exact c height v) (db : Db) (idx : ℕ)
    (side : Side) (tick address : Text) :
    createLedgerChangeRecord c db height none true idx side tick v address =
      { db with entries := db.entries ++ [settleEntry c height idx side tick v address] } := by
  simp only [createLedgerChangeRecord, ledgerWriteScale, h.1, if_true, settleEntry,
    bcadd_zero h.2 le_rfl le_rfl]

def recordOf (c : Config) (height idx : ℕ) (r : Row) (f : Fields) (tick : Text) : Settlement :=
  ⟨idx, r.transferId, height, r.srcChain, clampBigint f.srcIndex, c.toUpperCase tick, r⟩

/-- The debits of a leg: none for an in leg, one of the escrow for an out leg. -/
inductive Debited (c : Config) (r : Row) (e : Effects) : Option Text → Prop
  | mint (hd : e.debits = []) : Debited c r e none
  | release {escrow : Text} (hd : e.debits = [(e.localTick, c.value r.amount, escrow)]) :
      Debited c r e (some escrow)

def settleEntries (c : Config) (height idx : ℕ) (r : Row) (tick : Text) (escrow : Option Text) :
    List Entry :=
  (escrow.map (settleEntry c height idx .debit tick (c.value r.amount))).toList ++
    [settleEntry c height idx .credit tick (c.value r.amount) r.destAddress]

variable {r : Row} {f : Fields} {escrow : Option Text}

theorem mintSettleAction_extends {e : Effects} (hx : Exact c height (c.value r.amount))
    (hc : e.credits = [(e.localTick, c.value r.amount, r.destAddress)]) (hd : Debited c r e escrow)
    (hnew : isBridgeSettlementRecorded c db r.transferId = false) :
    Extends height db (mintSettleAction c db height r f e)
      (settleEntries c height (getNextActionIndex db) r e.localTick escrow)
      [recordOf c height (getNextActionIndex db) r f e.localTick] := by
  cases hd with
  | mint hd | release hd =>
    simp only [mintSettleAction, hc, hd, foldl_nil, foldl_cons, createLedgerChangeRecord_exact hx]
    rw [recordBridgeSettlement, if_neg (by simpa [isBridgeSettlementRecorded] using hnew)]
    exact ⟨by simp [settleEntries], rfl, by simp [settleEntries, settleEntry], by simp [recordOf]⟩

theorem payments_append (es es' : List Entry) : payments (es ++ es') = payments es ++ payments es' := by
  simp [payments]

theorem settle_good (h : Good c es sts) {idx : ℕ} {tick : Text}
    (hfit : Fits 18 (c.value r.amount)) (hpos : 0 < c.value r.amount)
    (hheld : ∀ a, escrow = some a → c.value r.amount ≤ balance es a (c.toUpperCase tick))
    (hidx : r.srcActionIndex = some f.srcIndex) (hsafe : f.srcIndex ≤ maxSafeInteger)
    (hid : ∀ st ∈ sts, c.same st.transferId r.transferId = false)
    (hleg : ∀ st ∈ sts, ¬ (c.same st.srcChain r.srcChain ∧ st.srcActionIndex = f.srcIndex)) :
    Good c (es ++ settleEntries c height idx r tick escrow) (sts ++ [recordOf c height idx r f tick]) := by
  have hclamp : clampBigint f.srcIndex = f.srcIndex := by
    have : maxSafeInteger ≤ 2 ^ 64 - 1 := by norm_num [maxSafeInteger]
    unfold clampBigint
    omega
  refine ⟨fun chain a ha t => ?_, ?_, ?_, ?_, ?_⟩
  · have hold := h.escrow chain a ha t
    have hcredit : 0 ≤ balance [settleEntry c height idx .credit tick (c.value r.amount) r.destAddress]
        a t := by
      rw [balance_credit rfl]
      split_ifs
      · exact hpos.le
      · exact le_rfl
    cases escrow with
    | none =>
      simp only [settleEntries, Option.map_none, Option.toList_none, nil_append, balance_append]
      linarith
    | some b =>
      simp only [settleEntries, Option.map_some, Option.toList_some, balance_append]
      have hdebit : 0 ≤ balance es a t +
          balance [settleEntry c height idx .debit tick (c.value r.amount) b] a t := by
        rw [balance_debit rfl]
        split_ifs with hm
        · obtain ⟨rfl, rfl⟩ := hm
          have : c.value r.amount ≤ balance es b (c.toUpperCase tick) := hheld b rfl
          simp only [settleEntry]
          linarith
        · linarith
      linarith
  · have hpaid : payments (settleEntries c height idx r tick escrow) =
        [(r.destAddress, c.toUpperCase tick, c.value r.amount)] := by
      cases escrow <;> simp [payments, settleEntries, settleEntry, Entry.payment]
    rw [payments_append, hpaid, h.paid, map_append]
    rfl
  · refine pairwise_append.mpr ⟨h.once, pairwise_singleton _ _, fun x hx y hy hxy => ?_⟩
    rw [mem_singleton] at hy
    subst hy
    rcases hxy with hxy | ⟨hch, hix⟩
    · exact Bool.false_ne_true ((hid x hx).symm.trans hxy)
    · exact hleg x hx ⟨hch, by rw [hix]; exact hclamp⟩
  · intro st hst
    rcases mem_append.mp hst with hst | hst
    · exact h.records st hst
    · rw [mem_singleton] at hst
      subst hst
      exact ⟨rfl, rfl, by rw [recordOf, hclamp]; exact hidx, by rw [recordOf, hclamp]; exact hsafe⟩
  · intro e he
    rcases mem_append.mp he with he | he
    · exact h.grid e he
    · cases escrow <;> simp [settleEntries, settleEntry] at he
      · exact he ▸ hfit.1
      · rcases he with rfl | rfl <;> exact hfit.1

theorem injectProtocolToken_same (db : Db) (height : ℕ) (valid : Bool) (tick owner : Text)
    (decimals : ℕ) : SameBooks db (injectProtocolToken c db height valid tick owner decimals) := by
  unfold injectProtocolToken
  split <;> exact ⟨rfl, rfl⟩

theorem injectBridgedToken_same (db : Db) (height : ℕ) (a : Answers) (o : Origin) (owner : Text)
    (decimals : ℕ) : SameBooks db (injectBridgedToken c db height a o owner decimals).1 := by
  have hroot := injectProtocolToken_same (c := c) db height a.rootIssueValid o.originChain owner 0
  unfold injectBridgedToken
  split
  · exact ⟨rfl, rfl⟩
  · dsimp only
    split
    · exact hroot
    · split
      · exact hroot
      · split <;> exact hroot

theorem buildInLegEffects_same (db : Db) (height : ℕ) (a : Answers) (r : Row) (f : Fields) (o : Origin) :
    SameBooks db (buildInLegEffects c db height a r f o).1 := by
  unfold buildInLegEffects
  split
  · exact injectProtocolToken_same db height _ _ _ _
  · cases c.bridgeAddress o.originChain with
    | none => exact ⟨rfl, rfl⟩
    | some owner =>
      have h := injectBridgedToken_same (c := c) db height a o owner f.decimals
      dsimp only
      split <;> rename_i heq <;>
      · rw [heq] at h
        exact h

theorem buildInLegEffects_ok {a : Answers} {o : Origin} {e : Effects}
    (h : (buildInLegEffects c db height a r f o).2 = .ok e) :
    e.credits = [(e.localTick, c.value r.amount, r.destAddress)] ∧ e.debits = [] := by
  simp only [buildInLegEffects] at h
  split_ifs at h
  · exact Except.ok.inj h ▸ ⟨rfl, rfl⟩
  · split at h
    · exact absurd h (by simp)
    · split at h
      · exact Except.ok.inj h ▸ ⟨rfl, rfl⟩
      · exact absurd h (by simp)

/-- What an applied row must meet: the ledger writes its amount as it stands, its source index is an
exact number, and the balance read of an out leg leaves nothing out that lowers the balance. -/
def safeRow (c : Config) (es : List Entry) (height : ℕ) (r : Row) : Bool :=
  c.ledgerAmountPrecisionActive height && decide (Fits 18 (c.value r.amount)) &&
    r.srcActionIndex.all (· ≤ maxSafeInteger) &&
    match resolveTransferOrigin c r, c.bridgeAddress r.srcChain with
    | some ⟨_, native, .burn⟩, some escrow => readComplete es height escrow (c.toUpperCase native)
    | _, _ => true

theorem screenRow_srcIndex {time : ℕ} (h : screenRow c r height time = .ok f) :
    int r.srcActionIndex = some f.srcIndex := by
  simp only [screenRow] at h
  split at h
  · split_ifs at h
    obtain rfl := Except.ok.inj h
    assumption
  · exact absurd h (by simp)

/-- The verdict on a row: a refusal that leaves the books as they are, or the settle action of a leg's
effects. -/
inductive Judged (c : Config) (db : Db) (height time : ℕ) (r : Row) : Db × Option Reason → Prop
  | refused {db' : Db} {reason : Reason} : SameBooks db db' → Judged c db height time r (db', some reason)
  | settled {db' : Db} {f : Fields} {o : Origin} {e : Effects} {escrow : Option Text} :
      screenRow c r height time = .ok f → resolveTransferOrigin c r = some o →
      guardSettledAndAmount c db r f time = none → SameBooks db db' →
      e.credits = [(e.localTick, c.value r.amount, r.destAddress)] → Debited c r e escrow →
      (∀ a ∈ escrow, o.kind = .burn ∧ e.localTick = o.nativeTick ∧ c.bridgeAddress r.srcChain = some a ∧
        c.value r.amount ≤ getAddressBalance db.entries height a (c.toUpperCase o.nativeTick)) →
      Judged c db height time r (mintSettleAction c db' height r f e, none)

theorem judged (c : Config) (db : Db) (height time : ℕ) (r : Row) (a : Answers) :
    Judged c db height time r (applyBridgeTransfer c db height time r a) := by
  have refused : ∀ reason, Judged c db height time r (db, some reason) := fun _ => .refused ⟨rfl, rfl⟩
  unfold applyBridgeTransfer
  cases hscreen : screenRow c r height time with
  | error reason => exact refused reason
  | ok f =>
  cases horigin : resolveTransferOrigin c r with
  | none => exact refused _
  | some o =>
  cases hguard : guardSettledAndAmount c db r f time with
  | some reason => simpa only [hguard] using refused reason
  | none =>
  cases hquorum : guardQuorumAndEscrow a with
  | some reason => simpa only [hguard] using refused reason
  | none =>
  simp only [hguard]
  split_ifs with hpol
  · exact refused _
  · cases hk : o.kind with
    | lock =>
      have hsame := buildInLegEffects_same (c := c) db height a r f o
      cases heff : (buildInLegEffects c db height a r f o).2 with
      | error reason => exact .refused hsame
      | ok e =>
        obtain ⟨hcr, hde⟩ := buildInLegEffects_ok heff
        exact .settled hscreen horigin hguard hsame hcr (.mint hde) (by simp)
    | burn =>
      cases heff : buildOutLegEffects c db height r o with
      | error reason => exact refused reason
      | ok e =>
        simp only [buildOutLegEffects] at heff
        split at heff
        · exact absurd heff (by simp)
        · rename_i escrow hescrow
          split_ifs at heff with _ hshort
          obtain rfl := Except.ok.inj heff
          refine .settled hscreen horigin hguard ⟨rfl, rfl⟩ rfl (.release rfl) fun b hb => ?_
          obtain ⟨⟩ := hb
          exact ⟨hk, rfl, hescrow, not_lt.mp hshort⟩

/-- A row leaves the books as they are, or adds one settlement to them and keeps them good. -/
theorem applyBridgeTransfer_good (h : Good c db.entries db.settlements) (time : ℕ) (a : Answers)
    (hsafe : safeRow c db.entries height r) :
    ∃ es sts, Extends height db (applyBridgeTransfer c db height time r a).1 es sts ∧
      Good c (applyBridgeTransfer c db height time r a).1.entries
        (applyBridgeTransfer c db height time r a).1.settlements := by
  simp only [safeRow, Bool.and_eq_true, decide_eq_true_eq] at hsafe
  obtain ⟨⟨⟨hact, hfit⟩, hidx⟩, hread⟩ := hsafe
  have hjudged := judged c db height time r a
  revert hjudged
  generalize applyBridgeTransfer c db height time r a = verdict
  rintro (hb | @⟨db', f, o, e, escrow, hscreen, horigin, hguard, hb, hcr, hd, hheld⟩)
  · exact ⟨[], [], hb.extends height, by rw [hb.1, hb.2]; exact h⟩
  · simp only [guardSettledAndAmount] at hguard
    split_ifs at hguard with hnew hleg hamount
    have hpos : 0 < c.value r.amount := not_le.mp fun hle => hamount (Or.inr hle)
    rw [Bool.not_eq_true] at hnew hleg
    obtain ⟨v, hv, hvf⟩ := Option.map_eq_some_iff.mp (screenRow_srcIndex hscreen)
    have hvle : v ≤ maxSafeInteger := by simpa [hv] using hidx
    rw [toDouble_of_le hvle] at hvf
    subst hvf
    have hnew' : isBridgeSettlementRecorded c db' r.transferId = false := by
      rw [isBridgeSettlementRecorded, hb.2]
      exact hnew
    have hx := mintSettleAction_extends (f := f) ⟨hact, hfit⟩ hcr hd hnew'
    rw [hx.entries, hx.settlements, hb.1, hb.2]
    refine ⟨_, _, ⟨hb.1 ▸ hx.entries, hb.2 ▸ hx.settlements, hx.entries_block, hx.settlements_block⟩,
      settle_good h hfit hpos (fun a ha => ?_) hv hvle (fun st hst => ?_) (fun st hst hcol => ?_)⟩
    · obtain ⟨hk, htick, hescrow, hbal⟩ := hheld a ha
      obtain ⟨chain, native, kind⟩ := o
      obtain rfl : kind = .burn := hk
      simp only [horigin, hescrow] at hread
      rw [htick]
      exact le_balance_of_read h.grid hfit hpos hread hbal
    · exact Bool.not_eq_true _ ▸ any_eq_false.mp hnew st hst
    · exact any_eq_false.mp hleg st hst (by simp [hcol.1, hcol.2])

/-! ### Runs -/

/-- The condition on a step: the row that is applied meets `safeRow`. -/
def safe (c : Config) (s : State) : Event → Bool
  | .applyNext _ =>
    match s.pass with
    | some ⟨r :: _, _⟩ => safeRow c s.db.entries s.height r
    | _ => true
  | _ => true

theorem ledgerWriteScale_le (db : Db) (height : ℕ) (tick : Text) :
    ledgerWriteScale c db height tick ≤ 18 := by
  unfold ledgerWriteScale getTokenDecimalPrecision
  split_ifs
  · exact le_rfl
  · exact tokenDecimalPrecision_le _

theorem other_good (h : Good c es sts) (hsettle : e.settle = false) (hgrid : OnGrid 18 e.amount)
    (hnonneg : 0 ≤ e.amount) (hheld : e.side = .debit → 0 ≤ balance (es ++ [e]) e.address e.tick) :
    Good c (es ++ [e]) sts := by
  refine ⟨fun chain a ha t => ?_, ?_, h.once, h.records, fun e' he' => ?_⟩
  · have hold := h.escrow chain a ha t
    cases hside : e.side with
    | credit =>
      rw [balance_append, balance_credit hside]
      split_ifs <;> linarith
    | debit =>
      by_cases hm : e.address = a ∧ e.tick = t
      · obtain ⟨rfl, rfl⟩ := hm
        exact hheld hside
      · rw [balance_append, balance_debit hside, if_neg hm]
        linarith
  · rw [payments_append, h.paid]
    simp [payments, hsettle]
  · rcases mem_append.mp he' with he' | he'
    · exact h.grid e' he'
    · rw [mem_singleton] at he'
      exact he' ▸ hgrid

theorem inv_step {s' : State} {e : Event} (hok : safe c s e) (hs : step c s e = some s')
    (h : Inv c s) : Inv c s' := by
  cases e with
  | ledger side transaction tick amount address =>
    simp only [step] at hs
    split_ifs at hs with hpre hover
    obtain ⟨⟩ := hs
    obtain ⟨-, hamount⟩ := not_or.mp hpre
    have hx : Extends s.height s.db (createLedgerChangeRecord c { s.db with
        actions := s.db.actions ++ [⟨getNextActionIndex s.db, s.height⟩] } s.height
        (txBlockOf s transaction) false (getNextActionIndex s.db) side tick amount address) _ [] :=
      ⟨rfl, (append_nil _).symm, by simp, by simp⟩
    refine h.extend hx ?_ _ _
    refine other_good h.good_db rfl ((onGrid_format _ _).mono (ledgerWriteScale_le _ _ _))
      (format_nonneg _ (by linarith)) fun hside => ?_
    exact not_lt.mp fun hlt => hover ⟨hside, hlt⟩
  | issue tick owner decimals =>
    simp only [step] at hs
    split_ifs at hs
    obtain ⟨⟩ := hs
    have hb : SameBooks s.db (injectIssue s.db s.height true tick owner decimals) := ⟨rfl, rfl⟩
    exact h.same hb _ _
  | beginPass mirror =>
    simp only [step] at hs
    split_ifs at hs
    obtain ⟨⟩ := hs
    exact h.same ⟨rfl, rfl⟩ _ _
  | applyNext answers =>
    obtain ⟨db, height, time, pass⟩ := s
    obtain _ | ⟨_ | ⟨r, due⟩, slots⟩ := pass
    · simp [step] at hs
    · simp [step] at hs
    · simp only [step] at hs
      split_ifs at hs
      · exact Option.some.inj hs ▸ h.rollback _
      all_goals
        obtain ⟨⟩ := hs
        obtain ⟨es, sts, hx, hg⟩ := applyBridgeTransfer_good h.good_db time answers hok
        exact h.extend hx hg _ _
  | nextBlock time =>
    obtain ⟨⟩ := hs
    exact ⟨h.good, fun e he => (h.entries_le e he).trans (Nat.le_succ _),
      fun st hst => (h.settlements_le st hst).trans (Nat.le_succ _)⟩
  | reorg k => exact Option.some.inj hs ▸ h.rollback k

theorem inv_init (c : Config) : Inv c init := by
  refine ⟨fun h => ⟨fun _ _ _ _ => ?_, rfl, List.Pairwise.nil, ?_, ?_⟩, ?_, ?_⟩
  · simp [init, Db.upTo, balance, total]
  all_goals simp [init, Db.upTo]

/-- The reads of a transfer's id and of its source leg after a rollback of its block: its record was
the only one they could find. -/
theorem forgotten_of_rollback (h : Inv c s) {st : Settlement} (hst : st ∈ s.db.settlements) {k : ℕ}
    (hk : k ≤ st.block) : isBridgeSettlementRecorded c (s.db.upTo k) st.row.transferId = false ∧
      isBridgeSourceLegSettled c (s.db.upTo k) st.row.srcChain st.srcActionIndex = false := by
  have hg := h.good_db
  obtain ⟨hid, hchain, -, -⟩ := hg.records st hst
  rw [← hid, ← hchain]
  -- A record left behind is another one, and collides with none.
  have other : ∀ x ∈ (s.db.upTo k).settlements, ¬ Collide c x st := by
    intro x hx hcol
    obtain ⟨hmem, hlt⟩ := mem_filter.mp hx
    have hne : x ≠ st := fun heq => by
      have := of_decide_eq_true hlt
      rw [heq] at this
      omega
    exact hg.once.forall hmem hst hne hcol
  constructor
  · refine any_eq_false.mpr fun x hx hs => other x hx (Or.inl hs)
  · refine any_eq_false.mpr fun x hx hs => other x hx (Or.inr ?_)
    simpa using hs

/-- **Bridge transfers are paid out once.** In every run whose applied rows meet `safeRow`: no two
settlements are of one source leg; the credits of the settle legs are the recorded transfers' amounts,
in order; no escrow role address is negative in any tick; and after a rollback of the block a transfer
was applied in, neither idempotency read finds it. -/
theorem bridge_settles_once (c : Config) {s : State}
    (h : Reaches (step c) (fun s e => safe c s e = true) init s) :
    (s.db.settlements.Pairwise fun x y =>
      ¬ (x.row.srcChain = y.row.srcChain ∧ x.row.srcActionIndex = y.row.srcActionIndex)) ∧
    payments s.db.entries = s.db.settlements.map (owed c) ∧
    (∀ chain escrow, c.bridgeAddress chain = some escrow → ∀ tick,
      0 ≤ balance s.db.entries escrow tick) ∧
    ∀ k, ∀ st ∈ s.db.settlements, k ≤ st.block →
      isBridgeSettlementRecorded c (rollback s k).db st.row.transferId = false ∧
        ∀ idx, int st.row.srcActionIndex = some idx →
          isBridgeSourceLegSettled c (rollback s k).db st.row.srcChain idx = false := by
  have hi : Inv c s := h.invariant (inv_init c) fun _ _ _ hok hs hi => inv_step hok hs hi
  have hg := hi.good_db
  refine ⟨?_, hg.paid, hg.escrow, fun k st hst hk => ?_⟩
  · refine (pairwise_and_iff.mpr ⟨hg.once, pairwise_of_forall_mem_list
      fun x hx y hy => And.intro (hg.records x hx) (hg.records y hy)⟩).imp ?_
    rintro x y ⟨hcol, ⟨-, hxc, hxi, -⟩, -, hyc, hyi, -⟩ ⟨hch, hix⟩
    refine hcol (Or.inr ⟨?_, ?_⟩)
    · rw [hxc, hyc, hch]
      exact c.same_refl _
    · rw [hxi, hyi] at hix
      exact Option.some.inj hix
  · obtain ⟨h₁, h₂⟩ := forgotten_of_rollback hi hst hk
    refine ⟨h₁, fun idx hidx => ?_⟩
    obtain ⟨-, -, hraw, hle⟩ := hg.records st hst
    rw [hraw, int, Option.map_some, toDouble_of_le hle, Option.some.injEq] at hidx
    exact hidx ▸ h₂

/-! ### Two releases of one lock -/

/-- The gas tick on its origin chain; every amount text is `100`. -/
def demo : Config where
  coin := escrowChain
  network := ['r']
  gas := xchain
  gasAddress := ['g']
  chainId := none
  bridgeAddress chain := if chain = ['D'] then some ['e'] else none
  toUpperCase := id
  same t u := t = u
  same_refl := by simp
  same_symm := by simp [eq_comm]
  isValidAmountFormat _ _ _ := true
  value _ := 100
  bridgeActive _ _ := true
  policyInheritanceActive _ := false
  rowFieldsTerminal _ := true
  ledgerAmountPrecisionActive _ := true

/-- The burn with an action index on the other chain. -/
def burnRow (id : Char) (index : ℕ) : Row where
  transferId := [id]
  srcChain := ['D']
  srcActionIndex := some index
  destChain := escrowChain
  destAddress := ['u']
  tick := xchain
  decimals := some 8
  amount := ['1', '0', '0']
  snapshotBlock := some 1
  effectiveTime := 0
  network := ['r']
  btcChainId := none
  finalized := true

def allMet : Answers := ⟨.met, .accepted, true, true, true⟩

/-- A lock of 100 and the release of a first burn. -/
def released : List Event :=
  [.issue xchain ['g'] 8, .ledger .credit true xchain 100 ['e'], .nextBlock 1,
    .beginPass [burnRow 'a' 1], .applyNext allMet]

/-- The lock is released once, also when the mirror repeats the row under another id. -/
theorem bridge_settles_once_released : ∃ s,
    run (step demo) init (released ++ [.nextBlock 2, .beginPass [burnRow 'b' 1, burnRow 'a' 1]]) =
      some s ∧ s.db.settlements.length = 1 ∧ payments s.db.entries = s.db.settlements.map (owed demo) ∧
      0 ≤ balance s.db.entries ['e'] xchain := by
  obtain ⟨s, hs, hp⟩ : ∃ s, run (fun s e => if safe demo s e then step demo s e else none) init
      (released ++ [.nextBlock 2, .beginPass [burnRow 'b' 1, burnRow 'a' 1]]) = some s ∧
        s.db.settlements.length = 1 := by decide +kernel
  obtain ⟨-, hpaid, hescrow, -⟩ := bridge_settles_once demo (Reaches.init.of_checked hs)
  exact ⟨s, run_of_checked hs, hp, hpaid, hescrow ['D'] ['e'] rfl xchain⟩

/-- The release of a second burn finds the lock again: the first release is a row of an action without
a transaction, which the balance read leaves out. -/
theorem escrow_overdrawn : ∃ s,
    run (step demo) init (released ++ [.nextBlock 2, .beginPass [burnRow 'b' 2], .applyNext allMet]) =
      some s ∧ demo.bridgeAddress ['D'] = some ['e'] ∧ balance s.db.entries ['e'] xchain = -100 := by
  decide +kernel

end XChainIndexer.BridgeSettle.Once
