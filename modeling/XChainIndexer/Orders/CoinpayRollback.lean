import XChainIndexer.Lib.StatusLog
import XChainIndexer.Lib.Run
import XChainIndexer.Orders.Tables

/-! # Rolling back COINPAY matches

The status of a match is a column of `order_matches` that a payment overwrites in place, so a rollback
cannot restore it by deleting rows: `rederiveCoinpayMatchStatus` (`db/rollback/rederive.js`) infers it
from the payments that survive. The state here is that column and the rows of `coinpay_statuses`; the
events are every action, with the orders a payment looks up as its answer. `rollback_eq_replay` says
that a run with rollbacks anywhere leaves what its surviving actions leave alone, and says in these
terms which obligations can be paid. -/

namespace XChainIndexer.Orders.CoinpayRollback

open Lib.Run Lib.StatusLog List Orders.Tables

inductive SettlementType
  | instant
  | coinpay
deriving DecidableEq

/-- A row of `order_matches`, as far as its status goes. -/
structure MatchRow where
  index : ℕ
  settlement : SettlementType
  status : MatchStatus
deriving DecidableEq

structure State where
  matched : List MatchRow
  statuses : List (Row CoinpayStatus)
  next : ℕ
deriving DecidableEq

def init : State := ⟨[], [], 1⟩

/-- `getCoinpayObligationInfo` finds the obligation with the status `pending_coinpay`: that of its row
with the largest action. -/
def State.pending (s : State) (idx : ℕ) : Bool := isHeld (· = .pending) s.statuses idx

/-! ### The actions -/

/-- An action that takes an index. -/
inductive Event
  | orderMatch (settlement : SettlementType)
  | coinpay (idx : ℕ)
  | coinpayExpire (idx : ℕ)
  /-- Any other action, a COINPAY that is not valid or finds no roles among them. -/
  | other
deriving DecidableEq

/-- A match as it is recorded: one in coin waits for its payment. -/
def matchRow (idx : ℕ) (settlement : SettlementType) : MatchRow where
  index := idx
  settlement := settlement
  status := match settlement with
    | .instant => .valid
    | .coinpay => .pendingCoinpay

/-- `updateOrderMatchStatus`. -/
def setStatus (idx : ℕ) (status : MatchStatus) (r : MatchRow) : MatchRow :=
  if r.index = idx then { r with status } else r

/-- A payment or an expiry of an obligation that is not pending is not carried out. An expiry leaves
the match: it writes `order_statuses`, which no reader joins with a match. -/
def step (s : State) : Event → Option State
  | .orderMatch settlement => some
    { matched := s.matched ++ [matchRow s.next settlement]
      statuses := s.statuses ++ match settlement with
        | .instant => []
        | .coinpay => [⟨s.next, s.next, .pending⟩]
      next := s.next + 1 }
  | .coinpay idx =>
    if s.pending idx then some
      { matched := s.matched.map (setStatus idx .valid)
        statuses := s.statuses ++ [⟨s.next, idx, .fulfilled⟩]
        next := s.next + 1 }
    else none
  | .coinpayExpire idx =>
    if s.pending idx then some
      { s with statuses := s.statuses ++ [⟨s.next, idx, .expired⟩], next := s.next + 1 }
    else none
  | .other => some { s with next := s.next + 1 }

/-! ### The rollback -/

/-- A `fulfilled` row of the obligation is there. -/
def isPaid (statuses : List (Row CoinpayStatus)) (idx : ℕ) : Bool :=
  statuses.any fun r => r.item = idx && r.status = .fulfilled

def demote (paid : ℕ → Bool) (r : MatchRow) : MatchRow :=
  if r.settlement = .coinpay ∧ r.status = .valid ∧ paid r.index = false then
    { r with status := .pendingCoinpay } else r

def promote (paid : ℕ → Bool) (r : MatchRow) : MatchRow :=
  if r.settlement = .coinpay ∧ r.status = .pendingCoinpay ∧ paid r.index = true then
    { r with status := .valid } else r

def rederiveCoinpayMatchStatus (s : State) : State :=
  { s with matched := (s.matched.map (demote (isPaid s.statuses))).map (promote (isPaid s.statuses)) }

/-- The rows of the orphaned actions are deleted, then the statuses are inferred. -/
def rollbackTo (first : ℕ) (s : State) : State :=
  rederiveCoinpayMatchStatus
    { matched := s.matched.filter fun r => r.index < first
      statuses := cut first s.statuses
      next := first }

/-! ### A rollback undoes the actions -/

/-- What a match row has to do with the payments. -/
structure Told (statuses : List (Row CoinpayStatus)) (r : MatchRow) : Prop where
  instant : r.settlement = .instant → r.status = .valid
  coinpay : r.settlement = .coinpay → (r.status = .valid ↔ isPaid statuses r.index = true)

structure Inv (s : State) : Prop where
  matched_lt : ∀ r ∈ s.matched, r.index < s.next
  statuses_lt : ∀ x ∈ s.statuses, x.action < s.next
  items_lt : ∀ x ∈ s.statuses, x.item < s.next
  told : ∀ r ∈ s.matched, Told s.statuses r

theorem rederive_eq (s : State) : (rederiveCoinpayMatchStatus s).matched = s.matched.map fun r =>
    if r.settlement = .coinpay then
      { r with status := if isPaid s.statuses r.index then .valid else .pendingCoinpay } else r := by
  unfold rederiveCoinpayMatchStatus
  rw [map_map]
  refine map_congr_left fun r _ => ?_
  obtain ⟨idx, settlement, status⟩ := r
  cases settlement <;> cases status <;> cases hp : isPaid s.statuses idx <;>
    simp [demote, promote, hp]

theorem isPaid_append (rows : List (Row CoinpayStatus)) (action item : ℕ) (st : CoinpayStatus)
    (i : ℕ) : isPaid (rows ++ [⟨action, item, st⟩]) i =
      (isPaid rows i || (decide (item = i) && decide (st = .fulfilled))) := by
  simp [isPaid]

theorem cut_append (n : ℕ) (rows : List (Row CoinpayStatus)) {row : Row CoinpayStatus}
    (h : n ≤ row.action) : cut n (rows ++ [row]) = cut n rows := by
  unfold cut
  rw [filter_append, filter_cons_of_neg (by simpa using h), filter_nil, append_nil]

variable {s s' : State} {n : ℕ}

/-- A rollback depends on the rows below the index only, and on no status of a coin match. -/
theorem rollbackTo_congr (hs : cut n s'.statuses = cut n s.statuses)
    {f : MatchRow → MatchRow} {new : List MatchRow} (hm : s'.matched = s.matched.map f ++ new)
    (hnew : ∀ r ∈ new, n ≤ r.index)
    (hf : ∀ r ∈ s.matched, f r = r ∨ (f r = { r with status := .valid } ∧ Told s.statuses r)) :
    rollbackTo n s' = rollbackTo n s := by
  have hnil : new.filter (fun r => r.index < n) = [] :=
    filter_eq_nil_iff.mpr fun r hr => by simpa using hnew r hr
  have hrows : (rollbackTo n s').matched = (rollbackTo n s).matched := by
    unfold rollbackTo
    rw [rederive_eq, rederive_eq, hs, hm, filter_append, hnil, append_nil, filter_map, map_map]
    have hidx : s.matched.filter ((fun r : MatchRow => decide (r.index < n)) ∘ f) =
        s.matched.filter fun r => r.index < n :=
      filter_congr fun r hr => by rcases hf r hr with h | h <;> simp [h]
    rw [hidx]
    refine map_congr_left fun r hr => ?_
    rcases hf r (mem_of_mem_filter hr) with h | ⟨h, htold⟩
    · simp [h]
    · -- an instant match was `valid` already
      cases hsettle : r.settlement with
      | coinpay => simp [h, hsettle]
      | instant =>
        have hsame : f r = r := by rw [h, ← htold.instant hsettle]
        simp [hsame, hsettle]
  unfold rollbackTo rederiveCoinpayMatchStatus at hrows ⊢
  dsimp only at hrows ⊢
  rw [hrows, hs]

variable {s : State}

theorem rollbackTo_next (h : Inv s) : rollbackTo s.next s = s := by
  have hm : s.matched.filter (fun r => r.index < s.next) = s.matched :=
    filter_eq_self.mpr fun r hr => decide_eq_true (h.matched_lt r hr)
  have hs : cut s.next s.statuses = s.statuses :=
    filter_eq_self.mpr fun x hx => decide_eq_true (h.statuses_lt x hx)
  have hrows : (rederiveCoinpayMatchStatus s).matched = s.matched := by
    rw [rederive_eq]
    refine (map_congr_left fun r hr => ?_).trans (map_id _)
    have htold := (h.told r hr).coinpay
    obtain ⟨idx, settlement, status⟩ := r
    cases settlement <;> cases status <;> simp_all
  unfold rollbackTo
  rw [hm, hs]
  exact congrArg (fun rows => { s with matched := rows }) hrows

theorem item_of_pending {idx : ℕ} (h : s.pending idx) : ∃ x ∈ s.statuses, x.item = idx := by
  obtain ⟨x, hx, hrow⟩ := any_eq_true.mp h
  simp only [Bool.and_eq_true, decide_eq_true_eq] at hrow
  exact ⟨x, hx, hrow.1.1⟩

theorem Told.append {rows : List (Row CoinpayStatus)} {r : MatchRow} (h : Told rows r)
    {action item : ℕ} {st : CoinpayStatus} (hst : st = .fulfilled → item ≠ r.index) :
    Told (rows ++ [⟨action, item, st⟩]) r := by
  refine ⟨h.instant, fun hc => (h.coinpay hc).trans ?_⟩
  rw [isPaid_append]
  by_cases hf : st = .fulfilled
  · simp [hst hf]
  · simp [hf]

variable {e : Event}

theorem inv_step (hstep : step s e = some s') (h : Inv s) : Inv s' := by
  -- A status row of the action about a known item.
  have hlog {item : ℕ} {st : CoinpayStatus} (hi : item < s.next + 1) {rows : List MatchRow}
      (hlt : ∀ r ∈ rows, r.index < s.next + 1)
      (htold : ∀ r ∈ rows, Told (s.statuses ++ [⟨s.next, item, st⟩]) r) :
      Inv ⟨rows, s.statuses ++ [⟨s.next, item, st⟩], s.next + 1⟩ := by
    refine ⟨hlt, ?_, ?_, htold⟩
    · exact forall_mem_append.mpr ⟨fun x hx => Nat.lt_succ_of_lt (h.statuses_lt x hx), by simp⟩
    · exact forall_mem_append.mpr ⟨fun x hx => Nat.lt_succ_of_lt (h.items_lt x hx), by simpa using Nat.le_of_lt_succ hi⟩
  have hlt : ∀ r ∈ s.matched, r.index < s.next + 1 := fun r hr => Nat.lt_succ_of_lt (h.matched_lt r hr)
  have hnew (settlement : SettlementType) :
      ∀ r ∈ s.matched ++ [matchRow s.next settlement], r.index < s.next + 1 :=
    forall_mem_append.mpr ⟨hlt, by simp [matchRow]⟩
  have hunpaid : isPaid s.statuses s.next = false := by
    simp only [isPaid, any_eq_false, Bool.and_eq_true, decide_eq_true_eq, not_and]
    exact fun x hx hi => absurd (h.items_lt x hx) (by omega)
  cases e with
  | orderMatch settlement =>
    obtain ⟨⟩ := hstep
    cases settlement with
    | instant =>
      refine ⟨hnew _, ?_, ?_, ?_⟩
      · simpa using fun x hx => Nat.lt_succ_of_lt (h.statuses_lt x hx)
      · simpa using fun x hx => Nat.lt_succ_of_lt (h.items_lt x hx)
      · refine forall_mem_append.mpr ⟨by simpa using h.told, ?_⟩
        exact forall_mem_singleton.mpr ⟨fun _ => rfl, by simp [matchRow]⟩
    | coinpay =>
      refine hlog (Nat.lt_succ_self _) (hnew _) (forall_mem_append.mpr ⟨?_, ?_⟩)
      · exact fun r hr => (h.told r hr).append (by simp)
      · refine forall_mem_singleton.mpr ⟨by simp [matchRow], fun _ => ?_⟩
        simp [matchRow, isPaid_append, hunpaid]
  | coinpay idx =>
    simp only [step] at hstep
    split_ifs at hstep with hp
    obtain ⟨⟩ := hstep
    obtain ⟨x, hx, rfl⟩ := item_of_pending hp
    refine hlog (Nat.lt_succ_of_lt (h.items_lt x hx)) ?_ ?_
    · refine forall_mem_map.mpr fun r hr => ?_
      unfold setStatus
      split_ifs <;> exact hlt r hr
    · refine forall_mem_map.mpr fun r hr => ?_
      unfold setStatus
      split_ifs with hr'
      · refine ⟨fun _ => rfl, fun _ => ?_⟩
        simp [isPaid_append, hr']
      · exact (h.told r hr).append fun _ => Ne.symm hr'
  | coinpayExpire idx =>
    simp only [step] at hstep
    split_ifs at hstep with hp
    obtain ⟨⟩ := hstep
    obtain ⟨x, hx, rfl⟩ := item_of_pending hp
    exact hlog (Nat.lt_succ_of_lt (h.items_lt x hx)) hlt fun r hr => (h.told r hr).append (by simp)
  | other =>
    obtain ⟨⟩ := hstep
    exact ⟨hlt, fun x hx => Nat.lt_succ_of_lt (h.statuses_lt x hx),
      fun x hx => Nat.lt_succ_of_lt (h.items_lt x hx), h.told⟩

theorem rollbackTo_step (hstep : step s e = some s') (h : Inv s)
    (hn : n ≤ s.next) : rollbackTo n s' = rollbackTo n s := by
  have hid : s.matched = s.matched.map id ++ [] := by simp
  cases e with
  | orderMatch settlement =>
    obtain ⟨⟩ := hstep
    refine rollbackTo_congr ?_ (show _ = s.matched.map id ++ [matchRow s.next settlement] by simp)
      (by simpa [matchRow] using hn) fun _ _ => Or.inl rfl
    cases settlement with
    | instant => simp
    | coinpay => exact cut_append n _ hn
  | coinpay idx =>
    simp only [step] at hstep
    split_ifs at hstep
    obtain ⟨⟩ := hstep
    refine rollbackTo_congr (cut_append n _ hn) (append_nil _).symm (by simp) fun r hr => ?_
    unfold setStatus
    split_ifs
    · exact .inr ⟨rfl, h.told r hr⟩
    · exact .inl rfl
  | coinpayExpire idx =>
    simp only [step] at hstep
    split_ifs at hstep
    obtain ⟨⟩ := hstep
    exact rollbackTo_congr (cut_append n _ hn) hid (by simp) fun _ _ => Or.inl rfl
  | other =>
    obtain ⟨⟩ := hstep
    exact rollbackTo_congr rfl hid (by simp) fun _ _ => Or.inl rfl

theorem undoes : Undoes step State.next rollbackTo Inv where
  one {s e s'} h := by
    cases e <;> simp only [step] at h <;> try split_ifs at h
    all_goals rw [← Option.some.inj h]
  kept := inv_step
  self := rollbackTo_next
  later := rollbackTo_step

theorem inv_init : Inv init := by
  constructor <;> simp [init]

/-! ### What can be paid -/

/-- The action with the index is a match in coin. -/
def Opened (es : List Event) (idx : ℕ) : Prop :=
  0 < idx ∧ es[idx - 1]? = some (.orderMatch .coinpay)

/-- The obligation is neither paid nor expired. -/
def Unresolved (es : List Event) (idx : ℕ) : Prop := .coinpay idx ∉ es ∧ .coinpayExpire idx ∉ es

theorem opened_append (es : List Event) (e : Event) (idx : ℕ) : Opened (es ++ [e]) idx ↔
    Opened es idx ∨ (idx = es.length + 1 ∧ e = .orderMatch .coinpay) := by
  unfold Opened
  grind

/-- After a run without rollbacks the pending obligations are those of the coin matches that nothing
has resolved. -/
theorem pending_iff {es : List Event} (hr : run step init es = some s) (idx : ℕ) :
    (s.pending idx ↔ Opened es idx ∧ Unresolved es idx) ∧ (¬ Unresolved es idx → idx < s.next) := by
  induction es using List.reverseRecOn generalizing s with
  | nil =>
    obtain ⟨⟩ := hr
    simp [State.pending, isHeld, init, Opened, Unresolved]
  | append_singleton es e ih =>
    rw [run_append, Option.bind_eq_some_iff] at hr
    obtain ⟨s', hs', he⟩ := hr
    obtain ⟨s'', hstep, hend⟩ := Option.bind_eq_some_iff.mp he
    obtain ⟨⟩ := hend
    obtain ⟨hpend, hlt⟩ := ih hs'
    obtain ⟨hinv, hlen, _⟩ := undoes.run_take inv_init hs'
    have hnext : s'.next = es.length + 1 := by rw [hlen]; exact Nat.add_comm _ _
    have happ := isHeld_append hinv.statuses_lt (fun st => decide (st = CoinpayStatus.pending))
    rw [opened_append]
    unfold Unresolved at hpend hlt ⊢
    unfold State.pending at hpend ⊢
    cases e with
    | orderMatch settlement =>
      obtain ⟨⟩ := hstep
      cases settlement <;> grind
    | coinpay i | coinpayExpire i =>
      simp only [step] at hstep
      split_ifs at hstep with hp
      obtain ⟨x, hx, rfl⟩ := item_of_pending hp
      have := hinv.items_lt x hx
      grind
    | other =>
      obtain ⟨⟩ := hstep
      grind

/-- **A rollback is a replay.** After any run of matches, payments, expiries, other actions and
rollbacks, the statuses are those of a run of the surviving actions alone; the obligations that can be
paid are the ones a surviving match opened and no surviving payment or expiry resolved. -/
theorem rollback_eq_replay {ms : List (Move Event)} {s : State}
    (hr : run (replay step State.next rollbackTo 1) init ms = some s) :
    run step init (surviving 1 ms) = some s ∧ ∀ idx, s.pending idx = true ↔
      Opened (surviving 1 ms) idx ∧ Unresolved (surviving 1 ms) idx := by
  have hrun : run step init (surviving 1 ms) = some s := undoes.run_surviving inv_init hr
  exact ⟨hrun, fun idx => (pending_iff hrun idx).1⟩

/-- A payment is orphaned: the match waits again, and its obligation can be paid. -/
theorem rollback_eq_replay_orphaned :
    run step init (surviving 1 [.event (.orderMatch .coinpay), .event (.coinpay 1), .rollback 2]) =
      some ⟨[⟨1, .coinpay, .pendingCoinpay⟩], [⟨1, 1, .pending⟩], 2⟩ :=
  (rollback_eq_replay (by decide)).1

end XChainIndexer.Orders.CoinpayRollback
