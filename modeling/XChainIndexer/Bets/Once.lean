import XChainIndexer.Bets.Pool
import XChainIndexer.Lib.Keyed
import XChainIndexer.Lib.Run

/-! # Every stake is paid out once

Main result: `stakes_paid_once`, over runs whose amounts are checked to be representable. Without the
check an amount off the tick's grid is floored away from the sum of the winners' stakes, and the
winners are credited more than was staked (`overpaid_pool`). -/

namespace XChainIndexer.Bets.Once

open Lib.Decimal Lib.Run Bcmath List
open Lib.Keyed (Below)
open IndexTables (Text)
open Tokens.Numerals Bets.Feeds Bets.Pool

variable {c : Ctx} {s s' : State} {f : Feed}

/-! ### Sums over a feed -/

/-- A feed that has not ended. -/
def live (f : Feed) : Prop := f.feed_status = .open ∨ f.feed_status = .closed

/-- What the open bets on a feed staked. -/
def openStake (c : Ctx) (s : State) (feed : ℕ) : ℚ := ((getOpenBetsByFeed s feed).map (value c)).sum

/-- What all valid bets on a feed staked. -/
def staked (c : Ctx) (s : State) (feed : ℕ) : ℚ :=
  ((s.bets.filter fun b => b.feed = feed ∧ b.bet_status ≠ .invalid).map (value c)).sum

/-- What records attribute to a feed. -/
def attributed (es : List Entry) (feed : ℕ) : ℚ :=
  ((es.filter (·.feed = feed)).map (·.amount)).sum

theorem attributed_append (es es' : List Entry) (feed : ℕ) :
    attributed (es ++ es') feed = attributed es feed + attributed es' feed := by
  unfold attributed
  rw [filter_append, map_append, sum_append]

variable {feed : ℕ} {es : List Entry}

theorem attributed_self (h : ∀ x ∈ es, x.feed = feed) : attributed es feed = (es.map (·.amount)).sum := by
  unfold attributed
  rw [filter_eq_self.mpr fun x hx => by simp [h x hx]]

theorem attributed_ne {feed' : ℕ} (h : ∀ x ∈ es, x.feed = feed)
    (hne : feed' ≠ feed) : attributed es feed' = 0 := by
  unfold attributed
  rw [filter_eq_nil_iff.mpr fun x hx => by simp [h x hx, hne.symm]]
  rfl

/-! ### The states of a run -/

/-- Every amount is checked to be representable when a bet is placed, and the balance check bounds
the open stakes on a feed by the largest supply of a token. -/
def Ok (c : Ctx) (s : State) : Event → Prop
  | .place blockTime _ feed _ amount other => c.representability blockTime = true ∧
      (other = none → openStake c s feed + c.js.bcnum amount ≤ 10 ^ 21)
  | _ => True

/-- An open bet sits on a live feed whose settlement can read it. -/
structure Backed (c : Ctx) (b : Bet) (f : Feed) : Prop where
  feed : f.action_index = b.feed
  live : live f
  onGrid : OnGrid (c.decimals f.tick) (value c b)
  pos : 0 < value c b
  outcome : b.outcome < f.outcomes
  fee : FeeOk c f

structure Good (c : Ctx) (s : State) : Prop where
  feeds_lt : ∀ f ∈ s.feeds, f.action_index < s.next
  feeds_nodup : (s.feeds.map (·.action_index)).Nodup
  bets_lt : ∀ b ∈ s.bets, b.action_index < s.next
  bets_nodup : (s.bets.map (·.action_index)).Nodup
  fees : ∀ f ∈ s.feeds, live f → FeeOk c f
  backed : ∀ b ∈ s.bets, b.bet_status = .open → ∃ f ∈ s.feeds, Backed c b f
  range : ∀ feed, openStake c s feed ≤ 10 ^ 21
  escrow : ∀ feed, attributed s.escrows feed = openStake c s feed
  credited : ∀ feed, attributed s.credits feed + openStake c s feed = staked c s feed
  credits_pos : ∀ x ∈ s.credits, 0 < x.amount
  paid_nodup : (s.credits.filterMap (·.bet)).Nodup
  paid_lt : ∀ i ∈ s.credits.filterMap (·.bet), i < s.next
  paid : ∀ b ∈ s.bets, b.action_index ∈ s.credits.filterMap (·.bet) → b.bet_status ≠ .open

/-! ### What a step can do -/

/-- A stake that passed the checks. -/
structure Accepted (c : Ctx) (s : State) (blockTime : ℕ) (f : Feed) (outcome : ℕ) (amount : Text) :
    Prop where
  mem : f ∈ s.feeds
  status : f.feed_status = .open
  outcome : outcome < f.outcomes
  format : isValidAmountFormat c.js (c.representability blockTime) (some (c.decimals f.tick)) amount = true
  pos : 0 < c.js.bcnum amount

/-- The endings a live feed can get. -/
def Ends (c : Ctx) (s : State) (f : Feed) (e : Ending) : Prop :=
  (∃ terminal : FeedStatus, (terminal ≠ .open ∧ terminal ≠ .closed ∧ terminal ≠ .invalid) ∧
    e = refundOpenBets c f (getOpenBetsByFeed s f.action_index) terminal) ∨
  ∃ winning, settleFeed c f winning (getOpenBetsByFeed s f.action_index) = some e

inductive Effect (c : Ctx) (s : State) : Event → State → Prop
  | idle {e : Event} {n : ℕ} (hn : s.next ≤ n) : Effect c s e { s with next := n }
  | created {e : Event} {g : Feed} (hg : g.action_index = s.next) (hfee : live g → FeeOk c g) :
      Effect c s e { s with next := s.next + 1, feeds := s.feeds ++ [g] }
  | rejected {e : Event} {b : Bet} (hb : b.action_index = s.next) (hs : b.bet_status = .invalid) :
      Effect c s e { s with next := s.next + 1, bets := s.bets ++ [b] }
  | placed {blockTime source outcome : ℕ} {amount : Text} {f : Feed}
      (h : Accepted c s blockTime f outcome amount) :
      Effect c s (.place blockTime source f.action_index outcome amount none)
        { s with
          next := s.next + 1
          bets := s.bets ++ [⟨s.next, f.action_index, source, outcome, amount, .open⟩]
          escrows := s.escrows ++
            [⟨f.action_index, some s.next, f.tick, c.js.bcnum amount, source⟩] }
  | latched {e : Event} {feed : ℕ} : Effect c s e { s with feeds := s.feeds.map fun g =>
      if g.action_index = feed ∧ g.feed_status = .open then { g with feed_status := .closed } else g }
  | ended {e : Event} {f : Feed} {ending : Ending} (hf : f ∈ s.feeds) (hl : live f)
      (h : Ends c s f ending) : Effect c s e (s.finish f ending)

theorem orElse_eq_none {x y : Option String} : orElse x y = none ↔ x = none ∧ y = none := by
  cases x <;> simp [orElse]

theorem mem_of_getBetFeedInfo (h : getBetFeedInfo s feed = some f) : f ∈ s.feeds ∧ f.action_index = feed :=
  ⟨mem_of_find?_eq_some h, by simpa using find?_some h⟩

theorem feeOk_of_validateFeedTerms (h : validateFeedTerms c f.fee = none) : FeeOk c f := by
  intro t ht
  rw [ht] at h
  unfold validateFeedTerms at h
  dsimp only at h
  split_ifs at h with h1 h2 h3
  push Not at h2
  exact h2

variable {source : ℕ}

theorem live_of_validateFeedState (h : validateFeedState source (some f) = none) : live f := by
  unfold validateFeedState at h
  dsimp only at h
  split_ifs at h with h1 h2
  by_contra hl
  exact h2 ⟨fun ho => hl (.inl ho), fun hc => hl (.inr hc)⟩

variable {amount : Text}

theorem effect_placeBet {blockTime outcome : ℕ} {other : Option String} :
    Effect c s (.place blockTime source feed outcome amount other)
      (placeBet c s blockTime source feed outcome amount other) := by
  unfold placeBet
  dsimp only
  split
  case h_1 f hf herr =>
    rw [hf, orElse_eq_none] at herr
    obtain ⟨hcheck, rfl⟩ := herr
    obtain ⟨hmem, rfl⟩ := mem_of_getBetFeedInfo hf
    unfold validatePlaceBet at hcheck
    dsimp only at hcheck
    split_ifs at hcheck with h1 h2 h3 h4 h5 h6 h7 h8
    exact .placed ⟨hmem, not_not.mp h1, not_le.mp h4, by simpa using h5, h6⟩
  case h_2 => exact .rejected rfl rfl

/-- **Every step is one of the effects.** -/
theorem effect_of_step {e : Event} (h : step c s e = some s') : Effect c s e s' := by
  cases e with
  | create source tick outcomes fee deadline expireAt minAmount other =>
    obtain ⟨⟩ := h
    refine .created rfl fun hl => ?_
    by_cases hcheck : orElse (validateFeedTerms c fee) other = none
    · exact feeOk_of_validateFeedTerms (orElse_eq_none.mp hcheck).1
    · simp [live, hcheck] at hl
  | place blockTime source feed outcome amount other =>
    obtain ⟨⟩ := h
    exact effect_placeBet
  | cancel source feed other =>
    unfold step at h
    dsimp only at h
    split at h
    case h_1 f hf herr =>
      rw [hf, orElse_eq_none] at herr
      obtain ⟨⟩ := h
      exact .ended (mem_of_getBetFeedInfo hf).1 (live_of_validateFeedState herr.1)
        (.inl ⟨.cancelled, ⟨nofun, nofun, nofun⟩, rfl⟩)
    case h_2 =>
      obtain ⟨⟩ := h
      exact .idle (Nat.le_succ _)
  | resolve blockTime source feed outcome other =>
    unfold step at h
    dsimp only at h
    split at h
    case h_1 =>
      obtain ⟨⟩ := h
      exact .idle (Nat.le_succ _)
    case h_2 f hf =>
      split_ifs at h with hcheck
      · rw [Option.isNone_iff_eq_none, orElse_eq_none] at hcheck
        obtain ⟨ending, hend, rfl⟩ := Option.map_eq_some_iff.mp h
        exact .ended (mem_of_getBetFeedInfo hf).1 (live_of_validateFeedState hcheck.1)
          (.inr ⟨outcome, hend⟩)
      · obtain ⟨⟩ := h
        exact .idle (Nat.le_succ _)
  | latch feed =>
    obtain ⟨⟩ := h
    exact .latched
  | expire feed =>
    unfold step at h
    dsimp only at h
    split at h
    case h_1 =>
      obtain ⟨⟩ := h
      exact .idle le_rfl
    case h_2 f hf =>
      split_ifs at h with hl
      · obtain ⟨⟩ := h
        exact .ended (mem_of_getBetFeedInfo hf).1 hl (.inl ⟨.expired, ⟨nofun, nofun, nofun⟩, rfl⟩)
      · obtain ⟨⟩ := h
        exact .idle le_rfl

/-! ### The sums after a step -/

section Sums

variable {b : Bet} {feed : ℕ} {t : State}

theorem openStake_append_of_eq (hb : b.feed = feed) (ho : b.bet_status = .open)
    (ht : t.bets = s.bets ++ [b]) : openStake c t feed = openStake c s feed + value c b := by
  unfold openStake getOpenBetsByFeed
  rw [ht]
  simp [hb, ho]

theorem openStake_append_of_ne (h : ¬ (b.feed = feed ∧ b.bet_status = .open))
    (ht : t.bets = s.bets ++ [b]) : openStake c t feed = openStake c s feed := by
  unfold openStake getOpenBetsByFeed
  rw [ht]
  simp [h]

theorem staked_append_of_eq (hb : b.feed = feed) (hi : b.bet_status ≠ .invalid)
    (ht : t.bets = s.bets ++ [b]) : staked c t feed = staked c s feed + value c b := by
  unfold staked
  rw [ht]
  simp [hb, hi]

theorem staked_append_of_ne (h : ¬ (b.feed = feed ∧ b.bet_status ≠ .invalid))
    (ht : t.bets = s.bets ++ [b]) : staked c t feed = staked c s feed := by
  unfold staked
  rw [ht]
  simp [h]

end Sums

/-- A bet as an ending leaves it. -/
def flipped (f : Feed) (e : Ending) (b : Bet) : Bet :=
  if b.feed = f.action_index ∧ b.bet_status = .open then { b with bet_status := e.flip b } else b

section Finish

variable {e : Ending} {b' : Bet}

theorem mem_bets_finish : b' ∈ (s.finish f e).bets ↔ ∃ b ∈ s.bets, flipped f e b = b' :=
  mem_map

variable (hflip : ∀ b, e.flip b ≠ .open ∧ e.flip b ≠ .invalid)
include hflip

variable {b : Bet}

theorem flipped_open : (flipped f e b).bet_status = .open ↔
    b.bet_status = .open ∧ b.feed ≠ f.action_index := by
  unfold flipped
  split_ifs with h
  · simp [(hflip b).1, h.1]
  · tauto

theorem flipped_of_open (h : (flipped f e b).bet_status = .open) : flipped f e b = b := by
  have hne := ((flipped_open hflip).mp h).2
  exact if_neg fun hb => hne hb.1

theorem flipped_invalid : (flipped f e b).bet_status = .invalid ↔ b.bet_status = .invalid := by
  unfold flipped
  split_ifs with h
  · simp [(hflip b).2, h.2]
  · rfl

omit hflip in
theorem flipped_rest (b : Bet) : (flipped f e b).action_index = b.action_index ∧
    (flipped f e b).feed = b.feed ∧ value c (flipped f e b) = value c b := by
  unfold flipped
  split_ifs <;> exact ⟨rfl, rfl, rfl⟩

omit hflip in
theorem sum_filter_flipped {p q : Bet → Prop} [DecidablePred p] [DecidablePred q]
    (h : ∀ b, p (flipped f e b) ↔ q b) (bets : List Bet) :
    (((bets.map (flipped f e)).filter p).map (value c)).sum = ((bets.filter q).map (value c)).sum := by
  have hfilter : bets.filter ((fun b => decide (p b)) ∘ flipped f e) = bets.filter q :=
    filter_congr fun b _ => decide_eq_decide.mpr (h b)
  rw [filter_map, map_map, hfilter]
  exact congrArg List.sum (map_congr_left fun b _ => (flipped_rest b).2.2)

theorem openStake_finish_self : openStake c (s.finish f e) f.action_index = 0 := by
  have hnone : ∀ b : Bet, ((flipped f e b).feed = f.action_index ∧
      (flipped f e b).bet_status = .open) ↔ False := fun b => by
    rw [flipped_open hflip, (flipped_rest (c := c) b).2.1]
    tauto
  refine (sum_filter_flipped hnone s.bets).trans ?_
  simp

variable {feed : ℕ}

theorem openStake_finish_ne (hne : feed ≠ f.action_index) :
    openStake c (s.finish f e) feed = openStake c s feed := by
  refine sum_filter_flipped (fun b => ?_) s.bets
  rw [flipped_open hflip, (flipped_rest (c := c) b).2.1]
  exact ⟨fun h => ⟨h.1, h.2.1⟩, fun h => ⟨h.1, h.2, h.1 ▸ hne⟩⟩

theorem staked_finish (feed : ℕ) : staked c (s.finish f e) feed = staked c s feed := by
  refine sum_filter_flipped (fun b => ?_) s.bets
  rw [ne_eq, flipped_invalid hflip, (flipped_rest (c := c) b).2.1]

end Finish

/-! ### The invariant is kept -/

namespace Good

variable {g : Feed}

theorem feed_eq (h : Good c s) (hf : f ∈ s.feeds) (hg : g ∈ s.feeds)
    (heq : g.action_index = f.action_index) : g = f :=
  inj_on_of_nodup_map h.feeds_nodup hg hf heq

variable {b : Bet}

theorem bet_eq (h : Good c s) (hb : b ∈ s.bets) (hb' : b' ∈ s.bets)
    (heq : b'.action_index = b.action_index) : b' = b :=
  inj_on_of_nodup_map h.bets_nodup hb' hb heq

theorem backed_of_mem (h : Good c s) (hf : f ∈ s.feeds)
    (hb : b ∈ getOpenBetsByFeed s f.action_index) : Backed c b f := by
  rw [getOpenBetsByFeed, mem_filter, decide_eq_true_eq] at hb
  obtain ⟨g, hg, hbacked⟩ := h.backed b hb.1 hb.2.2
  obtain rfl := h.feed_eq hf hg (hbacked.feed.trans hb.2.1)
  exact hbacked

theorem stakes (h : Good c s) (hf : f ∈ s.feeds) :
    Stakes c (c.decimals f.tick) (getOpenBetsByFeed s f.action_index) where
  decimals := c.decimals_le _
  onGrid _ hb := (h.backed_of_mem hf hb).onGrid
  pos _ hb := (h.backed_of_mem hf hb).pos
  range := (h.range f.action_index).trans_lt (by norm_num)

variable {e : Ending}

theorem balanced (h : Good c s) (hf : f ∈ s.feeds) (hl : live f) (he : Ends c s f e) :
    Balanced c f (getOpenBetsByFeed s f.action_index) e := by
  rcases he with ⟨terminal, ht, rfl⟩ | ⟨winning, he⟩
  · exact balanced_refundOpenBets (h.stakes hf) ht
  · exact balanced_settleFeed (h.stakes hf) (h.fees f hf hl) rfl he

/-- The settlement of a live feed finds every bet inside the feed's outcomes. -/
theorem settleFeed_isSome (h : Good c s) (hf : f ∈ s.feeds) (winning : ℕ) :
    (settleFeed c f winning (getOpenBetsByFeed s f.action_index)).isSome := by
  unfold settleFeed
  dsimp only
  rw [if_pos]
  · split_ifs <;> rfl
  · rw [all_eq_true]
    exact fun b hb => decide_eq_true (h.backed_of_mem hf hb).outcome

theorem init : Good c init where
  feeds_lt := nofun
  feeds_nodup := nodup_nil
  bets_lt := nofun
  bets_nodup := nodup_nil
  fees := nofun
  backed := nofun
  range _ := by norm_num [openStake, getOpenBetsByFeed, Feeds.init]
  escrow _ := rfl
  credited _ := by simp [attributed, openStake, getOpenBetsByFeed, staked, Feeds.init]
  credits_pos := nofun
  paid_nodup := nodup_nil
  paid_lt := nofun
  paid := nofun

variable (h : Good c s)
include h

theorem idle {n : ℕ} (hn : s.next ≤ n) : Good c { s with next := n } :=
  { h with
    feeds_lt := fun f hf => (h.feeds_lt f hf).trans_le hn
    bets_lt := fun b hb => (h.bets_lt b hb).trans_le hn
    paid_lt := fun i hi => (h.paid_lt i hi).trans_le hn }

theorem created (hg : g.action_index = s.next) (hfee : live g → FeeOk c g) :
    Good c { s with next := s.next + 1, feeds := s.feeds ++ [g] } :=
  { h with
    feeds_lt := (Below.append ⟨h.feeds_nodup, h.feeds_lt⟩ hg).lt
    feeds_nodup := (Below.append ⟨h.feeds_nodup, h.feeds_lt⟩ hg).nodup
    bets_lt := fun b hb => Nat.lt_succ_of_lt (h.bets_lt b hb)
    fees := fun f hf hl => by
      rcases mem_append.mp hf with hf | hf
      · exact h.fees f hf hl
      · obtain rfl := mem_singleton.mp hf
        exact hfee hl
    backed := fun b hb ho => by
      obtain ⟨f, hf, hbacked⟩ := h.backed b hb ho
      exact ⟨f, mem_append_left _ hf, hbacked⟩
    paid_lt := fun i hi => Nat.lt_succ_of_lt (h.paid_lt i hi) }

theorem bets_append (hb : b.action_index = s.next) :
    (∀ b' ∈ s.bets ++ [b], b'.action_index < s.next + 1) ∧ ((s.bets ++ [b]).map (·.action_index)).Nodup ∧
      ∀ b' ∈ s.bets ++ [b], b'.action_index ∈ s.credits.filterMap (·.bet) → b'.bet_status ≠ .open := by
  have hbelow : Below (·.action_index) (s.bets ++ [b]) (s.next + 1) :=
    Below.append ⟨h.bets_nodup, h.bets_lt⟩ hb
  refine ⟨hbelow.lt, hbelow.nodup, fun b' hb' hpaid => ?_⟩
  rcases mem_append.mp hb' with hb' | hb'
  · exact h.paid b' hb' hpaid
  · obtain rfl := mem_singleton.mp hb'
    exact absurd (h.paid_lt _ hpaid) (hb ▸ lt_irrefl _)

theorem rejected (hb : b.action_index = s.next) (hs : b.bet_status = .invalid) :
    Good c { s with next := s.next + 1, bets := s.bets ++ [b] } := by
  obtain ⟨hlt, hnodup, hpaid⟩ := h.bets_append hb
  have hopen : ∀ feed, openStake c { s with next := s.next + 1, bets := s.bets ++ [b] } feed =
      openStake c s feed :=
    fun feed => openStake_append_of_ne (by simp [hs]) rfl
  have hstaked : ∀ feed, staked c { s with next := s.next + 1, bets := s.bets ++ [b] } feed =
      staked c s feed :=
    fun feed => staked_append_of_ne (by simp [hs]) rfl
  exact { h with
      feeds_lt := fun f hf => Nat.lt_succ_of_lt (h.feeds_lt f hf)
      bets_lt := hlt
      bets_nodup := hnodup
      backed := fun b' hb' ho => by
        rcases mem_append.mp hb' with hb' | hb'
        · exact h.backed b' hb' ho
        · obtain rfl := mem_singleton.mp hb'
          exact absurd (hs.symm.trans ho) nofun
      range := fun feed => (hopen feed).trans_le (h.range feed)
      escrow := fun feed => (h.escrow feed).trans (hopen feed).symm
      credited := fun feed => by
        rw [hopen, hstaked]
        exact h.credited feed
      paid_lt := fun i hi => Nat.lt_succ_of_lt (h.paid_lt i hi)
      paid := hpaid }

theorem placed {blockTime source outcome : ℕ}
    (hok : Ok c s (.place blockTime source f.action_index outcome amount none))
    (ha : Accepted c s blockTime f outcome amount) :
    Good c { s with
      next := s.next + 1
      bets := s.bets ++ [⟨s.next, f.action_index, source, outcome, amount, .open⟩]
      escrows := s.escrows ++ [⟨f.action_index, some s.next, f.tick, c.js.bcnum amount, source⟩] } := by
  set b : Bet := ⟨s.next, f.action_index, source, outcome, amount, .open⟩ with hb
  set x : Entry := ⟨f.action_index, some s.next, f.tick, c.js.bcnum amount, source⟩ with hx
  set t : State := { s with next := s.next + 1, bets := s.bets ++ [b], escrows := s.escrows ++ [x] }
  obtain ⟨hlt, hnodup, hpaid⟩ := h.bets_append (b := b) rfl
  have hself : openStake c t f.action_index = openStake c s f.action_index + value c b :=
    openStake_append_of_eq rfl rfl rfl
  have hother : ∀ feed ≠ f.action_index, openStake c t feed = openStake c s feed :=
    fun feed hne => openStake_append_of_ne (fun hbf => hne hbf.1.symm) rfl
  have hformat := ha.format
  rw [hok.1] at hformat
  refine { h with
      feeds_lt := fun f hf => Nat.lt_succ_of_lt (h.feeds_lt f hf)
      bets_lt := hlt
      bets_nodup := hnodup
      backed := fun b' hb' ho => ?_
      range := fun feed => ?_
      escrow := fun feed => ?_
      credited := fun feed => ?_
      paid_lt := fun i hi => Nat.lt_succ_of_lt (h.paid_lt i hi)
      paid := hpaid }
  · rcases mem_append.mp hb' with hb' | hb'
    · exact h.backed b' hb' ho
    · obtain rfl := mem_singleton.mp hb'
      exact ⟨f, ha.mem, rfl, .inl ha.status, (fits_of_isValidAmountFormat hformat).1.1, ha.pos,
        ha.outcome, h.fees f ha.mem (.inl ha.status)⟩
  · by_cases hne : feed = f.action_index
    · rw [hne, hself]
      exact hok.2 rfl
    · exact (hother feed hne).trans_le (h.range feed)
  · change attributed (s.escrows ++ [x]) feed = openStake c t feed
    rw [attributed_append, h.escrow]
    by_cases hne : feed = f.action_index
    · rw [hne, hself, attributed_self (by simp [hx])]
      simp [hx, hb, value]
    · have hfeed : ∀ e ∈ [x], e.feed = f.action_index := by simp [hx]
      rw [hother feed hne, attributed_ne hfeed hne, add_zero]
  · change attributed s.credits feed + openStake c t feed = staked c t feed
    by_cases hne : feed = f.action_index
    · rw [hne, hself, staked_append_of_eq (b := b) rfl nofun rfl, ← h.credited, add_assoc]
    · rw [hother feed hne, staked_append_of_ne (fun hbf => hne hbf.1.symm) rfl]
      exact h.credited feed

theorem latched : Good c { s with feeds := s.feeds.map fun g =>
      if g.action_index = feed ∧ g.feed_status = .open then { g with feed_status := .closed } else g } := by
  set latch : Feed → Feed := fun g =>
    if g.action_index = feed ∧ g.feed_status = .open then { g with feed_status := .closed } else g
    with hlatch
  -- latching an open feed keeps it live and changes nothing else a check reads
  have hsame : ∀ g, (latch g).action_index = g.action_index ∧ (live (latch g) ↔ live g) ∧
      (FeeOk c g → FeeOk c (latch g)) ∧ ∀ b, Backed c b g → Backed c b (latch g) := by
    intro g
    simp only [hlatch]
    split_ifs with hg
    · have hl : live g := .inl hg.2
      have hl' : live { g with feed_status := .closed } := .inr rfl
      exact ⟨rfl, iff_of_true hl' hl, id, fun b hb => { hb with live := hl' }⟩
    · exact ⟨rfl, .rfl, id, fun _ => id⟩
  exact { h with
      feeds_lt := fun g' hg' => by
        obtain ⟨g, hg, rfl⟩ := mem_map.mp hg'
        exact (hsame g).1 ▸ h.feeds_lt g hg
      feeds_nodup := by
        refine (congrArg List.Nodup ?_).mpr h.feeds_nodup
        rw [map_map]
        exact map_congr_left fun g _ => (hsame g).1
      fees := fun g' hg' hl => by
        obtain ⟨g, hg, rfl⟩ := mem_map.mp hg'
        exact (hsame g).2.2.1 (h.fees g hg ((hsame g).2.1.mp hl))
      backed := fun b hb ho => by
        obtain ⟨g, hg, hbacked⟩ := h.backed b hb ho
        exact ⟨latch g, mem_map_of_mem hg, (hsame g).2.2.2 b hbacked⟩ }

section
variable (hbal : Balanced c f (getOpenBetsByFeed s f.action_index) e)
include hbal

theorem open_of_credited (hb : b ∈ s.bets) (hpaid : b.action_index ∈ e.credits.filterMap (·.bet)) :
    b.feed = f.action_index ∧ b.bet_status = .open := by
  obtain ⟨b', hb', heq⟩ := mem_map.mp (hbal.credits_bet.subset hpaid)
  rw [getOpenBetsByFeed, mem_filter, decide_eq_true_eq] at hb'
  obtain rfl := h.bet_eq hb hb'.1 heq
  exact hb'.2

theorem paid_nodup_finish : ((s.credits ++ e.credits).filterMap (·.bet)).Nodup := by
  rw [filterMap_append]
  refine h.paid_nodup.append ?_ fun i hi hi' => ?_
  · exact (h.bets_nodup.sublist (filter_sublist.map _)).sublist hbal.credits_bet
  · obtain ⟨b, hb, rfl⟩ := mem_map.mp (hbal.credits_bet.subset hi')
    exact h.paid b (mem_of_mem_filter hb) hi (h.open_of_credited hbal (mem_of_mem_filter hb) hi').2

theorem attributed_finish (feed : ℕ) :
    attributed (s.finish f e).escrows feed = openStake c (s.finish f e) feed ∧
      attributed (s.finish f e).credits feed + openStake c (s.finish f e) feed =
        staked c (s.finish f e) feed := by
  change attributed (s.escrows ++ e.escrows) feed = _ ∧ attributed (s.credits ++ e.credits) feed + _ = _
  rw [attributed_append, attributed_append, staked_finish hbal.flip, ← h.credited, h.escrow]
  by_cases hne : feed = f.action_index
  · rw [hne, openStake_finish_self hbal.flip, attributed_self hbal.escrows_feed,
      attributed_self hbal.credits_feed, hbal.escrows_sum, hbal.credits_sum]
    exact ⟨add_neg_cancel _, add_zero _⟩
  · rw [openStake_finish_ne hbal.flip hne, attributed_ne hbal.escrows_feed hne,
      attributed_ne hbal.credits_feed hne, add_zero, add_zero]
    exact ⟨rfl, rfl⟩

end

theorem ended (hf : f ∈ s.feeds) (hl : live f) {e : Ending} (he : Ends c s f e) : Good c (s.finish f e) := by
  have hbal := h.balanced hf hl he
  have hfeed : ∀ g : Feed, live (if g.action_index = f.action_index then
      { g with feed_status := e.status } else g) → g.action_index ≠ f.action_index := by
    intro g hlive heq
    rw [if_pos heq] at hlive
    exact hlive.elim hbal.terminal.1 hbal.terminal.2.1
  refine
    { feeds_lt := fun g' hg' => ?_
      feeds_nodup := ?_
      bets_lt := fun b' hb' => ?_
      bets_nodup := ?_
      fees := fun g' hg' hlive => ?_
      backed := fun b' hb' ho => ?_
      range := fun feed => ?_
      escrow := fun feed => (h.attributed_finish hbal feed).1
      credited := fun feed => (h.attributed_finish hbal feed).2
      credits_pos := fun x hx => (mem_append.mp hx).elim (h.credits_pos x) (hbal.credits_pos x)
      paid_nodup := h.paid_nodup_finish hbal
      paid_lt := fun i hi => ?_
      paid := fun b' hb' hpaid => ?_ }
  · obtain ⟨g, hg, rfl⟩ := mem_map.mp hg'
    have hlt := Nat.lt_succ_of_lt (h.feeds_lt g hg)
    split_ifs <;> exact hlt
  · refine (congrArg List.Nodup ?_).mpr h.feeds_nodup
    rw [State.finish, map_map]
    refine map_congr_left fun g _ => ?_
    rw [Function.comp_apply]
    split_ifs <;> rfl
  · obtain ⟨b, hb, rfl⟩ := mem_bets_finish.mp hb'
    rw [(flipped_rest (c := c) b).1]
    exact Nat.lt_succ_of_lt (h.bets_lt b hb)
  · refine (congrArg List.Nodup ?_).mpr h.bets_nodup
    rw [State.finish, map_map]
    exact map_congr_left fun b _ => (flipped_rest (c := c) b).1
  · obtain ⟨g, hg, rfl⟩ := mem_map.mp hg'
    have hne := hfeed g hlive
    rw [if_neg hne] at hlive ⊢
    exact h.fees g hg hlive
  · obtain ⟨b, hb, rfl⟩ := mem_bets_finish.mp hb'
    obtain ⟨hopen, hne⟩ := (flipped_open hbal.flip).mp ho
    obtain ⟨g, hg, hbacked⟩ := h.backed b hb hopen
    rw [flipped_of_open hbal.flip ho]
    refine ⟨g, ?_, hbacked⟩
    exact mem_map.mpr ⟨g, hg, if_neg (hbacked.feed ▸ hne)⟩
  · by_cases hne : feed = f.action_index
    · rw [hne, openStake_finish_self hbal.flip]
      norm_num
    · rw [openStake_finish_ne hbal.flip hne]
      exact h.range feed
  · rw [State.finish, filterMap_append, mem_append] at hi
    rcases hi with hi | hi
    · exact Nat.lt_succ_of_lt (h.paid_lt i hi)
    · obtain ⟨b, hb, rfl⟩ := mem_map.mp (hbal.credits_bet.subset hi)
      exact Nat.lt_succ_of_lt (h.bets_lt b (mem_of_mem_filter hb))
  · obtain ⟨b, hb, rfl⟩ := mem_bets_finish.mp hb'
    change (flipped f e b).action_index ∈ (s.credits ++ e.credits).filterMap (·.bet) at hpaid
    rw [ne_eq, flipped_open hbal.flip]
    rw [(flipped_rest (c := c) b).1, filterMap_append, mem_append] at hpaid
    rcases hpaid with hpaid | hpaid
    · exact fun ho => h.paid b hb hpaid ho.1
    · exact fun ho => ho.2 (h.open_of_credited hbal hb hpaid).1

theorem step {e : Event} (hok : Ok c s e) (hs : step c s e = some s') : Good c s' := by
  cases effect_of_step hs with
  | idle hn => exact h.idle hn
  | created hg hfee => exact h.created hg hfee
  | rejected hb hst => exact h.rejected hb hst
  | placed ha => exact h.placed hok ha
  | latched => exact h.latched
  | ended hf hl he => exact h.ended hf hl he

theorem openStake_eq_zero (hf : f ∈ s.feeds) (hl : ¬ live f) : openStake c s f.action_index = 0 := by
  have hnone : getOpenBetsByFeed s f.action_index = [] :=
    eq_nil_iff_forall_not_mem.mpr fun b hb => hl (h.backed_of_mem hf hb).live
  rw [openStake, hnone]
  rfl

theorem step_isSome (e : Event) : (Feeds.step c s e).isSome := by
  cases e with
  | create | place | latch => rfl
  | cancel source feed other =>
    unfold Feeds.step
    dsimp only
    split <;> rfl
  | resolve blockTime source feed outcome other =>
    unfold Feeds.step
    dsimp only
    split
    case h_1 => rfl
    case h_2 f hf =>
      split_ifs
      · rw [Option.isSome_map]
        exact h.settleFeed_isSome (mem_of_getBetFeedInfo hf).1 outcome
      · rfl
  | expire feed =>
    unfold Feeds.step
    dsimp only
    split
    · rfl
    · split_ifs <;> rfl

/-- **An ending credits what was staked.** A step that ends a live feed adds credits of exactly its
open stakes. -/
theorem credited_of_ended {e : Event} (hs : Feeds.step c s e = some s')
    (hf : f ∈ s.feeds) (hl : live f) {f' : Feed} (hf' : f' ∈ s'.feeds)
    (heq : f'.action_index = f.action_index) (hl' : ¬ live f') : attributed s'.credits f.action_index =
      attributed s.credits f.action_index + openStake c s f.action_index := by
  have hsame : f' ∉ s.feeds := fun hmem => hl' (h.feed_eq hf hmem heq ▸ hl)
  cases effect_of_step hs with
  | idle => exact absurd hf' hsame
  | rejected => exact absurd hf' hsame
  | placed => exact absurd hf' hsame
  | created hg =>
    rcases mem_append.mp hf' with hf' | hf'
    · exact absurd hf' hsame
    · obtain rfl := mem_singleton.mp hf'
      exact absurd (h.feeds_lt f hf) (heq ▸ hg ▸ lt_irrefl _)
  | latched =>
    obtain ⟨g, hg, rfl⟩ := mem_map.mp hf'
    split_ifs at hl' hsame with hopen
    · exact absurd (.inr rfl) hl'
    · exact absurd hg hsame
  | @ended _ g ending hgmem hgl he =>
    obtain ⟨g', hg', rfl⟩ := mem_map.mp hf'
    split_ifs at heq hl' hsame with hidx
    · obtain rfl := h.feed_eq hgmem hf (heq.symm.trans hidx)
      have hbal := h.balanced hgmem hgl he
      change attributed (s.credits ++ ending.credits) _ = _
      rw [attributed_append, attributed_self hbal.credits_feed, hbal.credits_sum]
      rfl
    · exact absurd hg' hsame

end Good

/-! ### Every run -/

theorem good_of_reaches (h : Reaches (step c) (Ok c) init s) : Good c s :=
  h.invariant Good.init fun _ _ _ hok hs hgood => hgood.step hok hs

/-- **Every stake is paid out once.** In every state of a run the escrow of a feed is what its open
bets staked, a feed that has ended has no escrow left and was credited all its stakes, every credit
is positive and no bet has two. No step halts, and one that ends a feed credits exactly its escrow
and leaves none. -/
theorem stakes_paid_once (c : Ctx) {s : State} (h : Reaches (step c) (Ok c) init s) :
    (∀ feed, attributed s.escrows feed = openStake c s feed) ∧
      (∀ f ∈ s.feeds, ¬ live f → attributed s.escrows f.action_index = 0 ∧
        attributed s.credits f.action_index = staked c s f.action_index) ∧
      (∀ x ∈ s.credits, 0 < x.amount) ∧ (s.credits.filterMap (·.bet)).Nodup ∧
      ∀ e, Ok c s e → ∃ s', step c s e = some s' ∧
        ∀ f ∈ s.feeds, live f → ∀ f' ∈ s'.feeds, f'.action_index = f.action_index → ¬ live f' →
          attributed s'.credits f.action_index =
            attributed s.credits f.action_index + attributed s.escrows f.action_index ∧
          attributed s'.escrows f.action_index = 0 := by
  have hgood := good_of_reaches h
  refine ⟨hgood.escrow, fun f hf hl => ?_, hgood.credits_pos, hgood.paid_nodup, fun e hok => ?_⟩
  · have hzero := hgood.openStake_eq_zero hf hl
    refine ⟨(hgood.escrow _).trans hzero, ?_⟩
    rw [← hgood.credited, hzero, add_zero]
  · obtain ⟨s', hs⟩ := Option.isSome_iff_exists.mp (hgood.step_isSome e)
    refine ⟨s', hs, fun f hf hl f' hf' heq hl' => ⟨?_, ?_⟩⟩
    · rw [hgood.escrow]
      exact hgood.credited_of_ended hs hf hl hf' heq hl'
    · have hgood' := hgood.step hok hs
      rw [hgood'.escrow, ← heq]
      exact hgood'.openStake_eq_zero hf' hl'

/-! ### Two feeds on an indivisible tick -/

/-- Readings that also take one exponent form. -/
def exponents : Js where
  number t := if t = ['1', '4', 'e', '-', '1'] then some (7 / 5) else number t
  parseInt := parseInt
  bcnum t := if t = ['1', '4', 'e', '-', '1'] then 7 / 5 else plainValue t
  exceedsUnsigned _ := false
  ticker := id
  number_undefined := by decide
  number_short t h := if_neg (by rintro rfl; exact absurd h (by decide))
  number_plain t h _ := by
    rw [if_neg (by rintro rfl; exact absurd h (by decide))]
    exact number_isSome_of_isPlainDecimal h
  parseInt_short := Js.literals.parseInt_short
  bcnum_plain t h _ := if_neg (by rintro rfl; exact absurd h (by decide))
  ticker_ticker := Js.literals.ticker_ticker

/-- An indivisible tick, with the representability rule active or not. -/
def indivisible (representability : Bool) : Ctx :=
  ⟨exponents, fun _ => 0, fun _ => by decide, fun _ => representability⟩

/-- A feed of address 1 with two outcomes, the bets, and its resolve. -/
def market (fee : Option Text) (stakes : List (ℕ × ℕ × Text)) : List Event :=
  .create 1 7 2 fee 100 200 none none ::
    (stakes.map fun b => .place 50 b.1 1 b.2.1 b.2.2 none) ++ [.resolve 150 1 1 0 none]

instance (c : Ctx) (s : State) (e : Event) : Decidable (Ok c s e) := by
  cases e <;> dsimp only [Ok] <;> infer_instance

/-- Three winners and a loser at a fee of 2.5%: the fee and the dust go to the oracle. -/
theorem stakes_paid_once_market : ∃ s,
    run (step (indivisible true)) init (market (some ['2', '.', '5'])
      [(2, 0, ['1']), (3, 0, ['1']), (4, 0, ['1']), (5, 1, ['9', '7'])]) = some s ∧
    s.credits.map (fun x => (x.address, x.amount)) = [(2, 32), (3, 32), (4, 32), (1, 4)] ∧
    (s.credits.filterMap (·.bet)).Nodup ∧ attributed s.escrows 1 = openStake (indivisible true) s 1 := by
  obtain ⟨s, hs, hcredits⟩ : ∃ s, run (fun s e => if Ok (indivisible true) s e then
      step (indivisible true) s e else none) init (market (some ['2', '.', '5'])
        [(2, 0, ['1']), (3, 0, ['1']), (4, 0, ['1']), (5, 1, ['9', '7'])]) = some s ∧
      s.credits.map (fun x => (x.address, x.amount)) = [(2, 32), (3, 32), (4, 32), (1, 4)] := by
    decide +kernel
  obtain ⟨hescrow, -, -, honce, -⟩ := stakes_paid_once (indivisible true)
    (Reaches.init.of_checked hs)
  exact ⟨s, run_of_checked hs, hcredits, honce, hescrow 1⟩

/-- **Winners credited more than was staked.** Without the representability rule five winners who
stake `14e-1` of an indivisible tick each count for 1 in the winning pool and for 1.4 in their share:
stakes of 107 are paid 145. -/
theorem overpaid_pool :
    (run (step (indivisible false)) init (market none
      [(2, 0, ['1', '4', 'e', '-', '1']), (3, 0, ['1', '4', 'e', '-', '1']),
        (4, 0, ['1', '4', 'e', '-', '1']), (5, 0, ['1', '4', 'e', '-', '1']),
        (6, 0, ['1', '4', 'e', '-', '1']), (7, 1, ['1', '0', '0'])])).map (fun s =>
      (s.feeds.map (·.feed_status), staked (indivisible false) s 1, attributed s.credits 1)) =
    some ([.resolved], 107, 145) := by
  decide +kernel

end XChainIndexer.Bets.Once
