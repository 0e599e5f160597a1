import XChainIndexer.CrossSettle.Accounts
import XChainIndexer.Lib.Run

/-! # What a stream of matches releases

Matches arrive in any order and any number of times, between creates, fills of this chain and closes.
Main result: `releases_covered`, for the runs that are `Ok`: the settlement bounds are active, a match
gives a token or an ownership, and amounts are of the tick's grid.

A match may name a coin as its GIVE side. The order it names locked nothing, the clamp measures its
fill against what the order has to give, and the release credits the ticker `null`
(`released_without_lock`). -/

namespace XChainIndexer.CrossSettle.Released

open Lib.Decimal Lib.Run Lib.SumOver Bcmath List CrossSettle.Legs CrossSettle.Proceeds CrossSettle.Accounts

variable {c : Ctx} {blk : Block} {s : State} {m : Match} {v : Answers} {leg : Leg} {o : Offer}

/-- An amount of the tick's grid, which the block's ledger rows keep to the last decimal. -/
def Writes (c : Ctx) (blk : Block) (tick : ℕ) (x : ℚ) : Prop :=
  0 ≤ x ∧ Fits (c.decimals tick) x ∧ c.decimals tick ≤ blk.writeScale (some tick)

/-! ### Rows -/

variable {x : ℚ} {tick : ℕ}

theorem release_releaseEscrow (htick : leg.giveTick = some tick) (hown : leg.giveOwnership = false)
    (hwrites : Writes c blk tick x) :
    Release s (releaseEscrow c blk s m leg x o) o.action_index (some m.match_id) x := by
  obtain ⟨h0, hx, hw⟩ := hwrites
  obtain ⟨hall, hsum⟩ := proceedsCredits_spec htick hx h0
  have hd := c.decimals_le tick
  unfold releaseEscrow
  rw [if_neg (by simp [hown])]
  refine ⟨⟨_, rfl, rfl, rfl, ?_⟩, ⟨_, rfl, fun e he => ?_, ?_⟩, rfl, h0⟩
  · rw [htick]
    exact bcadd_bcsub_zero hx hd (hd.trans (by norm_num)) hw
  · obtain ⟨q, -, rfl⟩ := mem_map.mp he
    exact ⟨rfl, rfl⟩
  · rw [map_map]
    refine (congrArg List.sum (map_congr_left fun q hq => ?_)).trans hsum
    change bcadd q.1 0 (blk.writeScale leg.giveTick) = q.1
    rw [htick, bcadd_zero (hall q hq).2 hd hw]

theorem not_gives (h : o.give_tick = none ∨ o.give_ownership) (tick : ℕ) : ¬ Gives o tick := by
  rintro ⟨ht, hown⟩
  rcases h with h | h
  · rw [ht] at h
    cases h
  · rw [hown] at h
    cases h

theorem gives_of_not (h : ¬ (o.give_tick = none ∨ o.give_ownership)) : ∃ tick, Gives o tick := by
  rw [not_or] at h
  obtain ⟨tick, ht⟩ := Option.ne_none_iff_exists'.mp h.1
  exact ⟨tick, ht, by simpa using h.2⟩

theorem release_giveBack (dest : ℕ) (hg : Gives o tick) (hwrites : Writes c blk tick x) :
    Release s (giveBack blk s o x dest) o.action_index none x := by
  obtain ⟨h0, hx, hw⟩ := hwrites
  have hd := c.decimals_le tick
  unfold giveBack
  rw [if_neg (fun h => not_gives h tick hg)]
  refine ⟨⟨_, rfl, rfl, rfl, ?_⟩, ⟨_, rfl, by simp, ?_⟩, rfl, h0⟩
  · rw [hg.1]
    exact bcadd_bcsub_zero hx hd (hd.trans (by norm_num)) hw
  · rw [map_singleton, sum_singleton, hg.1]
    exact bcadd_zero hx hd hw

theorem settled_record_of_new (idx : ℕ) (retired : Bool) (h : m.match_id ∉ settled s) :
    settled (record s m idx retired) = settled s ++ [m.match_id] := by
  unfold record settled
  rw [if_neg, map_append]
  · rfl
  · intro hany
    obtain ⟨r, hr, hid⟩ := any_eq_true.mp hany
    exact h (mem_map.mpr ⟨r, hr, by simpa using hid⟩)

/-! ### One match -/

/-- No token moves: at most a settlement row is written. -/
structure Quiet (s s' : State) (id : ℕ) : Prop where
  offers : s'.offers = s.offers
  fills : s'.fills = s.fills
  escrows : s'.escrows = s.escrows
  credits : s'.credits = s.credits
  transfers : s'.transfers = s.transfers
  next : s.next ≤ s'.next
  settled : settled s' = settled s ∨ settled s' = settled s ++ [id]

/-- The match can be honoured out of the offer `o`: a quorum signed it, the offer is open, agrees with
the match, and as an order of a balance still has something to give. -/
structure Honoured (c : Ctx) (blk : Block) (s : State) (m : Match) (v : Answers) (leg : Leg)
    (o : Offer) : Prop where
  network : v.onNetwork = true
  quorum : v.quorum = .met
  resolved : resolveLocalLeg c m = some leg
  undismissed : ∀ entry, s.dismissed.find? (·.1 = m.match_id) = some entry → blk.index ≤ entry.2
  info : localInfo s leg = some o
  isOpen : o.status = .open
  agrees : mismatchesOffer c blk leg o = false
  remains : leg.localKind = .order → leg.giveOwnership = false → 0 < (remaining s o).1

section
variable (s : State) (ds : List (ℕ × ℕ))

theorem quiet_dismissed (id : ℕ) : Quiet s { s with dismissed := ds } id :=
  ⟨rfl, rfl, rfl, rfl, rfl, le_rfl, .inl rfl⟩

theorem quiet_record (m : Match) (idx : ℕ) (retired : Bool) :
    Quiet s (record { s with dismissed := ds } m idx retired) m.match_id := by
  refine ⟨rfl, rfl, rfl, rfl, rfl, Nat.le_succ _, ?_⟩
  unfold record settled
  split_ifs
  · exact .inl rfl
  · exact .inr (by simp)

theorem quiet_retire (m : Match) (leg : Leg) (v : Answers) :
    Quiet s ((retireUnapplicableMatch { s with dismissed := ds } m leg v).getD
      { s with dismissed := ds }) m.match_id := by
  unfold retireUnapplicableMatch
  split_ifs
  · exact quiet_record s ds m _ _
  · exact quiet_dismissed s ds _

end

theorem probeLocalLeg_spec (blk : Block) (s : State) (m : Match) (leg : Leg) :
    ∃ ds, (probeLocalLeg blk s m leg).1 = { s with dismissed := ds } ∧
      ((probeLocalLeg blk s m leg).2 = none ∨ (probeLocalLeg blk s m leg).2 = some (localInfo s leg) ∧
        ∀ entry, s.dismissed.find? (·.1 = m.match_id) = some entry → blk.index ≤ entry.2) := by
  have hprobe : ∀ ds', ∃ ds,
      (probeLocalLeg.probe blk m leg { s with dismissed := ds' }).1 = { s with dismissed := ds } ∧
        ((probeLocalLeg.probe blk m leg { s with dismissed := ds' }).2 = none ∨
          (probeLocalLeg.probe blk m leg { s with dismissed := ds' }).2 = some (localInfo s leg)) := by
    intro ds'
    have hinfo : localInfo { s with dismissed := ds' } leg = localInfo s leg := rfl
    unfold probeLocalLeg.probe
    rw [hinfo]
    cases localInfo s leg with
    | some o => exact ⟨ds', rfl, .inr rfl⟩
    | none =>
      split_ifs
      · exact ⟨_, rfl, .inl rfl⟩
      · exact ⟨ds', rfl, .inr rfl⟩
  unfold probeLocalLeg
  cases hfind : s.dismissed.find? (·.1 = m.match_id) with
  | none =>
    obtain ⟨ds, h1, h2⟩ := hprobe s.dismissed
    exact ⟨ds, h1, h2.imp_right fun h => ⟨h, fun entry he => by cases he⟩⟩
  | some entry =>
    dsimp only
    split_ifs with hlt
    · exact ⟨s.dismissed, rfl, .inl rfl⟩
    · obtain ⟨ds, h1, h2⟩ := hprobe (s.dismissed.filter (·.1 ≠ m.match_id))
      refine ⟨ds, h1, h2.imp_right fun h => ⟨h, fun entry' he => ?_⟩⟩
      cases he
      exact not_lt.mp hlt

def swapSettled (c : Ctx) (blk : Block) (s : State) (m : Match) (leg : Leg) (o : Offer) : State :=
  record (setStatus (releaseEscrow c blk s m leg (clampSwapReleaseToEscrow blk leg o) o)
    o.action_index .complete) m leg.localActionIndex false

/-- **What one match does.** It moves no token, or it can be honoured and settles its leg. -/
theorem parse_cases (c : Ctx) (blk : Block) (s : State) (m : Match) (v : Answers) :
    Quiet s (parse c blk s m v) m.match_id ∨ ∃ leg o ds, Honoured c blk s m v leg o ∧
      (leg.localKind = .swap ∧ parse c blk s m v = swapSettled c blk { s with dismissed := ds } m leg o ∨
        leg.localKind = .order ∧ ∃ x, clampFillToEscrow s leg o = some x ∧
          parse c blk s m v = applyOrderFill c blk { s with dismissed := ds } m leg o x) := by
  unfold parse
  by_cases hnet : v.onNetwork
  swap
  · rw [if_pos (by simpa using hnet)]
    exact .inl (quiet_dismissed s s.dismissed _)
  rw [if_neg (by simp [hnet])]
  cases hleg : resolveLocalLeg c m with
  | none => exact .inl (quiet_dismissed s s.dismissed _)
  | some leg =>
    obtain ⟨ds, h1, h2⟩ := probeLocalLeg_spec blk s m leg
    dsimp only
    rcases hp : probeLocalLeg blk s m leg with ⟨s1, answer⟩
    rw [hp] at h1 h2
    subst h1
    rcases h2 with rfl | ⟨rfl, hun⟩
    · exact .inl (quiet_retire s ds m leg v)
    dsimp only
    by_cases hq : v.quorum = .met
    swap
    · rw [if_pos hq]
      split_ifs
      · exact .inl (quiet_retire s ds m leg v)
      · exact .inl (quiet_dismissed s ds _)
    rw [if_neg (not_not.mpr hq)]
    cases hinfo : localInfo s leg with
    | none =>
      left
      unfold retireUnapplicableMatch
      split_ifs
      · exact quiet_record s ds m _ _
      · cases leg.localKind <;> exact quiet_dismissed s ds _
    | some o =>
      cases hkind : leg.localKind with
      | swap =>
        dsimp only [settleSwapLeg]
        split_ifs with hopen hmis
        · exact .inl (quiet_record s ds m _ _)
        · exact .inl (quiet_record s ds m _ _)
        · exact .inr ⟨leg, o, ds, ⟨hnet, hq, hleg, hun, hinfo, not_not.mp hopen, by simpa using hmis,
            fun h => by rw [hkind] at h; cases h⟩, .inl ⟨hkind, rfl⟩⟩
      | order =>
        dsimp only [settleOrderLeg]
        split_ifs with hopen hmis
        · exact .inl (quiet_record s ds m _ _)
        · exact .inl (quiet_record s ds m _ _)
        · have hclamp : clampFillToEscrow { s with dismissed := ds } leg o = clampFillToEscrow s leg o :=
            rfl
          rw [hclamp]
          cases hx : clampFillToEscrow s leg o with
          | none => exact .inl (quiet_record s ds m _ _)
          | some x =>
            refine .inr ⟨leg, o, ds, ⟨hnet, hq, hleg, hun, hinfo, not_not.mp hopen, by simpa using hmis,
              fun _ hown => ?_⟩, .inr ⟨hkind, x, hx, rfl⟩⟩
            by_contra hle
            unfold clampFillToEscrow at hx
            rw [if_neg (by simp [hown]), if_pos (not_lt.mp hle)] at hx
            cases hx

/-! ### Steps -/

structure Good (c : Ctx) (s : State) : Prop where
  book : Book c s
  once : Settled s

/-- The leg gives an ownership, or an amount of a token's grid. -/
def LegOk (c : Ctx) (blk : Block) (leg : Leg) : Prop :=
  leg.giveOwnership = true ∨ ∃ tick, leg.giveTick = some tick ∧ tick ≠ c.coinTick ∧
    Writes c blk tick leg.giveAmount

variable {s' : State}

theorem Good.quiet (h : Good c s) (hq : Quiet s s' m.match_id) (hnew : m.match_id ∉ settled s) :
    Good c s' := by
  refine ⟨h.book.congr hq.offers hq.fills hq.escrows hq.credits hq.next, ?_⟩
  have ht : s'.transfers.map (·.settles) = s.transfers.map (·.settles) ++ [] := by
    rw [hq.transfers, append_nil]
  rcases hq.settled with hids | hids
  · exact h.once.unmoved (hids.trans (append_nil _).symm) nodup_nil (by simp) hq.escrows
      hq.credits ht (List.Sublist.refl _)
  · exact h.once.unmoved hids (nodup_singleton _) (by simpa using hnew) hq.escrows hq.credits ht
      (nil_sublist _)

/-- Only ledger rows are written. -/
structure Paid (s r : State) : Prop where
  offers : r.offers = s.offers
  fills : r.fills = s.fills
  settlements : r.settlements = s.settlements
  next : r.next = s.next

theorem paid_releaseEscrow : Paid s (releaseEscrow c blk s m leg x o) := by
  unfold releaseEscrow
  split_ifs <;> exact ⟨rfl, rfl, rfl, rfl⟩

section
variable (h : Good c s) (hb : blk.settlementBounds) (ho : o ∈ s.offers) (hopen : o.status = .open)
include h hb ho hopen

/-- **A settled leg keeps the accounts.** `s'` has the rows of the release, the row of the settlement,
and the offer changed. -/
theorem Good.settle (hagree : mismatchesOffer c blk leg o = false)
    (hnew : m.match_id ∉ settled s) (he : s'.escrows = (releaseEscrow c blk s m leg x o).escrows)
    (hc : s'.credits = (releaseEscrow c blk s m leg x o).credits)
    (ht : s'.transfers = (releaseEscrow c blk s m leg x o).transfers)
    (hids : settled s' = settled s ++ [m.match_id]) (hown : leg.giveOwnership → ∃ y, Touches s s' o y)
    (htoken : ∀ tick, leg.giveOwnership = false → Gives o tick → Writes c blk tick leg.giveAmount →
      Writes c blk tick x ∧ x ≤ heldBack s o ∧ Touches s s' o x) (hok : LegOk c blk leg) : Good c s' := by
  obtain ⟨htick, hsame⟩ : leg.giveTick.getD c.coinTick = o.give_tick.getD c.coinTick ∧
      leg.giveOwnership = o.give_ownership := by
    simpa [mismatchesOffer, hb] using hagree
  cases hflag : leg.giveOwnership with
  | true =>
    obtain ⟨y, htouch⟩ := hown hflag
    rw [releaseEscrow, if_pos hflag] at he hc ht
    refine ⟨h.book.unmoved ho htouch (not_gives (.inr (hsame ▸ hflag))) he hc, ?_⟩
    exact h.once.unmoved hids (nodup_singleton _) (by simpa using hnew) he hc (ht ▸ by simp)
      (List.Sublist.refl _)
  | false =>
    obtain hno | ⟨tick, hleg, hcoin, hgrid⟩ := hok
    · rw [hflag] at hno
      cases hno
    have hgive : o.give_tick = some tick := by
      rw [hleg] at htick
      cases hgive : o.give_tick with
      | none =>
        rw [hgive] at htick
        exact (hcoin htick).elim
      | some t =>
        rw [hgive] at htick
        exact congrArg some htick.symm
    have hg : Gives o tick := ⟨hgive, hsame ▸ hflag⟩
    obtain ⟨hwrites, hle, htouch⟩ := htoken tick hflag hg hgrid
    have hr := release_releaseEscrow (s := s) (m := m) (o := o) hleg hflag hwrites
    have hr' : Release s s' o.action_index (some m.match_id) x :=
      ⟨he ▸ hr.escrows, hc ▸ hr.credits, ht.trans hr.transfers, hr.nonneg⟩
    exact ⟨h.book.release ho hopen htouch hr' hg hwrites.2.1 hle,
      h.once.release hr' hids (by simpa using hnew)⟩

theorem Good.swap (hkind : o.kind = .swap)
    (hagree : mismatchesOffer c blk leg o = false) (hnew : m.match_id ∉ settled s) (hok : LegOk c blk leg) :
    Good c (swapSettled c blk s m leg o) ∧
      settled (swapSettled c blk s m leg o) = settled s ++ [m.match_id] := by
  obtain ⟨hoffers, hfills, hsettled, hnext⟩ : Paid s (releaseEscrow c blk s m leg _ o) :=
    paid_releaseEscrow
  have hids : settled (swapSettled c blk s m leg o) = settled s ++ [m.match_id] := by
    have hin : settled (setStatus (releaseEscrow c blk s m leg (clampSwapReleaseToEscrow blk leg o) o)
        o.action_index .complete) = settled s := by
      unfold settled setStatus
      rw [hsettled]
    unfold swapSettled
    rw [settled_record_of_new _ _ (hin ▸ hnew), hin]
  have htouch : ∀ y, Touches s (swapSettled c blk s m leg o) o y := fun y => by
    refine touches_of_fills h.book.nodup ho (hfills.trans (append_nil _).symm) (by simp)
      (.inr ⟨.complete, by decide, ?_⟩) (hnext ▸ Nat.le_succ _)
    unfold swapSettled record setStatus
    rw [hoffers]
  refine ⟨h.settle hb ho hopen hagree hnew rfl rfl rfl hids (fun _ => ⟨0, htouch 0⟩)
    (fun tick hflag hg hwrites => ?_) hok, hids⟩
  have ha := (h.book.accounted o ho).1 tick hg
  have hback : heldBack s o = o.give_amount := by unfold heldBack; rw [hkind]
  -- the release is the smaller of the match's amount and the swap's
  unfold clampSwapReleaseToEscrow
  rw [if_neg (by simp [hflag, hb]), hback]
  split_ifs with hlt
  · exact ⟨⟨ha.amount0, ha.amount, hwrites.2.2⟩, le_rfl, htouch _⟩
  · exact ⟨hwrites, not_lt.mp hlt, htouch _⟩

end

variable {f : Fill}

theorem heldBack_fill (hkind : o.kind = .order) (hfs : s'.fills = s.fills ++ [f])
    (hf : f.order = o.action_index) : heldBack s' o = bcsub (heldBack s o) f.give_amount 64 := by
  unfold heldBack remaining
  rw [hkind, hfs]
  simp [hf]

/-- A fill after the payments of it, which may complete the offer. -/
theorem filled_spec {r : State} (p : Prop) [Decidable p] (h : Book c s) (ho : o ∈ s.offers)
    (hr : Paid s r) (hf : f.order = o.action_index) :
    let t : State := { r with fills := r.fills ++ [f] }
    let u := if p then setStatus t o.action_index .complete else t
    u.escrows = r.escrows ∧ u.credits = r.credits ∧ u.transfers = r.transfers ∧ settled u = settled s ∧
      u.next = s.next ∧ t.fills = s.fills ++ [f] ∧
      ∀ s' y, s'.offers = u.offers → s'.fills = u.fills → s.next ≤ s'.next →
        p ∨ heldBack t o = heldBack s o - y → Touches s s' o y := by
  intro t u
  have hfills : t.fills = s.fills ++ [f] := congrArg (· ++ [f]) hr.fills
  have hids : settled t = settled s := congrArg (List.map _) hr.settlements
  unfold u
  split_ifs with hp
  · refine ⟨rfl, rfl, rfl, hids, hr.next, hfills, fun s' y hoffers hs' hnext _ => ?_⟩
    exact touches_of_fills h.nodup ho (hs'.trans hfills) (by simp [hf])
      (.inr ⟨.complete, by decide, hoffers.trans (congrArg (List.map _) hr.offers)⟩) hnext
  · refine ⟨rfl, rfl, rfl, hids, hr.next, hfills, fun s' y hoffers hs' hnext hy => ?_⟩
    have hback : heldBack s' o = heldBack t o := by unfold heldBack remaining; rw [hs']
    exact touches_of_fills h.nodup ho (hs'.trans hfills) (by simp [hf])
      (.inl ⟨hoffers.trans hr.offers, hback.trans (hy.resolve_left hp)⟩) hnext

theorem Good.orderFill (h : Good c s) (hb : blk.settlementBounds) (ho : o ∈ s.offers)
    (hopen : o.status = .open) (hkind : o.kind = .order)
    (hagree : mismatchesOffer c blk leg o = false) (hnew : m.match_id ∉ settled s)
    (hok : LegOk c blk leg) (hx : clampFillToEscrow s leg o = some x) :
    Good c (applyOrderFill c blk s m leg o x) ∧
      settled (applyOrderFill c blk s m leg o x) = settled s ++ [m.match_id] := by
  set r := releaseEscrow c blk s m leg x o with hr
  set f : Fill := ⟨r.next, o.action_index, x, leg.getAmount⟩ with hf
  set t : State := { r with fills := r.fills ++ [f] } with ht
  obtain ⟨hue, huc, hutr, hus, hun, hfills, hfill⟩ := filled_spec (f := f)
    (leg.giveOwnership ∨ (remaining t o).1 ≤ 0) h.book ho (paid_releaseEscrow) rfl
  set u : State := if leg.giveOwnership = true ∨ (remaining t o).1 ≤ 0 then
    setStatus t o.action_index .complete else t with hu
  have hids : settled (record u m leg.localActionIndex false) = settled s ++ [m.match_id] := by
    rw [settled_record_of_new _ _ (hus ▸ hnew), hus]
  have htouch := fun y => hfill (record u m leg.localActionIndex false) y rfl rfl (hun ▸ Nat.le_succ _)
  refine ⟨h.settle hb ho hopen hagree hnew hue huc hutr hids
    (fun hflag => ⟨0, htouch 0 (.inl (.inl hflag))⟩) (fun tick hflag hg hwrites => ?_) hok, hids⟩
  have ha := (h.book.accounted o ho).1 tick hg
  have hrem : heldBack s o = (remaining s o).1 := by unfold heldBack; rw [hkind]
  have hfitsRem : Fits (c.decimals tick) (remaining s o).1 := by
    rw [← hrem, ← ha.held_open hopen]
    exact ha.fits
  -- the release is the smaller of the match's fill and what the order still has
  have hspec : Writes c blk tick x ∧ x ≤ (remaining s o).1 := by
    unfold clampFillToEscrow at hx
    rw [if_neg (by simp [hflag])] at hx
    split_ifs at hx with hnone hlt
    · cases hx
      exact ⟨⟨(not_le.mp hnone).le, hfitsRem, hwrites.2.2⟩, le_rfl⟩
    · cases hx
      exact ⟨hwrites, not_lt.mp hlt⟩
  refine ⟨hspec.1, hrem ▸ hspec.2, htouch x (.inr ?_)⟩
  rw [heldBack_fill hkind hfills rfl, hrem]
  have hd := c.decimals_le tick
  exact bcsub_of_fits hfitsRem hspec.1.2.1 hd (hd.trans (by norm_num))

theorem localInfo_spec (h : localInfo s leg = some o) : o ∈ s.offers ∧ o.kind = leg.localKind := by
  have hp := find?_some h
  simp only [Bool.and_eq_true, decide_eq_true_eq] at hp
  exact ⟨mem_of_find?_eq_some h, hp.1.2⟩

/-- The local leg of the match gives an ownership, or an amount of a token's grid. -/
def MatchOk (c : Ctx) (blk : Block) (m : Match) : Prop :=
  ∀ leg, resolveLocalLeg c m = some leg → LegOk c blk leg

theorem Good.parse (h : Good c s) (hb : blk.settlementBounds) (hok : MatchOk c blk m)
    (hnew : m.match_id ∉ settled s) : Good c (parse c blk s m v) ∧ (settled (parse c blk s m v) = settled s ∨
      settled (parse c blk s m v) = settled s ++ [m.match_id]) := by
  rcases parse_cases c blk s m v with hq | ⟨leg, o, ds, hh, hcase⟩
  · exact ⟨h.quiet hq hnew, hq.settled⟩
  have hds : Good c { s with dismissed := ds } := h.quiet (quiet_dismissed s ds m.match_id) hnew
  obtain ⟨ho, hkind⟩ := localInfo_spec hh.info
  have hleg := hok leg hh.resolved
  rcases hcase with ⟨hk, heq⟩ | ⟨hk, x, hx, heq⟩
  · rw [heq]
    obtain ⟨hgood, hids⟩ := hds.swap hb ho hh.isOpen (hkind.trans hk) hh.agrees hnew hleg
    exact ⟨hgood, .inr hids⟩
  · rw [heq]
    obtain ⟨hgood, hids⟩ := hds.orderFill hb ho hh.isOpen (hkind.trans hk) hh.agrees hnew hleg hx
    exact ⟨hgood, .inr hids⟩

/-- **A pass.** Its matches are distinct and without a row; each keeps that of the ones after it. -/
theorem Good.pass (hb : blk.settlementBounds)
    {rows : List (Match × Answers)} (hnd : (rows.map (·.1.match_id)).Nodup)
    (hok : ∀ r ∈ rows, MatchOk c blk r.1) (hnew : ∀ r ∈ rows, r.1.match_id ∉ settled s) (h : Good c s) :
    Good c (rows.foldl (fun s r => Legs.parse c blk s r.1 r.2) s) := by
  induction rows generalizing s with
  | nil => exact h
  | cons r rows ih =>
    rw [map_cons, nodup_cons] at hnd
    obtain ⟨hgood, hids⟩ := h.parse hb (hok r (by simp)) (hnew r (by simp))
    refine ih hnd.2 (fun r' hr' => hok r' (by simp [hr'])) (fun r' hr' hmem => ?_) hgood
    rcases hids with hids | hids
    · exact hnew r' (by simp [hr']) (hids ▸ hmem)
    · rw [hids, mem_append, mem_singleton] at hmem
      rcases hmem with hmem | heq
      · exact hnew r' (by simp [hr']) hmem
      · exact hnd.1 (mem_map.mpr ⟨r', hr', heq⟩)

variable {dest : ℕ}

/-- A step of this chain: the offer is changed and gives something back, or has no rows. -/
theorem Good.local (h : Good c s) (ho : o ∈ s.offers) (hopen : o.status = .open)
    (he : s'.escrows = (giveBack blk s o x dest).escrows)
    (hc : s'.credits = (giveBack blk s o x dest).credits)
    (ht : s'.transfers = (giveBack blk s o x dest).transfers)
    (hids : settled s' = settled s) (hother : (∀ tick, ¬ Gives o tick) → ∃ y, Touches s s' o y)
    (htoken : ∀ tick, Gives o tick → Writes c blk tick x ∧ x ≤ heldBack s o ∧ Touches s s' o x) :
    Good c s' := by
  have hids' : settled s' = settled s ++ [] := hids.trans (append_nil _).symm
  by_cases hno : o.give_tick = none ∨ o.give_ownership
  · obtain ⟨y, htouch⟩ := hother (not_gives hno)
    have hsame : giveBack blk s o x dest = s := by unfold giveBack; rw [if_pos hno]
    rw [hsame] at he hc ht
    exact ⟨h.book.unmoved ho htouch (not_gives hno) he hc, h.once.unmoved hids' nodup_nil (by simp)
      he hc (by rw [ht, append_nil]) (List.Sublist.refl _)⟩
  · obtain ⟨tick, hg⟩ := gives_of_not hno
    obtain ⟨hwrites, hle, htouch⟩ := htoken tick hg
    have hr := release_giveBack (s := s) dest hg hwrites
    have hr' : Release s s' o.action_index none x := ⟨he ▸ hr.escrows, hc ▸ hr.credits, ht.trans hr.transfers, hr.nonneg⟩
    exact ⟨h.book.release ho hopen htouch hr' hg hwrites.2.1 hle, h.once.release hr' hids' (by simp)⟩

theorem paid_giveBack : Paid s (giveBack blk s o x dest) := by
  unfold giveBack
  split_ifs <;> exact ⟨rfl, rfl, rfl, rfl⟩

theorem Good.close (h : Good c s) (ho : o ∈ s.offers) (hopen : o.status = .open)
    (hw : ∀ tick, Gives o tick → c.decimals tick ≤ blk.writeScale (some tick)) :
    Good c (closeOffer blk s o dest) := by
  obtain ⟨hoffers, hfills, hsettled, hnext⟩ : Paid s (giveBack blk s o (heldBack s o) dest) :=
    paid_giveBack
  have htouch : ∀ y, Touches s (closeOffer blk s o dest) o y := fun y => by
    refine touches_of_fills h.book.nodup ho (hfills.trans (append_nil _).symm) (by simp)
      (.inr ⟨.closed, by decide, ?_⟩) (hnext ▸ Nat.le_succ _)
    exact congrArg (List.map _) hoffers
  refine h.local ho hopen rfl rfl rfl (congrArg (List.map _) hsettled) (fun _ => ⟨0, htouch 0⟩)
    fun tick hg => ?_
  have ha := (h.book.accounted o ho).1 tick hg
  have hheld := ha.held_open hopen
  exact ⟨⟨hheld ▸ ha.held0, hheld ▸ ha.fits, hw tick hg⟩, le_rfl, htouch _⟩

theorem Good.localFill {give get : ℚ} (h : Good c s) (ho : o ∈ s.offers) (hopen : o.status = .open)
    (hkind : o.kind = .order)
    (hok : ∀ tick, Gives o tick → Writes c blk tick give ∧ give ≤ (remaining s o).1) :
    Good c (fillOrder blk s o give get dest) := by
  set r := giveBack blk s o give dest with hr
  set f : Fill := ⟨r.next, o.action_index, give, get⟩ with hf
  set t : State := { r with fills := r.fills ++ [f] } with ht
  obtain ⟨hue, huc, hutr, hus, hun, hfills, hfill⟩ := filled_spec (f := f)
    ((remaining t o).1 ≤ 0 ∨ (remaining t o).2 ≤ 0) h.book ho (paid_giveBack) rfl
  set u : State := if (remaining t o).1 ≤ 0 ∨ (remaining t o).2 ≤ 0 then
    setStatus t o.action_index .complete else t with hu
  have htouch := fun y hy => hfill { u with next := u.next + 1 } y rfl rfl (hun ▸ Nat.le_succ _) (.inr hy)
  refine h.local ho hopen hue huc hutr hus
    (fun _ => ⟨_, htouch (heldBack s o - heldBack t o) (sub_sub_cancel _ _).symm⟩) fun tick hg => ?_
  have ha := (h.book.accounted o ho).1 tick hg
  have hrem : heldBack s o = (remaining s o).1 := by unfold heldBack; rw [hkind]
  obtain ⟨hwrites, hle⟩ := hok tick hg
  refine ⟨hwrites, hrem ▸ hle, htouch give ?_⟩
  have hd := c.decimals_le tick
  rw [heldBack_fill hkind hfills rfl]
  exact bcsub_of_fits (ha.held_open hopen ▸ ha.fits) hwrites.2.1 hd (hd.trans (by norm_num))

theorem lockEscrow_spec (hok : ∀ tick, Gives o tick → 0 < o.give_amount ∧ Writes c blk tick o.give_amount) :
    ∃ rows, lockEscrow blk s o = { s with escrows := s.escrows ++ rows } ∧
      ((∀ tick, ¬ Gives o tick) → rows = []) ∧
      (∀ tick, Gives o tick → ∃ e, rows = [e] ∧ e.amount = o.give_amount) ∧
      ∀ e ∈ rows, e.offer = o.action_index ∧ e.settles = none := by
  unfold lockEscrow
  split_ifs with hno
  · exact ⟨[], by simp, fun _ => rfl, fun tick hg => (not_gives hno tick hg).elim, by simp⟩
  · refine ⟨_, rfl, fun hall => ?_, fun tick hg => ⟨_, rfl, ?_⟩, by simp⟩
    · obtain ⟨tick, hg⟩ := gives_of_not hno
      exact (hall tick hg).elim
    · rw [hg.1]
      obtain ⟨-, -, hfits, hw⟩ := hok tick hg
      exact bcadd_zero hfits (c.decimals_le tick) hw

theorem Good.create {kind : Kind} {source getCoin : ℕ} {giveTick : Option ℕ} {giveOwnership : Bool}
    {giveAmount getAmount : ℚ} (h : Good c s) (hok : ∀ tick, giveTick = some tick → giveOwnership = false →
      0 < giveAmount ∧ Writes c blk tick giveAmount) :
    Good c (createOffer blk s kind source getCoin giveTick giveOwnership giveAmount getAmount) := by
  set o : Offer := ⟨s.next, kind, source, getCoin, giveTick, giveOwnership, giveAmount, getAmount, .open⟩
    with ho
  have hokO : ∀ tick, Gives o tick → 0 < o.give_amount ∧ Writes c blk tick o.give_amount :=
    fun tick hg => hok tick hg.1 hg.2
  obtain ⟨rows, hrows, hnone, htoken, hall⟩ := lockEscrow_spec hokO
  have hdef : createOffer blk s kind source getCoin giveTick giveOwnership giveAmount getAmount =
      added s o rows := by
    unfold createOffer added
    dsimp only
    rw [hrows]
  rw [hdef]
  refine ⟨h.book.add rfl (fun e he => (hall e he).1) ?_, h.once.added fun e he => (hall e he).2⟩
  exact h.book.accounted_added rfl (fun e he => (hall e he).1) hnone fun tick hg =>
    ⟨htoken tick hg, (hokO tick hg).1, (hokO tick hg).2.2.1⟩

/-! ### Runs -/

/-- The step's amounts are of the grid of their ticks, and a match gives a token or an ownership under
the settlement bounds. -/
def Ok (c : Ctx) (s : State) (e : Block × Event) : Prop :=
  match e.2 with
  | .create _ _ _ giveTick giveOwnership giveAmount _ =>
    ∀ tick, giveTick = some tick → giveOwnership = false →
      0 < giveAmount ∧ Writes c e.1 tick giveAmount
  | .close idx _ => ∀ o ∈ s.offers, o.action_index = idx → ∀ tick, Gives o tick →
      c.decimals tick ≤ e.1.writeScale (some tick)
  | .localFill idx give _ _ => ∀ o ∈ s.offers, o.action_index = idx → ∀ tick, Gives o tick →
      Writes c e.1 tick give ∧ give ≤ (remaining s o).1
  | .settle rows _ => e.1.settlementBounds = true ∧ ∀ r ∈ rows, MatchOk c e.1 r.1

theorem good_init (c : Ctx) : Good c init := by
  refine ⟨⟨nodup_nil, ?_, ?_, ?_, ?_⟩, ⟨nodup_nil, nodup_nil, ?_, fun id => rfl⟩⟩ <;>
    intro x hx <;> cases hx

theorem find?_spec {idx : ℕ} (h : s.offers.find? (·.action_index = idx) = some o) :
    o ∈ s.offers ∧ o.action_index = idx :=
  ⟨mem_of_find?_eq_some h, by simpa using find?_some h⟩

theorem good_step {e : Block × Event} (hok : Ok c s e) (hs : step c s e = some s') (h : Good c s) :
    Good c s' := by
  obtain ⟨blk, e⟩ := e
  cases e with
  | create kind source getCoin giveTick giveOwnership giveAmount getAmount =>
    cases hs
    exact h.create hok
  | close idx dest =>
    dsimp only [step] at hs
    cases hfind : s.offers.find? (·.action_index = idx) with
    | none => rw [hfind] at hs; cases hs
    | some o =>
      rw [hfind] at hs
      obtain ⟨ho, hidx⟩ := find?_spec hfind
      dsimp only at hs
      split_ifs at hs with hopen
      cases hs
      exact h.close ho hopen (hok o ho hidx)
  | localFill idx give get dest =>
    dsimp only [step] at hs
    cases hfind : s.offers.find? (·.action_index = idx) with
    | none => rw [hfind] at hs; cases hs
    | some o =>
      rw [hfind] at hs
      obtain ⟨ho, hidx⟩ := find?_spec hfind
      dsimp only at hs
      split_ifs at hs with hopen
      cases hs
      exact h.localFill ho hopen.1 hopen.2 (hok o ho hidx)
  | settle rows cap =>
    dsimp only [step] at hs
    split_ifs at hs with hnd
    cases hs
    have hsub : (getEffectiveUnsettledMatches s rows cap).Sublist rows :=
      (take_sublist _ _).trans filter_sublist
    refine h.pass hok.1 ((hsub.map _).nodup hnd) (fun r hr => hok.2 r (hsub.subset hr)) fun r hr => ?_
    have hun := (mem_filter.mp (mem_of_mem_take hr)).2
    intro hmem
    obtain ⟨x, hx, hid⟩ := mem_map.mp hmem
    simp only [Bool.not_eq_true', any_eq_false] at hun
    exact hun x hx (by simpa using hid)

theorem Good.covered (h : Good c s) (idx : ℕ) : credited s idx ≤ locked s idx ∧
    escrowed s idx = locked s idx - credited s idx := by
  by_cases hidx : idx ∈ s.offers.map (·.action_index)
  · obtain ⟨o, ho, rfl⟩ := mem_map.mp hidx
    obtain ⟨htoken, hother⟩ := h.book.accounted o ho
    by_cases hg : ∃ tick, Gives o tick
    · obtain ⟨tick, hg⟩ := hg
      have ha := htoken tick hg
      have htotal := ha.total
      have hheld := ha.held0
      rw [ha.locked_eq]
      constructor <;> linarith
    · obtain ⟨hl, he, hc⟩ := hother (not_exists.mp hg)
      rw [hl, he, hc]
      exact ⟨le_rfl, (sub_zero _).symm⟩
  · -- no row is of an index without an offer
    have hrow : ∀ e ∈ s.escrows ++ s.credits, e.offer ≠ idx :=
      fun e he heq => hidx (heq ▸ h.book.rows e he)
    have hl : locked s idx = 0 :=
      sumOver_eq_zero fun e he => by simp [hrow e (mem_append_left _ he)]
    have he : escrowed s idx = 0 :=
      sumOver_eq_zero fun e he => by simp [hrow e (mem_append_left _ he)]
    have hc : credited s idx = 0 :=
      sumOver_eq_zero fun e he => by simp [hrow e (mem_append_right _ he)]
    rw [hl, he, hc]
    exact ⟨le_rfl, (sub_zero _).symm⟩

/-- **Matches release no more than was locked.** In every state an `Ok` run reaches: what was credited
out of an offer is covered by what it locked, and the rest is held; a match has one settlement row and
moves something at most once, and only with its row; its proceeds are what it took; and a match that
cannot be honoured moves nothing. -/
theorem releases_covered (h : Reaches (step c) (Ok c) init s) :
    (∀ idx, credited s idx ≤ locked s idx ∧ escrowed s idx = locked s idx - credited s idx) ∧
      (settled s).Nodup ∧ (moved s).Nodup ∧ (∀ id ∈ moved s, id ∈ settled s) ∧
      (∀ id, proceeds s id = taken s id) ∧
      ∀ blk m v, (¬ ∃ leg o, Honoured c blk s m v leg o) →
        (parse c blk s m v).escrows = s.escrows ∧ (parse c blk s m v).credits = s.credits ∧
          (parse c blk s m v).transfers = s.transfers := by
  have hgood : Good c s := h.invariant (good_init c) fun _ _ _ hok hs hi => good_step hok hs hi
  refine ⟨hgood.covered, hgood.once.nodup, hgood.once.once, hgood.once.recorded, hgood.once.balanced,
    fun blk m v hno => ?_⟩
  rcases parse_cases c blk s m v with hq | ⟨leg, o, -, hh, -⟩
  · exact ⟨hq.escrows, hq.credits, hq.transfers⟩
  · exact (hno ⟨leg, o, hh⟩).elim

/-! ### Deliveries -/

/-- A chain whose ticks have eight decimals. -/
def chain : Ctx := ⟨1, 0, fun _ => 8, fun _ => by decide⟩

def block : Block := ⟨10, true, fun _ => 8⟩

/-- A match of the local offer `idx` with one of coin 2, paid to address 200 with 2.5% to 300. -/
def matched (id idx : ℕ) (kind : Kind) (tick : Option ℕ) (amount : ℚ) : Match × Answers :=
  (⟨id, ⟨1, idx, kind, tick, amount, false, 100, none⟩,
    ⟨2, 9, kind, some 5, 1, false, 200, some [⟨some 300, "250".toList⟩]⟩, true⟩, ⟨true, .met, false⟩)

/-- An order of 10 and a swap of 4. The order is filled by 5, then by 2 on this chain, then by the 3
it has left of a match over 6; the swap gives its 4 to a match over 9. Every match comes again. -/
def deliveries : List (Block × Event) :=
  [.create .order 100 2 (some 7) false 10 20, .create .swap 101 2 (some 7) false 4 9,
    .settle [matched 1 1 .order (some 7) 5] 100, .localFill 1 2 4 102,
    .settle [matched 3 2 .swap (some 7) 9, matched 1 1 .order (some 7) 5, matched 2 1 .order (some 7) 6] 100,
    .settle [matched 2 1 .order (some 7) 6, matched 3 2 .swap (some 7) 9] 100,
    .settle [matched 4 1 .order (some 7) 1] 100].map fun e => (block, e)

instance (c : Ctx) (blk : Block) (tick : ℕ) (x : ℚ) : Decidable (Writes c blk tick x) :=
  inferInstanceAs (Decidable (_ ∧ _ ∧ _))

instance {P : ℕ → Prop} [DecidablePred P] (o : Offer) : Decidable (∀ tick, Gives o tick → P tick) :=
  decidable_of_iff (∀ tick, o.give_tick = some tick → o.give_ownership = false → P tick)
    (forall_congr' fun _ => and_imp.symm)

instance (c : Ctx) (blk : Block) (m : Match) : Decidable (MatchOk c blk m) :=
  inferInstanceAs (Decidable (∀ leg, resolveLocalLeg c m = some leg → leg.giveOwnership = true ∨
    ∃ tick, leg.giveTick = some tick ∧ tick ≠ c.coinTick ∧ Writes c blk tick leg.giveAmount))

instance (c : Ctx) (s : State) (e : Block × Event) : Decidable (Ok c s e) := by
  obtain ⟨blk, e⟩ := e
  cases e <;> dsimp only [Ok] <;> infer_instance

theorem releases_covered_deliveries : ∃ s, run (step chain) init deliveries = some s ∧
    s.credits.map (fun e => (e.address, e.amount)) =
      [(200, 39 / 8), (300, 1 / 8), (102, 2), (200, 39 / 10), (300, 1 / 10), (200, 117 / 40), (300, 3 / 40)] ∧
    credited s 1 ≤ locked s 1 ∧ (moved s).Nodup ∧ proceeds s 2 = taken s 2 := by
  obtain ⟨s, hs, hcredits⟩ : ∃ s, run (fun s e => if Ok chain s e then step chain s e else none) init
      deliveries = some s ∧ s.credits.map (fun e => (e.address, e.amount)) = [(200, 39 / 8), (300, 1 / 8),
        (102, 2), (200, 39 / 10), (300, 1 / 10), (200, 117 / 40), (300, 3 / 40)] := by
    decide +kernel
  obtain ⟨hcovered, -, honce, -, hbalanced, -⟩ :=
    releases_covered (Reaches.init.of_checked hs)
  exact ⟨s, run_of_checked hs, hcredits, (hcovered 1).1, honce, hbalanced 2⟩

/-- **A release of what nobody locked.** An order that gives 5 coins locks nothing. A match fills it, and
5 of the ticker `null` are credited out of its escrow. -/
theorem released_without_lock :
    (run (step chain) init ([.create .order 100 2 none false 5 20,
        .settle [matched 1 1 .order none 5] 100].map fun e => (block, e))).map
      (fun s => (locked s 1, credited s 1, s.credits.map fun e => (e.tick, e.amount, e.address))) =
    some (0, 5, [(none, 5, 200)]) := by
  decide +kernel

end XChainIndexer.CrossSettle.Released
