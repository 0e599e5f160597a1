import XChainIndexer.Votes.Counting

/-! # Whose weight a ballot is counted with

Every holder is counted in at most one ballot: their own if they voted, else that of their latest
delegate if the delegate voted. `ballotWeight_eq` and `sum_counted_eq` say so of the computed
weights; the rest of the result is read off `Counting.tallied_foldl`. -/

namespace XChainIndexer.Votes.Weights

open Lib.Decimal Lib.Assoc Bcmath List Option Votes.PollTally Votes.Portions Votes.Counting

/-! ### The assignment of holders to ballots -/

/-- The voter whose ballot a holder is counted in. -/
def assign (c : Count) (holder : Address) : Option Address :=
  if holder ∈ keys c.byVoter then some holder
  else (c.delegations.lookup holder).filter (· ∈ keys c.byVoter)

/-- What a holder weighs; nothing without a positive balance. -/
def holderWeight (c : Count) (holder : Address) : ℚ := (c.weightOf holder).getD 0

/-- Whether the ballot of a voter is counted. -/
def isCounted (c : Count) (voter : Address) : Bool :=
  (c.byVoter.lookup voter).any fun picks => (Count.counted c (voter, picks)).isSome

/-- One entry for a holder and for a delegator, and weights of the grid in range. -/
structure Ranged (c : Count) : Prop where
  voters : (c.byVoter.map Prod.fst).Nodup
  holders : (c.holders.map Prod.fst).Nodup
  delegations : (c.delegations.map Prod.fst).Nodup
  weight : ∀ a w, c.weightOf a = some w → OnGrid 18 w ∧ 0 ≤ w
  range : (c.optionCount + 1) * ∑ h ∈ keys c.holders, holderWeight c h < 10 ^ 42

theorem sum_filterMap_filter {α : Type} (l : List α) (p : α → Bool) (f : α → Option ℚ) :
    ((l.filter p).filterMap f).sum = (l.map fun e => if p e then (f e).getD 0 else 0).sum := by
  induction l with
  | nil => rfl
  | cons e l ih =>
    rw [filter_cons, map_cons, sum_cons, ← ih]
    split_ifs with hp
    · cases hf : f e with
      | none => rw [filterMap_cons_none hf, getD_none, zero_add]
      | some x => rw [filterMap_cons_some hf, sum_cons, getD_some]
    · rw [zero_add]

section Count

variable {c : Count} (hc : Ranged c)
include hc

theorem holderWeight_nonneg (h : Address) : 0 ≤ holderWeight c h := by
  unfold holderWeight
  cases hw : c.weightOf h with
  | none => exact le_rfl
  | some w => exact (hc.weight h w hw).2

omit hc in
theorem mem_keys_of_weightOf {a : Address} {w : ℚ} (h : c.weightOf a = some w) : a ∈ keys c.holders := by
  rw [← isSome_lookup_iff]
  unfold Count.weightOf at h
  cases hl : c.holders.lookup a with
  | none => rw [hl] at h; exact nomatch h
  | some bal => rfl

omit hc in
theorem holderWeight_eq_zero {h : Address} (hk : h ∉ keys c.holders) : holderWeight c h = 0 := by
  unfold holderWeight Count.weightOf
  rw [lookup_eq_none_iff.mpr hk]
  rfl

theorem sum_holderWeight_le (s : Finset Address) (f : Address → Prop) [DecidablePred f]
    (hs : s ⊆ keys c.holders) :
    ∑ h ∈ s, (if f h then holderWeight c h else 0) ≤ ∑ h ∈ keys c.holders, holderWeight c h := by
  refine (Finset.sum_le_sum fun h _ => ?_).trans
    (Finset.sum_le_sum_of_subset_of_nonneg hs fun h _ _ => holderWeight_nonneg hc h)
  split_ifs
  · exact le_rfl
  · exact holderWeight_nonneg hc h

theorem sum_holderWeight_lt : ∑ h ∈ keys c.holders, holderWeight c h < 10 ^ 42 := by
  have h0 : 0 ≤ ∑ h ∈ keys c.holders, holderWeight c h :=
    Finset.sum_nonneg fun h _ => holderWeight_nonneg hc h
  have h1 : 0 ≤ (c.optionCount : ℚ) * ∑ h ∈ keys c.holders, holderWeight c h :=
    mul_nonneg (Nat.cast_nonneg _) h0
  have := hc.range
  linarith

/-! ### The weight of one ballot -/

variable {v : Address}

theorem lends_eq {e : Address × Address} (he : e ∈ c.delegations) :
    (if decide (e.2 = v) = true then (c.lends e).getD 0 else 0) =
      if e.1 ∉ keys c.byVoter ∧ assign c e.1 = some v then holderWeight c e.1 else 0 := by
  have hl : c.delegations.lookup e.1 = some e.2 := (lookup_eq_some_iff hc.delegations).mpr he
  unfold Count.lends
  by_cases hvoted : e.1 ∈ keys c.byVoter
  · simp [isSome_lookup_iff.mpr hvoted, hvoted]
  · have hnone : c.byVoter.lookup e.1 = none := lookup_eq_none_iff.mpr hvoted
    by_cases hd : e.2 ∈ keys c.byVoter
    · have hsome : (c.byVoter.lookup e.2).isNone = false := by
        rw [← not_isSome, isSome_lookup_iff.mpr hd]; rfl
      have ha : assign c e.1 = some e.2 := by
        rw [assign, if_neg hvoted, hl, filter_some, if_pos (decide_eq_true hd)]
      simp [hvoted, hnone, hsome, ha, holderWeight]
    · have hidle : c.byVoter.lookup e.2 = none := lookup_eq_none_iff.mpr hd
      have ha : assign c e.1 = none := by
        rw [assign, if_neg hvoted, hl, filter_some, if_neg (by simpa using hd)]
      simp [hnone, hidle, ha]

theorem lent_sum_eq (v : Address) : ((c.delegations.filter (·.2 = v)).filterMap c.lends).sum =
      ∑ h ∈ keys c.holders, if h ∉ keys c.byVoter ∧ assign c h = some v then holderWeight c h else 0 := by
  rw [sum_filterMap_filter, sum_map_eq_sum_keys hc.delegations (f := fun h =>
    if h ∉ keys c.byVoter ∧ assign c h = some v then holderWeight c h else 0)
    fun e he => lends_eq hc he]
  refine sum_keys_eq (fun h hk => ?_) fun h hk => ?_
  · refine if_neg fun ⟨hv, ha⟩ => ?_
    rw [assign, if_neg hv, lookup_eq_none_iff.mpr hk] at ha
    exact nomatch ha
  · rw [holderWeight_eq_zero hk, ite_self]

theorem inbound_eq (v : Address) : c.inbound v = ∑ h ∈ keys c.holders,
      if h ∉ keys c.byVoter ∧ assign c h = some v then holderWeight c h else 0 := by
  rw [← lent_sum_eq hc]
  refine foldl_bcadd le_rfl (fun x hx => ?_) ?_
  · obtain ⟨e, -, hx⟩ := mem_filterMap.mp hx
    unfold Count.lends at hx
    split_ifs at hx
    exact hc.weight _ _ hx
  · rw [lent_sum_eq hc]
    have := sum_holderWeight_le hc (keys c.holders)
      (fun h => h ∉ keys c.byVoter ∧ assign c h = some v) (Finset.Subset.refl _)
    exact (this.trans_lt (sum_holderWeight_lt hc)).trans (by norm_num)

omit hc in
/-- A voter is counted in their own ballot, whoever else is counted in it did not vote. -/
theorem assign_split (hv : v ∈ keys c.byVoter) (h : Address) :
    (if assign c h = some v then holderWeight c h else 0) = (if h = v then holderWeight c h else 0) +
        if h ∉ keys c.byVoter ∧ assign c h = some v then holderWeight c h else 0 := by
  by_cases hvoted : h ∈ keys c.byVoter
  · have ha : assign c h = some h := if_pos hvoted
    simp [ha, hvoted]
  · have hne : h ≠ v := fun e => hvoted (e ▸ hv)
    simp [hvoted, hne]

/-- **The weight of a ballot** is that of the holders counted in it. -/
theorem ballotWeight_eq (hv : v ∈ keys c.byVoter) {w : ℚ} (hw : c.ballotWeight v = some w) :
    w = ∑ h ∈ keys c.holders, if assign c h = some v then holderWeight c h else 0 := by
  obtain ⟨own, hown, rfl⟩ := map_eq_some_iff.mp hw
  have hsum : ∑ h ∈ keys c.holders, (if assign c h = some v then holderWeight c h else 0) =
      own + c.inbound v := by
    rw [inbound_eq hc, Finset.sum_congr rfl fun h _ => assign_split hv h, Finset.sum_add_distrib,
      Finset.sum_ite_eq', if_pos (mem_keys_of_weightOf hown)]
    rw [holderWeight, hown, getD_some]
  rw [hsum]
  have hle := sum_holderWeight_le hc (keys c.holders) (fun h => assign c h = some v) (Finset.Subset.refl _)
  have hlt := sum_holderWeight_lt hc
  have hin : 0 ≤ c.inbound v := by
    rw [inbound_eq hc]
    exact Finset.sum_nonneg fun h _ => by split_ifs <;> simp [holderWeight_nonneg hc]
  have hgrid : OnGrid 18 (c.inbound v) := by
    rw [inbound_eq hc, ← lent_sum_eq hc]
    refine onGrid_sum fun x hx => ?_
    obtain ⟨e, -, hx⟩ := mem_filterMap.mp hx
    unfold Count.lends at hx
    split_ifs at hx
    exact (hc.weight _ _ hx).1
  refine bcadd_of_onGrid le_rfl (hc.weight _ _ hown).1 hgrid ?_
  rw [abs_of_nonneg (add_nonneg (hc.weight _ _ hown).2 hin), ← hsum]
  exact (hle.trans_lt hlt).trans (by norm_num)

/-! ### The counted weight -/

theorem counted_eq {e : Address × List Pick} (he : e ∈ c.byVoter) :
    (Count.counted c e).getD 0 = if isCounted c e.1 then
      ∑ h ∈ keys c.holders, (if assign c h = some e.1 then holderWeight c h else 0) else 0 := by
  have hl : c.byVoter.lookup e.1 = some e.2 := (lookup_eq_some_iff hc.voters).mpr he
  have hkey : e.1 ∈ keys c.byVoter := mem_keys.mpr ⟨e.2, he⟩
  unfold isCounted
  rw [hl, any_some]
  cases hcount : Count.counted c e with
  | none => rfl
  | some w =>
    obtain ⟨w', hw, hcount⟩ := bind_eq_some_iff.mp hcount
    obtain ⟨-, -, rfl⟩ := map_eq_some_iff.mp hcount
    exact ballotWeight_eq hc hkey hw

/-- **The counted weight** is that of the holders whose ballot is counted. -/
theorem sum_counted_eq : (c.byVoter.filterMap (Count.counted c)).sum =
    ∑ h ∈ keys c.holders, if (assign c h).any (isCounted c) then holderWeight c h else 0 := by
  have hvoters : (c.byVoter.filterMap (Count.counted c)).sum = ∑ v ∈ keys c.byVoter,
      ∑ h ∈ keys c.holders, if isCounted c v ∧ assign c h = some v then holderWeight c h else 0 := by
    have hlist := sum_filterMap_filter c.byVoter (fun _ => true) (Count.counted c)
    rw [filter_true] at hlist
    rw [hlist]
    refine sum_map_eq_sum_keys hc.voters fun e he => ?_
    rw [if_pos rfl, counted_eq hc he]
    split_ifs with hcount <;> simp [hcount]
  rw [hvoters, Finset.sum_comm]
  refine Finset.sum_congr rfl fun h _ => ?_
  cases ha : assign c h with
  | none => simp
  | some u =>
    -- of the voters only `u` contributes
    have hterm : ∀ v, (if isCounted c v = true ∧ some u = some v then holderWeight c h else 0) =
        if u = v then (if isCounted c u then holderWeight c h else 0) else 0 := fun v => by
      by_cases huv : u = v
      · subst huv; simp
      · simp [huv]
    rw [Finset.sum_congr rfl fun v _ => hterm v, Finset.sum_ite_eq, any_some]
    by_cases hu : isCounted c u = true
    · have hk : u ∈ keys c.byVoter := by
        obtain ⟨picks, hl, -⟩ := (any_eq_true _ _).mp hu
        exact mem_keys.mpr ⟨picks, mem_of_lookup hl⟩
      rw [if_pos hk]
    · simp [hu]

end Count

end XChainIndexer.Votes.Weights
