import XChainIndexer.Votes.PollTally
import XChainIndexer.Lib.Assoc

/-! # What a ballot adds to the options

The portions of one ballot (`portioned`): every in-range choice gets at most the ballot's weight, and
under the exact split rule the portions add up to it (`sum_portions`).

The sum of the shares is rounded to 18 decimals at every addition, so a share of more decimals can
exceed it. Under the exact rule that does no harm: the remainder goes to the largest share, and the
others stay within the sum (`share_le_of_le`). -/

namespace XChainIndexer.Votes.Portions

open Lib.Decimal Lib.Assoc Bcmath List Votes.PollTally

/-! ### Shares -/

/-- A ballot that names a choice once, in positive shares; the shares of a split ballot add up to a
number in range, and below the exact rule none of them exceeds the rounded shares together. -/
structure Regular (c : Count) (picks : List Pick) : Prop where
  nodup : (picks.map (·.choice)).Nodup
  share : ∀ p ∈ picks, 0 < p.share
  sum : c.tally_mode = .split → (picks.map (·.share)).sum < 10 ^ 42
  within : c.tally_mode = .split → c.exactSplit = false → ∀ p ∈ picks, p.choice < c.optionCount →
    p.share ≤ (picks.map fun q => toFixed 18 q.share).sum

section Sum

variable {x y s : ℚ} {l : List ℚ}

/-- An addition of the code does not fall below the sum of a bound and the rounded number. -/
theorem add_toFixed_le_bcadd (hy : OnGrid 18 y) (hy0 : 0 ≤ y) (hys : y ≤ s) (hx : 0 ≤ x)
    (hrange : y + toFixed 18 x < 10 ^ 44) : y + toFixed 18 x ≤ bcadd s x 18 := by
  have hnear := abs_le.mp (abs_toFixed_sub_le 18 x)
  obtain ⟨k, hk⟩ := onGrid_iff.mp (hy.add (onGrid_toFixed 18 x))
  rw [hk] at hrange ⊢
  rcases le_or_gt k 0 with hk0 | hk0
  · refine le_trans ?_ (format_nonneg 18 (add_nonneg (hy0.trans hys) hx))
    exact div_nonpos_of_nonpos_of_nonneg (by exact_mod_cast hk0) (by positivity)
  · -- half a unit below the bound is still a number of 19 decimals
    have hgrid : OnGrid 19 (((k : ℚ) - 1 / 2) / 10 ^ 18) :=
      onGrid_iff.mpr ⟨10 * k - 5, by push_cast; ring⟩
    have hle : ((k : ℚ) - 1 / 2) / 10 ^ 18 ≤ s + x := by
      rw [sub_div, ← hk]
      linarith
    refine (le_toFixed_iff hk0).mpr ?_
    rcases lt_or_ge (s + x) (10 ^ 45) with hlt | hge
    · refine le_toSignificant hgrid ?_ hle
      rw [abs_of_nonneg (add_nonneg (hy0.trans hys) hx)]
      exact hlt.trans_le (by unfold precision; norm_num)
    · refine le_trans ?_ (pow_le_toSignificant (by decide) hge)
      rw [sub_div]
      linarith

theorem sum_toFixed_le_foldl (hl : ∀ x ∈ l, 0 ≤ x) (hy : OnGrid 18 y) (hy0 : 0 ≤ y) (hys : y ≤ s)
    (hrange : y + (l.map (toFixed 18)).sum < 10 ^ 44) :
    y + (l.map (toFixed 18)).sum ≤ l.foldl (fun sum x => bcadd sum x 18) s := by
  induction l generalizing y s with
  | nil => simpa using hys
  | cons x l ih =>
    have hx := hl x (by simp)
    have hrest : 0 ≤ (l.map (toFixed 18)).sum := sum_nonneg fun r hr => by
      obtain ⟨x', hx', rfl⟩ := mem_map.mp hr
      exact toFixed_nonneg 18 (hl x' (mem_cons_of_mem x hx'))
    rw [map_cons, sum_cons, ← add_assoc] at hrange ⊢
    exact ih (fun x' hx' => hl x' (mem_cons_of_mem x hx')) (hy.add (onGrid_toFixed 18 x))
      (add_nonneg hy0 (toFixed_nonneg 18 hx))
      (add_toFixed_le_bcadd hy hy0 hys hx (by linarith)) hrange

theorem toFixed_le_two_mul (hx : 0 ≤ x) : toFixed 18 x ≤ 2 * x := by
  obtain ⟨k, hk⟩ := onGrid_iff.mp (onGrid_toFixed 18 x)
  rcases le_or_gt k 0 with hk0 | hk0
  · refine le_trans ?_ (mul_nonneg zero_le_two hx)
    rw [hk]
    exact div_nonpos_of_nonpos_of_nonneg (by exact_mod_cast hk0) (by positivity)
  · have hhalf := (le_toFixed_iff hk0).mp hk.ge
    have hk1 : (1 : ℚ) ≤ k := by exact_mod_cast hk0
    rw [hk]
    rw [div_le_iff₀ (by positivity)] at hhalf ⊢
    linarith

end Sum

section Shares

variable {picks : List Pick} (hpos : ∀ p ∈ picks, 0 < p.share)
  (hrange : (picks.map (·.share)).sum < 10 ^ 42) {p q : Pick}
include hpos hrange

theorem sum_toFixed_le_sumShares : (picks.map fun p => toFixed 18 p.share).sum ≤ sumShares picks := by
  have htwo : (picks.map fun p => toFixed 18 p.share).sum ≤ 2 * (picks.map (·.share)).sum := by
    rw [← sum_map_mul_left]
    exact sum_le_sum fun p hp => toFixed_le_two_mul (hpos p hp).le
  have hfold := sum_toFixed_le_foldl (l := picks.map (·.share)) (by simpa using fun p hp => (hpos p hp).le)
    (onGrid_zero 18) le_rfl le_rfl (by rw [map_map, zero_add]; exact htwo.trans_lt (by linarith))
  rwa [map_map, zero_add, foldl_map] at hfold

theorem finset_sum_toFixed_le (hnodup : picks.Nodup) {s : Finset Pick} (hs : s ⊆ picks.toFinset) :
    ∑ p ∈ s, toFixed 18 p.share ≤ sumShares picks := by
  refine le_trans ?_ (sum_toFixed_le_sumShares hpos hrange)
  rw [← sum_toFinset _ hnodup]
  exact Finset.sum_le_sum_of_subset_of_nonneg hs fun p hp _ =>
    toFixed_nonneg 18 (hpos p (mem_toFinset.mp hp)).le

variable (hsum : 0 < sumShares picks)
include hsum

omit hpos hrange in
theorem unit_le_sumShares : 1 / 10 ^ 18 ≤ sumShares picks := by
  have hgrid : OnGrid 18 (sumShares picks) :=
    foldlRecOn _ _ (onGrid_zero 18) fun _ _ _ _ => onGrid_format _ 18
  obtain ⟨k, hk⟩ := onGrid_iff.mp hgrid
  rw [hk] at hsum ⊢
  have hk0 : 0 < k := by
    by_contra hle
    refine absurd hsum (not_lt.mpr (div_nonpos_of_nonpos_of_nonneg ?_ (by positivity)))
    exact_mod_cast not_lt.mp hle
  gcongr
  exact_mod_cast hk0

theorem share_le_two_mul (hnodup : picks.Nodup) (hp : p ∈ picks) : p.share ≤ 2 * sumShares picks := by
  have hunit := unit_le_sumShares hsum
  have hone := finset_sum_toFixed_le hpos hrange hnodup (s := {p}) (by simpa using hp)
  have hnear := abs_le.mp (abs_toFixed_sub_le 18 p.share)
  rw [Finset.sum_singleton] at hone
  linarith

/-- A share that is not the largest stays within the sum. -/
theorem share_le_of_le (hnodup : picks.Nodup) (hp : p ∈ picks) (hq : q ∈ picks) (hne : p ≠ q)
    (hle : p.share ≤ q.share) : p.share ≤ sumShares picks := by
  have hunit := unit_le_sumShares hsum
  rcases le_or_gt p.share (1 / 10 ^ 18) with hsmall | hbig
  · exact hsmall.trans hunit
  · have htwo := finset_sum_toFixed_le hpos hrange hnodup (s := {p, q})
      (by simp [Finset.insert_subset_iff, hp, hq])
    have hnear := abs_le.mp (abs_toFixed_sub_le 18 p.share)
    -- the larger share is rounded to a unit at least
    have hqunit : ((1 : ℤ) : ℚ) / 10 ^ 18 ≤ toFixed 18 q.share :=
      (le_toFixed_iff one_pos).mpr (by push_cast; linarith)
    rw [Finset.sum_pair hne] at htwo
    push_cast at hqunit
    linarith

end Shares

/-! ### The two split rules -/

section Split

variable {weight sum x : ℚ} {picks : List Pick} {p : Pick} (hw0 : 0 ≤ weight) (hsum : 0 < sum)
include hw0 hsum

theorem roundedPortions_spec (hw : Fits 18 weight) (hshare : ∀ p ∈ picks, 0 < p.share ∧ p.share ≤ sum)
    (hx : x ∈ roundedPortions weight picks sum) : OnGrid 18 x ∧ 0 ≤ x ∧ x ≤ weight := by
  obtain ⟨p, hp, rfl⟩ := mem_map.mp hx
  obtain ⟨hpos, hle⟩ := hshare p hp
  have hone : OnGrid 18 (1 : ℚ) := onGrid_iff.mpr ⟨10 ^ 18, by norm_num⟩
  have hq0 : 0 ≤ p.share / sum := div_nonneg hpos.le hsum.le
  have hq1 : p.share / sum ≤ 1 := (div_le_one hsum).mpr hle
  have hf0 : 0 ≤ format (p.share / sum) 18 := format_nonneg 18 hq0
  have hf1 : format (p.share / sum) 18 ≤ 1 := by
    refine format_le_of_onGrid hone le_rfl le_rfl ?_ hq1
    rw [abs_of_nonneg hq0]
    exact hq1.trans_lt (by norm_num)
  have hmul : weight * format (p.share / sum) 18 ≤ weight := mul_le_of_le_one_right hw0 hf1
  have hmul0 : 0 ≤ weight * format (p.share / sum) 18 := mul_nonneg hw0 hf0
  unfold bcmul bcdiv
  rw [if_neg hsum.ne']
  refine ⟨onGrid_format _ 18, format_nonneg 18 hmul0, format_le_of_onGrid hw.1 le_rfl le_rfl ?_ hmul⟩
  rw [abs_of_nonneg hmul0]
  exact (hmul.trans_lt ((le_abs_self _).trans_lt hw.2)).trans (by norm_num)

theorem floor_spec {m : ℚ} (hm0 : 0 ≤ m) (hm : Fits 18 (m * weight)) (hpos : 0 < p.share)
    (hle : p.share ≤ m * sum) : OnGrid 18 (bcmuldivfloor weight p.share sum 18) ∧
      0 ≤ bcmuldivfloor weight p.share sum 18 ∧ bcmuldivfloor weight p.share sum 18 ≤ m * weight := by
  have h := bcmuldivfloor_le le_rfl (mul_nonneg hw0 hpos.le) hsum (mul_nonneg hm0 hw0) hm <| by
    rw [div_le_iff₀ hsum, mul_right_comm, mul_comm weight]
    exact mul_le_mul_of_nonneg_right hle hw0
  exact ⟨h.2.2.1.1, h.1, h.2.1⟩

end Split

variable {i : ℕ} {picks : List Pick}

/-- The pick that gets the remainder has the largest share. -/
theorem topPick_spec (picks : List Pick) (i j : ℕ) (best : Pick) :
    ∃ q k, topPick picks i (some (j, best)) = some k ∧ (q, k) ∈ (best, j) :: picks.zipIdx i ∧
      ∀ p ∈ best :: picks, p.share ≤ q.share := by
  induction picks generalizing i j best with
  | nil => exact ⟨best, j, rfl, by simp, by simp⟩
  | cons p ps ih =>
    unfold topPick
    rw [zipIdx_cons]
    by_cases hb : p.beats best
    · rw [if_pos hb]
      have hle : best.share ≤ p.share := by
        rcases of_decide_eq_true hb with h | h
        · exact h.le
        · exact not_lt.mp h.1
      obtain ⟨q, k, hk, hmem, hmax⟩ := ih (i + 1) i p
      exact ⟨q, k, hk, mem_cons_of_mem _ hmem, forall_mem_cons.mpr ⟨hle.trans (hmax p (by simp)), hmax⟩⟩
    · rw [if_neg hb]
      have hle : p.share ≤ best.share :=
        not_lt.mp fun h => hb (decide_eq_true (.inl h))
      obtain ⟨q, k, hk, hmem, hmax⟩ := ih (i + 1) j best
      rw [forall_mem_cons] at hmax
      refine ⟨q, k, hk, ?_, forall_mem_cons.mpr ⟨hmax.1, forall_mem_cons.mpr ⟨hle.trans hmax.1, hmax.2⟩⟩⟩
      rcases mem_cons.mp hmem with h | h
      · exact h ▸ mem_cons_self
      · exact mem_cons_of_mem _ (mem_cons_of_mem _ h)

theorem exists_topPick (h : picks ≠ []) : ∃ top, ∃ hlt : top < picks.length,
    topPick picks 0 none = some top ∧ ∀ p ∈ picks, p.share ≤ picks[top].share := by
  obtain ⟨p, ps, rfl⟩ := exists_cons_of_ne_nil h
  obtain ⟨q, k, hk, hmem, hmax⟩ := topPick_spec ps 1 0 p
  have hidx : (q, k) ∈ (p :: ps).zipIdx := hmem
  obtain ⟨hlt, rfl⟩ := List.getElem?_eq_some_iff.mp (mk_mem_zipIdx_iff_getElem?.mp hidx)
  exact ⟨k, hlt, hk, hmax⟩

theorem sum_modify (l : List ℚ) (hi : i < l.length) (f : ℚ → ℚ) :
    (l.modify i f).sum = l.sum - l[i] + f l[i] := by
  induction l generalizing i with
  | nil => exact absurd hi (Nat.not_lt_zero i)
  | cons x l ih =>
    cases i with
    | zero => simp [add_comm]
    | succ i =>
      rw [modify_succ_cons, sum_cons, sum_cons, ih (by simpa using hi)]
      simp only [getElem_cons_succ]
      ring

theorem mem_modify {x : ℚ} {l : List ℚ} (hi : i < l.length) {f : ℚ → ℚ} (hx : x ∈ l.modify i f) :
    (∃ j, ∃ h : j < l.length, j ≠ i ∧ x = l[j]) ∨ x = f l[i] := by
  obtain ⟨j, hj, rfl⟩ := getElem_of_mem hx
  rw [length_modify] at hj
  rw [getElem_modify]
  split_ifs with h
  · subst h; exact .inr rfl
  · exact .inl ⟨j, hj, Ne.symm h, rfl⟩

/-- Portions for that many choices which add up to the weight. -/
structure Shared (weight : ℚ) (count : ℕ) (xs : List ℚ) : Prop where
  length : xs.length = count
  bounds : ∀ x ∈ xs, OnGrid 18 x ∧ x ≤ weight ∧ -(count * weight) ≤ x
  sum : xs.sum = weight

variable {weight : ℚ}

/-- Floors of portions, with what is left of the weight added to one of them. -/
theorem modify_rest_spec {floors : List ℚ} {top : ℕ} (hlt : top < floors.length) (hw : OnGrid 18 weight)
    (hw0 : 0 ≤ weight) (hfloor : ∀ x ∈ floors, OnGrid 18 x ∧ 0 ≤ x)
    (hother : ∀ j, ∀ h : j < floors.length, j ≠ top → floors[j] ≤ weight)
    (htop : floors[top] ≤ 2 * weight) (hrange : (floors.length + 1) * weight < 10 ^ 42) :
    Shared weight floors.length (floors.modify top fun w =>
      bcadd w (bcsub weight (floors.foldl (fun sum w => bcadd sum w 18) 0) 18) 18) := by
  have hlw : 0 ≤ floors.length * weight := mul_nonneg (Nat.cast_nonneg _) hw0
  -- with the weight taken off the top one, every floor is within the weight
  have htotal : floors.sum ≤ (floors.length + 1) * weight := by
    have h := sum_le_card_nsmul (floors.modify top (· - weight)) weight fun x hx => by
      rcases mem_modify hlt hx with ⟨j, hj, hne, rfl⟩ | rfl
      · exact hother j hj hne
      · linarith
    rw [sum_modify _ hlt, length_modify, nsmul_eq_mul] at h
    linarith
  have hgiven : floors.foldl (fun sum w => bcadd sum w 18) 0 = floors.sum :=
    foldl_bcadd le_rfl hfloor ((htotal.trans_lt hrange).trans (by norm_num))
  obtain ⟨hgrid, h0⟩ := hfloor floors[top] (getElem_mem hlt)
  have hone : floors[top] ≤ floors.sum :=
    single_le_sum (fun x hx => (hfloor x hx).2) _ (getElem_mem hlt)
  have hgsum : OnGrid 18 floors.sum := onGrid_sum fun x hx => (hfloor x hx).1
  -- the remainder is exact, and so is the portion it is added to
  have hrest : bcsub weight floors.sum 18 = weight - floors.sum := by
    refine bcsub_of_onGrid le_rfl hw hgsum ?_
    rw [abs_lt]
    constructor <;> linarith
  have hval : bcadd floors[top] (weight - floors.sum) 18 = floors[top] + (weight - floors.sum) := by
    refine bcadd_of_onGrid le_rfl hgrid (hw.sub hgsum) ?_
    rw [abs_lt]
    constructor <;> linarith
  rw [hgiven, hrest]
  refine ⟨length_modify .., fun x hx => ?_, ?_⟩
  · rcases mem_modify hlt hx with ⟨j, hj, hne, rfl⟩ | rfl
    · obtain ⟨hg, hx0⟩ := hfloor floors[j] (getElem_mem hj)
      exact ⟨hg, hother j hj hne, by linarith⟩
    · rw [hval]
      exact ⟨hgrid.add (hw.sub hgsum), by linarith, by linarith⟩
  · rw [sum_modify _ hlt, hval]
    ring

theorem exactSplitPortions_spec {sum : ℚ} (hw : OnGrid 18 weight) (hw0 : 0 ≤ weight) (hsum : 0 < sum)
    (hnodup : picks.Nodup) (hshare : ∀ p ∈ picks, 0 < p.share ∧ p.share ≤ 2 * sum)
    (hother : ∀ p ∈ picks, ∀ q ∈ picks, p ≠ q → p.share ≤ q.share → p.share ≤ sum)
    (hrange : (picks.length + 1) * weight < 10 ^ 42) (hne : picks ≠ []) :
    Shared weight picks.length (exactSplitPortions weight picks sum) := by
  obtain ⟨top, hlt, htop, hmax⟩ := exists_topPick hne
  have hlen : (picks.map fun p => bcmuldivfloor weight p.share sum 18).length = picks.length :=
    length_map _
  have htwo : Fits 18 (2 * weight) := by
    refine ⟨two_mul weight ▸ hw.add hw, ?_⟩
    have hcount : (1 : ℚ) ≤ picks.length := by exact_mod_cast length_pos_of_ne_nil hne
    rw [abs_of_nonneg (mul_nonneg zero_le_two hw0)]
    nlinarith
  have hone : Fits 18 (1 * weight) := by
    refine ⟨(one_mul weight).symm ▸ hw, lt_of_le_of_lt ?_ htwo.2⟩
    rw [abs_mul, abs_mul, abs_one, abs_two]
    exact mul_le_mul_of_nonneg_right one_le_two (abs_nonneg _)
  have hfloor := fun p hp =>
    floor_spec hw0 hsum zero_le_two htwo (hshare p hp).1 (hshare p hp).2
  have hrest : ∀ j, ∀ h : j < picks.length, j ≠ top →
      bcmuldivfloor weight picks[j].share sum 18 ≤ weight := by
    intro j hj hjtop
    have hp : picks[j] ∈ picks := getElem_mem hj
    have hpq : picks[j] ≠ picks[top] := fun h => hjtop (hnodup.getElem_inj_iff.mp h)
    have hle := hother _ hp _ (getElem_mem hlt) hpq (hmax _ hp)
    have h := floor_spec hw0 hsum zero_le_one hone (hshare _ hp).1 (by rwa [one_mul])
    exact h.2.2.trans (one_mul weight).le
  have hspec := modify_rest_spec (hlen ▸ hlt) hw hw0
    (forall_mem_map.mpr fun p hp => ⟨(hfloor p hp).1, (hfloor p hp).2.1⟩)
    (fun j hj => getElem_map .. ▸ hrest j (hlen ▸ hj))
    (getElem_map .. ▸ (hfloor _ (getElem_mem hlt)).2.2) (by rwa [hlen])
  unfold exactSplitPortions
  rw [htop]
  rwa [hlen] at hspec

/-! ### The portions of a ballot -/

/-- Portions of distinct choices in range, none above the weight. -/
structure Portioned (count : ℕ) (weight : ℚ) (portions : List (ℕ × ℚ)) : Prop where
  nodup : (portions.map Prod.fst).Nodup
  lt : ∀ p ∈ portions, p.1 < count
  onGrid : ∀ p ∈ portions, OnGrid 18 p.2
  le : ∀ p ∈ portions, p.2 ≤ weight
  ge : ∀ p ∈ portions, -(count * weight) ≤ p.2

theorem portioned_zip {count : ℕ} {choices : List ℕ} {xs : List ℚ} (hnodup : choices.Nodup)
    (hlt : ∀ i ∈ choices, i < count)
    (hx : ∀ x ∈ xs, OnGrid 18 x ∧ x ≤ weight ∧ -(count * weight) ≤ x) :
    Portioned count weight (choices.zip xs) where
  nodup := hnodup.sublist (map_fst_zip_sublist _ _)
  lt _ hp := hlt _ (of_mem_zip hp).1
  onGrid _ hp := (hx _ (of_mem_zip hp).2).1
  le _ hp := (hx _ (of_mem_zip hp).2).2.1
  ge _ hp := (hx _ (of_mem_zip hp).2).2.2

/-- Whether a choice of the ballot is one of the options. -/
def Count.inRange (c : Count) (picks : List Pick) : Bool := picks.any (·.choice < c.optionCount)

section Ballot

variable {c : Count} {weight : ℚ} {picks : List Pick} {portions : List (ℕ × ℚ)}
  {x : ℚ} (hw : Fits 18 weight) (hw0 : 0 ≤ weight) (hreg : Regular c picks)
  (hrange : (c.optionCount + 1) * weight < 10 ^ 42) (h : c.portions weight picks = some portions)
include hreg

theorem nodup_inRange : ((picks.filter (·.choice < c.optionCount)).map (·.choice)).Nodup :=
  hreg.nodup.sublist (filter_sublist.map _)

theorem length_inRange_le : (picks.filter (·.choice < c.optionCount)).length ≤ c.optionCount := by
  have hsub : ((picks.filter (·.choice < c.optionCount)).map (·.choice)).toFinset ⊆
      Finset.range c.optionCount := fun i hi => by
    simp only [mem_toFinset, mem_map, mem_filter, decide_eq_true_eq] at hi
    obtain ⟨p, ⟨-, hp⟩, rfl⟩ := hi
    exact Finset.mem_range.mpr hp
  have hcard := Finset.card_le_card hsub
  rwa [toFinset_card_of_nodup (nodup_inRange hreg), length_map, Finset.card_range] at hcard

include hw0

theorem length_mul_le :
    ((picks.filter (·.choice < c.optionCount)).length : ℚ) * weight ≤ c.optionCount * weight :=
  mul_le_mul_of_nonneg_right (by exact_mod_cast length_inRange_le hreg) hw0

include hw hrange

theorem exactSplit_spec (hmode : c.tally_mode = .split) (hsum : 0 < sumShares picks)
    (hne : picks.filter (·.choice < c.optionCount) ≠ []) :
    Shared weight (picks.filter (·.choice < c.optionCount)).length
      (exactSplitPortions weight (picks.filter (·.choice < c.optionCount)) (sumShares picks)) := by
  have hlen := length_mul_le (c := c) hw0 hreg
  have hnodup := hreg.nodup.of_map
  have hpicks := fun p (hp : p ∈ picks.filter (·.choice < c.optionCount)) => mem_of_mem_filter hp
  refine exactSplitPortions_spec hw.1 hw0 hsum (hnodup.filter _) (fun p hp => ?_)
    (fun p hp q hq => ?_) (by linarith) hne
  · exact ⟨hreg.share p (hpicks p hp),
      share_le_two_mul hreg.share (hreg.sum hmode) hsum hnodup (hpicks p hp)⟩
  · exact share_le_of_le hreg.share (hreg.sum hmode) hsum hnodup (hpicks p hp) (hpicks q hq)

theorem split_spec (hmode : c.tally_mode = .split) (hsum : 0 < sumShares picks)
    (hx : x ∈ c.split weight (picks.filter (·.choice < c.optionCount)) (sumShares picks)) :
    OnGrid 18 x ∧ x ≤ weight ∧ -(c.optionCount * weight) ≤ x := by
  have hlen := length_mul_le (c := c) hw0 hreg
  have hcw : 0 ≤ c.optionCount * weight := mul_nonneg (Nat.cast_nonneg _) hw0
  unfold Count.split at hx
  split_ifs at hx with hexact
  · by_cases hne : picks.filter (·.choice < c.optionCount) = []
    · rw [hne] at hx
      exact nomatch hx
    · obtain ⟨hgrid, hle, hge⟩ := (exactSplit_spec hw hw0 hreg hrange hmode hsum hne).bounds x hx
      exact ⟨hgrid, hle, by linarith⟩
  · have hwithin := hreg.within hmode (Bool.eq_false_iff.mpr hexact)
    obtain ⟨hgrid, h0, hle⟩ := roundedPortions_spec hw0 hsum hw (fun p hp => by
      rw [mem_filter, decide_eq_true_eq] at hp
      exact ⟨hreg.share p hp.1, (hwithin p hp.1 hp.2).trans
        (sum_toFixed_le_sumShares hreg.share (hreg.sum hmode))⟩) hx
    exact ⟨hgrid, hle, by linarith⟩

include h

/-- **The portions of a ballot.** -/
theorem portioned : Portioned c.optionCount weight portions := by
  have hlt : ∀ i ∈ (picks.filter (·.choice < c.optionCount)).map (·.choice), i < c.optionCount := by
    simp only [mem_map, mem_filter, decide_eq_true_eq]
    rintro _ ⟨p, ⟨-, hp⟩, rfl⟩
    exact hp
  have hnodup : ((picks.filter (·.choice < c.optionCount)).map (·.choice)).Nodup :=
    nodup_inRange hreg
  unfold Count.portions at h
  cases hmode : c.tally_mode with
  | approval =>
    rw [hmode] at h
    obtain ⟨⟩ := h
    have hcw : 0 ≤ c.optionCount * weight := mul_nonneg (Nat.cast_nonneg _) hw0
    have hzip := portioned_zip hnodup hlt fun x
        (hx : x ∈ (picks.filter (·.choice < c.optionCount)).map fun _ => weight) => by
      obtain ⟨p, hp, rfl⟩ := mem_map.mp hx
      exact ⟨hw.1, le_rfl, by linarith⟩
    rwa [zip_map'] at hzip
  | split =>
    rw [hmode] at h
    split_ifs at h with hsum
    obtain ⟨⟩ := h
    exact portioned_zip hnodup hlt fun x hx => split_spec hw hw0 hreg hrange hmode hsum hx

/-- **The exact rule.** The portions of a ballot with a choice in range add up to its weight. -/
theorem sum_portions (hsplit : c.tally_mode = .split) (hexact : c.exactSplit) :
    (portions.map Prod.snd).sum = if Count.inRange c picks then weight else 0 := by
  unfold Count.portions at h
  rw [hsplit] at h
  split_ifs at h with hsum
  obtain ⟨⟩ := h
  by_cases hne : picks.filter (·.choice < c.optionCount) = []
  · have hno : Count.inRange c picks = false := by
      simpa [Count.inRange] using hne
    rw [hne, hno]
    rfl
  · have hyes : Count.inRange c picks := by
      obtain ⟨p, hp⟩ := exists_mem_of_ne_nil _ hne
      rw [mem_filter] at hp
      exact any_eq_true.mpr ⟨p, hp⟩
    have hspec := exactSplit_spec hw hw0 hreg hrange hsplit hsum hne
    unfold Count.split
    rw [if_pos hexact, hyes, if_pos rfl, map_snd_zip, hspec.sum]
    rw [hspec.length, length_map]

end Ballot

end XChainIndexer.Votes.Portions
