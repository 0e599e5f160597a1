import XChainIndexer.Lib.Keyed
import XChainIndexer.Lib.Overlap
import XChainIndexer.Tokens.Numerals

/-! # The stake-weighted quorum

`consensus/stake_weighted_quorum.js`. A snapshot lists signing keys, each with the source that stands
behind it and that source's weight. A set of signers passes when the sources of its keys have more than
two thirds of the weight of all sources. A snapshot that does not express a threshold passes nobody.

The sums are bignumbers of 64 significant digits, exact on weights that the ledger can hold
(`quorums_overlap`). Two lists may have no key in common (`no_common_key`): a source may sign with
another of its keys. -/

namespace XChainIndexer.Quorum.Stake

open IndexTables Lib.Decimal Lib.Keyed List Lib.Overlap Tokens.Numerals

/-- What the texts are read with. -/
structure Readings where
  trim : Text → Text
  toLowerCase : Text → Text

/-- A row of a snapshot; a field that is `null` or `undefined` is absent. -/
structure Validator where
  pubkey : Text
  source : Option Text
  weight : Option Text

structure Snapshot where
  truncated : Bool
  rows : List (Option Validator)

/-- The weight of each source, as its trimmed text, and the source of each key. -/
structure StakeIndex where
  weightBySource : List (Text × Text)
  pubkeyToSource : List (Text × Text)
deriving DecidableEq

/-- `mathjs.add`. -/
def add (a b : ℚ) : ℚ := toSignificant Bcmath.precision (a + b)

/-- `bcnum` of a trimmed text. -/
def bcnum (t : Text) : ℚ := (number t).getD 0

def readSource (r : Readings) (v : Validator) : Option Text :=
  v.source.filter fun src => r.trim src ≠ []

def readWeight (r : Readings) (v : Validator) : Option Text :=
  (v.weight.map r.trim).filter fun ws => (number ws).isSome

/-- The first weight of a source is the one that counts. -/
def addWeight (r : Readings) (weights : List (Text × Text)) (src : Text) (v : Validator) :
    Option (List (Text × Text)) :=
  if weights.any (·.1 = src) then some weights
  else (readWeight r v).map fun ws => weights ++ [(src, ws)]

def indexRow (r : Readings) (index : StakeIndex) (row : Option Validator) : Option StakeIndex := do
  let v ← row
  let src ← readSource r v
  let weightBySource ← addWeight r index.weightBySource src v
  return ⟨weightBySource, (r.toLowerCase v.pubkey, src) :: index.pubkeyToSource⟩

def indexStakeSources (r : Readings) (rows : List (Option Validator)) : Option StakeIndex :=
  rows.foldlM (indexRow r) ⟨[], []⟩

/-- The sum of the weights, `none` if one is negative. -/
def sumWeights (weightBySource : List (Text × Text)) : Option ℚ :=
  weightBySource.foldlM (fun sum w => if bcnum w.2 < 0 then none else some (add sum (bcnum w.2))) 0

/-- `none` where it throws. -/
def totalStake (r : Readings) (snapshot : Snapshot) : Option ℚ :=
  if snapshot.truncated then none
  else do
    let weightBySource ← snapshot.rows.foldlM (fun weights row => do
      let v ← row
      let src ← readSource r v
      addWeight r weights src v) []
    sumWeights weightBySource

def sumStakeWeights (weightBySource : List (Text × Text)) : Option ℚ :=
  (sumWeights weightBySource).filter fun total => 0 < total

structure Tally where
  countedSources : List Text
  seenPubkeys : List Text
  tally : ℚ

def sourceOf (r : Readings) (index : StakeIndex) (pk : Text) : Option Text :=
  index.pubkeyToSource.lookup (r.toLowerCase pk)

def weightOf (index : StakeIndex) (src : Text) : ℚ :=
  bcnum ((index.weightBySource.lookup src).getD [])

def countSigner (r : Readings) (index : StakeIndex) (t : Tally) (pk : Text) : Tally :=
  let lpk := r.toLowerCase pk
  if lpk ∈ t.seenPubkeys then t
  else
    let seenPubkeys := lpk :: t.seenPubkeys
    match sourceOf r index pk with
    | none => { t with seenPubkeys }
    | some src =>
      if src ∈ t.countedSources then { t with seenPubkeys }
      else ⟨src :: t.countedSources, seenPubkeys, add t.tally (weightOf index src)⟩

def sumSignerStake (r : Readings) (index : StakeIndex) (signerPubkeys : List Text) : ℚ :=
  (signerPubkeys.foldl (countSigner r index) ⟨[], [], 0⟩).tally

def meetsStakeThreshold (r : Readings) (snapshot : Snapshot) (signerPubkeys : List Text) : Bool :=
  !snapshot.truncated &&
    match indexStakeSources r snapshot.rows with
    | none => false
    | some index =>
      match sumStakeWeights index.weightBySource with
      | none => false
      | some total =>
        toSignificant Bcmath.precision (total * 2) <
          toSignificant Bcmath.precision (sumSignerStake r index signerPubkeys * 3)

/-! ### The index -/

variable {r : Readings}

def StakeIndex.sources (index : StakeIndex) : Finset Text := (index.weightBySource.map Prod.fst).toFinset

/-- Every source has one weight, and every key a source with a weight. -/
structure StakeIndex.Ok (index : StakeIndex) : Prop where
  nodup : (index.weightBySource.map Prod.fst).Nodup
  known : ∀ p ∈ index.pubkeyToSource, p.2 ∈ index.weightBySource.map Prod.fst

variable {index : StakeIndex} {index' : StakeIndex}

theorem indexRow_ok {row : Option Validator} (h : index.Ok)
    (hrow : indexRow r index row = some index') : index'.Ok := by
  simp only [indexRow, Option.bind_eq_bind, Option.bind_eq_some_iff, Option.pure_def,
    Option.some.injEq] at hrow
  obtain ⟨v, -, src, -, weights, hweights, rfl⟩ := hrow
  unfold addWeight at hweights
  split_ifs at hweights with hany
  · obtain ⟨⟩ := hweights
    refine ⟨h.nodup, ?_⟩
    rw [forall_mem_cons]
    refine ⟨?_, h.known⟩
    obtain ⟨p, hp, he⟩ := any_eq_true.mp hany
    exact mem_map.mpr ⟨p, hp, of_decide_eq_true he⟩
  · obtain ⟨ws, -, rfl⟩ := Option.map_eq_some_iff.mp hweights
    have hnew : src ∉ index.weightBySource.map Prod.fst := by
      intro hmem
      obtain ⟨p, hp, he⟩ := mem_map.mp hmem
      exact hany (any_eq_true.mpr ⟨p, hp, decide_eq_true he⟩)
    constructor
    · rw [map_append]
      exact h.nodup.append (nodup_singleton src) (by simpa using hnew)
    · rw [forall_mem_cons]
      simp only [map_append, map_singleton, mem_append, mem_singleton, or_true, true_and]
      exact fun p hp => Or.inl (h.known p hp)

variable {rows : List (Option Validator)}

theorem foldlM_indexRow_ok (h : index.Ok)
    (hrows : rows.foldlM (indexRow r) index = some index') : index'.Ok := by
  induction rows generalizing index with
  | nil => exact Option.some.inj hrows ▸ h
  | cons row rows ih =>
    obtain ⟨next, hnext, hrest⟩ := Option.bind_eq_some_iff.mp hrows
    exact ih (indexRow_ok h hnext) hrest

theorem indexStakeSources_ok (h : indexStakeSources r rows = some index) : index.Ok := by
  have hempty : StakeIndex.Ok ⟨[], []⟩ := ⟨nodup_nil, by simp⟩
  exact foldlM_indexRow_ok hempty h

variable {snapshot : Snapshot}

theorem totalStake_eq (h : snapshot.truncated = false) : totalStake r snapshot =
      (indexStakeSources r snapshot.rows).bind fun index => sumWeights index.weightBySource := by
  have hfold : ∀ (rows : List (Option Validator)) (index : StakeIndex), rows.foldlM (fun weights row => do
        let v ← row
        let src ← readSource r v
        addWeight r weights src v) index.weightBySource =
      (rows.foldlM (indexRow r) index).map StakeIndex.weightBySource := by
    intro rows
    induction rows with
    | nil => intro index; rfl
    | cons row rows ih =>
      intro index
      cases row with
      | none => rfl
      | some v =>
        cases hsrc : readSource r v with
        | none => simp [indexRow, hsrc]
        | some src =>
          cases hw : addWeight r index.weightBySource src v with
          | none => simp [indexRow, hsrc, hw]
          | some weights =>
            have := ih ⟨weights, (r.toLowerCase v.pubkey, src) :: index.pubkeyToSource⟩
            simpa [indexRow, hsrc, hw] using this
  rw [totalStake, h, hfold snapshot.rows ⟨[], []⟩]
  exact Option.bind_map

/-! ### The tally -/

/-- The sources that the signers stand for. -/
def represented (r : Readings) (index : StakeIndex) (signers : List Text) : Finset Text :=
  (signers.filterMap (sourceOf r index)).toFinset

variable {signers : List Text}

theorem mem_represented {src : Text} :
    src ∈ represented r index signers ↔ ∃ pk ∈ signers, sourceOf r index pk = some src := by
  simp [represented]

theorem represented_subset (h : index.Ok) (signers : List Text) :
    represented r index signers ⊆ index.sources := by
  intro src hsrc
  obtain ⟨pk, -, hpk⟩ := mem_represented.mp hsrc
  have hmem : (r.toLowerCase pk, src) ∈ index.pubkeyToSource :=
    Lib.Assoc.mem_of_lookup hpk
  exact mem_toFinset.mpr (h.known _ hmem)

theorem represented_concat (index : StakeIndex) (signers : List Text) (pk : Text) :
    represented r index (signers ++ [pk]) = match sourceOf r index pk with
      | none => represented r index signers
      | some src => insert src (represented r index signers) := by
  cases hpk : sourceOf r index pk with
  | none => simp [represented, hpk]
  | some src' => simp [represented, hpk]

/-- Weights that the ledger can hold: at most 18 decimals, and fewer than 46 digits before the point in
the sum over the sources. -/
structure StakeIndex.Exact (index : StakeIndex) : Prop where
  grid : ∀ w ∈ index.weightBySource, OnGrid 18 (bcnum w.2)
  lt : (index.weightBySource.map fun w => bcnum w.2).sum < 10 ^ 45

theorem toSignificant_eq {x : ℚ} (hgrid : OnGrid 18 x) (h0 : 0 ≤ x) (hlt : x < 10 ^ 46) :
    toSignificant Bcmath.precision x = x := by
  refine toSignificant_of_onGrid hgrid ?_
  rw [abs_of_nonneg h0]
  unfold Bcmath.precision
  norm_num at hlt ⊢
  exact hlt

section Exact
variable {index : StakeIndex} (hok : index.Ok)
include hok

theorem weightOf_eq {w : Text × Text} (hw : w ∈ index.weightBySource) : weightOf index w.1 = bcnum w.2 := by
  rw [weightOf, (Lib.Assoc.lookup_eq_some_iff hok.nodup).mpr hw]
  rfl

theorem sum_weightOf :
    ∑ src ∈ index.sources, weightOf index src = (index.weightBySource.map fun w => bcnum w.2).sum := by
  rw [StakeIndex.sources, sum_toFinset _ hok.nodup, map_map]
  congr 1
  exact map_congr_left fun w hw => weightOf_eq hok hw

theorem forall_sources {P : ℚ → Prop} (h : ∀ w ∈ index.weightBySource, P (bcnum w.2)) :
    ∀ src ∈ index.sources, P (weightOf index src) := by
  intro src hsrc
  obtain ⟨w, hw, rfl⟩ := mem_map.mp (mem_toFinset.mp hsrc)
  rw [weightOf_eq hok hw]
  exact h w hw

end Exact

variable {total : ℚ} {weights : List (Text × Text)}

theorem foldlM_sumWeights {acc : ℚ}
    (h : weights.foldlM (fun sum w => if bcnum w.2 < 0 then none else some (add sum (bcnum w.2))) acc =
      some total) : (∀ w ∈ weights, 0 ≤ bcnum w.2) ∧
      (OnGrid 18 acc → 0 ≤ acc → (∀ w ∈ weights, OnGrid 18 (bcnum w.2)) →
        acc + (weights.map fun w => bcnum w.2).sum < 10 ^ 45 →
        total = acc + (weights.map fun w => bcnum w.2).sum) := by
  induction weights generalizing acc with
  | nil =>
    obtain ⟨⟩ := h
    simp
  | cons w weights ih =>
    rw [foldlM_cons] at h
    split_ifs at h with hneg
    · cases h
    · have hw0 : 0 ≤ bcnum w.2 := not_lt.mp hneg
      obtain ⟨hnonneg, hsum⟩ := ih h
      refine ⟨forall_mem_cons.mpr ⟨hw0, hnonneg⟩, fun hgrid hacc hgrids hlt => ?_⟩
      rw [forall_mem_cons] at hgrids
      rw [map_cons, sum_cons, ← add_assoc] at hlt ⊢
      have hrest : 0 ≤ (weights.map fun w => bcnum w.2).sum := by
        refine sum_nonneg fun x hx => ?_
        obtain ⟨w', hw', rfl⟩ := mem_map.mp hx
        exact hnonneg w' hw'
      have hadd : add acc (bcnum w.2) = acc + bcnum w.2 := by
        refine toSignificant_eq (hgrid.add hgrids.1) (add_nonneg hacc hw0) ?_
        linarith
      rw [hadd] at hsum
      exact hsum (hgrid.add hgrids.1) (add_nonneg hacc hw0) hgrids.2 hlt

theorem exists_sumWeights (h : ∀ w ∈ weights, 0 ≤ bcnum w.2) : ∃ total, sumWeights weights = some total := by
  suffices ∀ acc : ℚ, ∃ total, weights.foldlM (fun (sum : ℚ) w =>
      if bcnum w.2 < 0 then none else some (add sum (bcnum w.2))) acc = some total from this 0
  induction weights with
  | nil => exact fun acc => ⟨acc, rfl⟩
  | cons w weights ih =>
    intro acc
    obtain ⟨hw, hrest⟩ := forall_mem_cons.mp h
    rw [foldlM_cons, if_neg (not_lt.mpr hw)]
    exact ih hrest (add acc (bcnum w.2))

theorem sumWeights_eq (hex : index.Exact) (h : sumWeights index.weightBySource = some total) :
    (∀ w ∈ index.weightBySource, 0 ≤ bcnum w.2) ∧
      total = (index.weightBySource.map fun w => bcnum w.2).sum := by
  obtain ⟨hnonneg, hsum⟩ := foldlM_sumWeights h
  rw [zero_add] at hsum
  exact ⟨hnonneg, hsum (onGrid_zero 18) le_rfl hex.grid hex.lt⟩

/-- What the loop knows after the signers. -/
structure Counted (r : Readings) (index : StakeIndex) (signers : List Text) (t : Tally) : Prop where
  mem : ∀ src, src ∈ t.countedSources ↔ src ∈ represented r index signers
  seen : ∀ k ∈ t.seenPubkeys, ∃ pk ∈ signers, r.toLowerCase pk = k
  sum : t.tally = ∑ src ∈ represented r index signers, weightOf index src

variable {signers' : List Text} {t : Tally}

theorem Counted.of_same (h : Counted r index signers t)
    (hsame : represented r index signers' = represented r index signers) {seen : List Text}
    (hseen : ∀ k ∈ seen, ∃ pk ∈ signers', r.toLowerCase pk = k) :
    Counted r index signers' ⟨t.countedSources, seen, t.tally⟩ := by
  refine ⟨fun src => ?_, hseen, ?_⟩
  · rw [hsame]
    exact h.mem src
  · rw [hsame]
    exact h.sum

section Tally
variable {index : StakeIndex} (hok : index.Ok) (hex : index.Exact)
  (hnonneg : ∀ w ∈ index.weightBySource, 0 ≤ bcnum w.2)
include hok hex hnonneg

theorem sum_sources_lt {sources : Finset Text} (hsub : sources ⊆ index.sources) :
    0 ≤ ∑ src ∈ sources, weightOf index src ∧ ∑ src ∈ sources, weightOf index src < 10 ^ 45 ∧
      OnGrid 18 (∑ src ∈ sources, weightOf index src) := by
  have h0 := forall_sources hok hnonneg
  have hgrid := forall_sources hok hex.grid
  refine ⟨Finset.sum_nonneg fun src hsrc => h0 src (hsub hsrc), ?_, ?_⟩
  · have hle := Finset.sum_le_sum_of_subset_of_nonneg hsub fun src hsrc _ => h0 src hsrc
    rw [sum_weightOf hok] at hle
    exact hle.trans_lt hex.lt
  · rw [← Finset.sum_map_toList]
    refine onGrid_sum fun x hx => ?_
    obtain ⟨src, hsrc, rfl⟩ := mem_map.mp hx
    exact hgrid src (hsub (Finset.mem_toList.mp hsrc))

theorem Counted.step {signers : List Text} (h : Counted r index signers t) (pk : Text) :
    Counted r index (signers ++ [pk]) (countSigner r index t pk) := by
  have hconcat := @represented_concat r index signers pk
  have hold : ∀ k ∈ t.seenPubkeys, ∃ pk' ∈ signers ++ [pk], r.toLowerCase pk' = k := by
    intro k hk
    obtain ⟨pk', hpk', he⟩ := h.seen k hk
    exact ⟨pk', by simp [hpk'], he⟩
  have hseen : ∀ k ∈ r.toLowerCase pk :: t.seenPubkeys, ∃ pk' ∈ signers ++ [pk], r.toLowerCase pk' = k := by
    rw [forall_mem_cons]
    exact ⟨⟨pk, by simp, rfl⟩, hold⟩
  unfold countSigner
  dsimp only
  split_ifs with hagain
  · -- the source of a key seen before is represented already
    refine h.of_same ?_ hold
    obtain ⟨pk', hpk', he⟩ := h.seen _ hagain
    rw [hconcat]
    cases hpk : sourceOf r index pk with
    | none => rfl
    | some src =>
      refine Finset.insert_eq_of_mem (mem_represented.mpr ⟨pk', hpk', ?_⟩)
      rw [sourceOf, he]
      exact hpk
  · cases hpk : sourceOf r index pk with
    | none =>
      rw [hpk] at hconcat
      exact h.of_same hconcat hseen
    | some src =>
      rw [hpk] at hconcat
      dsimp only at hconcat ⊢
      split_ifs with hcounted
      · exact h.of_same (hconcat.trans (Finset.insert_eq_of_mem ((h.mem src).mp hcounted))) hseen
      · have hnew : src ∉ represented r index signers := fun hm => hcounted ((h.mem src).mpr hm)
        have hsub : represented r index (signers ++ [pk]) ⊆ index.sources := represented_subset hok _
        refine ⟨fun src' => ?_, hseen, ?_⟩
        · rw [hconcat, mem_cons, Finset.mem_insert, h.mem]
        · obtain ⟨hsum0, hsumlt, hsumgrid⟩ := sum_sources_lt hok hex hnonneg hsub
          rw [hconcat, Finset.sum_insert hnew, add_comm (weightOf index src)] at hsum0 hsumlt hsumgrid ⊢
          rw [h.sum]
          exact toSignificant_eq hsumgrid hsum0 (hsumlt.trans (by norm_num))

theorem sumSignerStake_eq (signers : List Text) :
    sumSignerStake r index signers = ∑ src ∈ represented r index signers, weightOf index src := by
  have hcounted : Counted r index signers (signers.foldl (countSigner r index) ⟨[], [], 0⟩) := by
    induction signers using List.reverseRecOn with
    | nil => exact ⟨by simp [represented], by simp, by simp [represented]⟩
    | append_singleton signers pk ih =>
      rw [foldl_append]
      exact ih.step hok hex hnonneg pk
  exact hcounted.sum

end Tally

/-! ### The verdict -/

section
variable (hindex : indexStakeSources r snapshot.rows = some index) (hex : index.Exact) (signers : List Text)
include hindex hex

theorem meetsStakeThreshold_of_total (htotal : sumWeights index.weightBySource = some total) :
    meetsStakeThreshold r snapshot signers ↔ snapshot.truncated = false ∧
      2 * ∑ src ∈ index.sources, weightOf index src <
        3 * ∑ src ∈ represented r index signers, weightOf index src := by
  have hok := indexStakeSources_ok hindex
  have hsub : represented r index signers ⊆ index.sources := represented_subset hok signers
  obtain ⟨hnonneg, heq⟩ := sumWeights_eq hex htotal
  obtain ⟨hall0, halllt, hallgrid⟩ := sum_sources_lt hok hex hnonneg (Finset.Subset.refl _)
  obtain ⟨hsum0, hsumlt, hsumgrid⟩ := sum_sources_lt hok hex hnonneg hsub
  have hle : ∑ src ∈ represented r index signers, weightOf index src ≤
      ∑ src ∈ index.sources, weightOf index src :=
    Finset.sum_le_sum_of_subset_of_nonneg hsub fun src hsrc _ => forall_sources hok hnonneg src hsrc
  rw [← sum_weightOf hok] at heq
  have htwo : toSignificant Bcmath.precision (total * 2) = 2 * ∑ src ∈ index.sources, weightOf index src := by
    rw [heq, mul_two, two_mul]
    refine toSignificant_eq (hallgrid.add hallgrid) (add_nonneg hall0 hall0) ?_
    linarith
  have hthree : toSignificant Bcmath.precision (sumSignerStake r index signers * 3) =
      3 * ∑ src ∈ represented r index signers, weightOf index src := by
    rw [sumSignerStake_eq hok hex hnonneg, mul_comm]
    have hgrid := (hsumgrid.add hsumgrid).add hsumgrid
    refine toSignificant_eq ?_ (by linarith) (by norm_num at hsumlt ⊢; linarith)
    convert hgrid using 1
    ring
  unfold meetsStakeThreshold sumStakeWeights
  rw [hindex]
  dsimp only
  rw [htotal, Option.filter_some]
  by_cases hpos : 0 < total
  · rw [if_pos (decide_eq_true hpos)]
    simp [htwo, hthree]
  · rw [if_neg (by simpa using hpos)]
    simp only [Bool.and_false, Bool.false_eq_true, false_iff, not_and, not_lt]
    intro _
    linarith

/-- **The verdict is that of the exact weights.** -/
theorem meetsStakeThreshold_iff : meetsStakeThreshold r snapshot signers ↔
      snapshot.truncated = false ∧ (∀ w ∈ index.weightBySource, 0 ≤ bcnum w.2) ∧
        2 * ∑ src ∈ index.sources, weightOf index src <
          3 * ∑ src ∈ represented r index signers, weightOf index src := by
  constructor
  · intro h
    cases htotal : sumWeights index.weightBySource with
    | none => simp [meetsStakeThreshold, hindex, sumStakeWeights, htotal] at h
    | some total =>
      obtain ⟨htruncated, hlt⟩ := (meetsStakeThreshold_of_total hindex hex signers htotal).mp h
      exact ⟨htruncated, (sumWeights_eq hex htotal).1, hlt⟩
  · rintro ⟨htruncated, hnonneg, hlt⟩
    obtain ⟨total, htotal⟩ := exists_sumWeights hnonneg
    exact (meetsStakeThreshold_of_total hindex hex signers htotal).mpr ⟨htruncated, hlt⟩

end

/-- The weights of the snapshot are ones that the ledger can hold. -/
def Snapshot.Exact (r : Readings) (snapshot : Snapshot) : Prop :=
  ∀ index ∈ indexStakeSources r snapshot.rows, index.Exact

/-- The sources that the signers stand for, none if the snapshot has no index. -/
def standsFor (r : Readings) (snapshot : Snapshot) (signers : List Text) : Finset Text :=
  match indexStakeSources r snapshot.rows with
  | none => ∅
  | some index => represented r index signers

def stakeOf (r : Readings) (snapshot : Snapshot) (src : Text) : ℚ :=
  match indexStakeSources r snapshot.rows with
  | none => 0
  | some index => weightOf index src

theorem exists_index_of_meets (h : meetsStakeThreshold r snapshot signers) :
    ∃ index, indexStakeSources r snapshot.rows = some index := by
  cases hindex : indexStakeSources r snapshot.rows with
  | none => simp [meetsStakeThreshold, hindex] at h
  | some index => exact ⟨index, rfl⟩

theorem meets_of_standsFor_subset (hex : snapshot.Exact r)
    (hsub : standsFor r snapshot signers ⊆ standsFor r snapshot signers')
    (h : meetsStakeThreshold r snapshot signers) : meetsStakeThreshold r snapshot signers' := by
  obtain ⟨index, hindex⟩ := exists_index_of_meets h
  have hok := indexStakeSources_ok hindex
  simp only [standsFor, hindex] at hsub
  rw [meetsStakeThreshold_iff hindex (hex index hindex)] at h ⊢
  obtain ⟨htruncated, hnonneg, hlt⟩ := h
  have hle : ∑ src ∈ represented r index signers, weightOf index src ≤
      ∑ src ∈ represented r index signers', weightOf index src :=
    Finset.sum_le_sum_of_subset_of_nonneg hsub fun src hsrc _ =>
      forall_sources hok hnonneg src (represented_subset hok _ hsrc)
  exact ⟨htruncated, hnonneg, by linarith⟩

theorem standsFor_subset (h : signers.map r.toLowerCase ⊆ signers'.map r.toLowerCase) :
    standsFor r snapshot signers ⊆ standsFor r snapshot signers' := by
  unfold standsFor
  cases indexStakeSources r snapshot.rows with
  | none => exact Finset.Subset.refl _
  | some index =>
    intro src hsrc
    obtain ⟨pk, hpk, hsource⟩ := mem_represented.mp hsrc
    obtain ⟨pk', hpk', he⟩ := mem_map.mp (h (mem_map_of_mem hpk))
    exact mem_represented.mpr ⟨pk', hpk', by rw [sourceOf, he]; exact hsource⟩

/-- **Lists that pass have a third of the stake in common.** -/
theorem third_lt_of_meets (hex : snapshot.Exact r) (h : meetsStakeThreshold r snapshot signers)
    (h' : meetsStakeThreshold r snapshot signers') : ∃ total, totalStake r snapshot = some total ∧
      total < 3 * ∑ src ∈ standsFor r snapshot signers ∩ standsFor r snapshot signers',
        stakeOf r snapshot src := by
  obtain ⟨index, hindex⟩ := exists_index_of_meets h
  have hok := indexStakeSources_ok hindex
  have hexact := hex index hindex
  rw [meetsStakeThreshold_iff hindex hexact] at h h'
  obtain ⟨htruncated, hnonneg, hlt⟩ := h
  obtain ⟨total, htotal⟩ := exists_sumWeights hnonneg
  refine ⟨total, by rw [totalStake_eq htruncated, hindex]; exact htotal, ?_⟩
  have hthird := third_lt_sum_inter (forall_sources hok hnonneg) (represented_subset hok signers)
    (represented_subset hok signers') hlt h'.2.2
  rw [(sumWeights_eq hexact htotal).2, ← sum_weightOf hok]
  simpa only [standsFor, stakeOf, hindex] using hthird

theorem not_meets_of_totalStake (signers : List Text)
    (h : totalStake r snapshot = none ∨ totalStake r snapshot = some 0) :
    meetsStakeThreshold r snapshot signers = false := by
  cases htruncated : snapshot.truncated with
  | true => simp [meetsStakeThreshold, htruncated]
  | false =>
    rw [totalStake_eq htruncated] at h
    cases hindex : indexStakeSources r snapshot.rows with
    | none => simp [meetsStakeThreshold, hindex]
    | some index =>
      simp only [hindex, Option.bind_some] at h
      rcases h with h | h <;> simp [meetsStakeThreshold, hindex, sumStakeWeights, h, Option.filter_some]

/-- **Quorums overlap in stake.** On weights that the ledger can hold, the sources that stand behind two
lists that pass have more than a third of the stake in common. The verdict is the same for lists with the
same keys in lower case, in any order and number, and for lists of the same sources, whichever of their
keys signed; and signers may be added. On any weights a stake of zero, or one that cannot be read, passes
nobody. -/
theorem quorums_overlap (r : Readings) (snapshot : Snapshot) :
    (snapshot.Exact r →
      (∀ signers signers', meetsStakeThreshold r snapshot signers = true →
        meetsStakeThreshold r snapshot signers' = true →
        ∃ total, totalStake r snapshot = some total ∧
          total < 3 * ∑ src ∈ standsFor r snapshot signers ∩ standsFor r snapshot signers',
            stakeOf r snapshot src) ∧
      (∀ signers signers', (∀ pk, pk ∈ signers.map r.toLowerCase ↔ pk ∈ signers'.map r.toLowerCase) →
        meetsStakeThreshold r snapshot signers = meetsStakeThreshold r snapshot signers') ∧
      (∀ signers signers', standsFor r snapshot signers = standsFor r snapshot signers' →
        meetsStakeThreshold r snapshot signers = meetsStakeThreshold r snapshot signers') ∧
      (∀ signers signers', signers ⊆ signers' → meetsStakeThreshold r snapshot signers = true →
        meetsStakeThreshold r snapshot signers' = true)) ∧
    (∀ signers, totalStake r snapshot = none ∨ totalStake r snapshot = some 0 →
      meetsStakeThreshold r snapshot signers = false) := by
  refine ⟨fun hex => ?_, fun signers h => not_meets_of_totalStake signers h⟩
  have hsame : ∀ signers signers', standsFor r snapshot signers = standsFor r snapshot signers' →
      meetsStakeThreshold r snapshot signers = meetsStakeThreshold r snapshot signers' := by
    intro signers signers' h
    rw [Bool.eq_iff_iff]
    exact ⟨meets_of_standsFor_subset hex h.subset, meets_of_standsFor_subset hex h.symm.subset⟩
  refine ⟨fun signers signers' h h' => third_lt_of_meets hex h h', ?_, hsame, ?_⟩
  · intro signers signers' h
    refine hsame signers signers' (Finset.Subset.antisymm ?_ ?_)
    · exact standsFor_subset fun pk hpk => (h pk).mp hpk
    · exact standsFor_subset fun pk hpk => (h pk).mpr hpk
  · intro signers signers' h hmeets
    exact meets_of_standsFor_subset hex (standsFor_subset (map_subset _ h)) hmeets

/-! ### Two keys of one source, and weights of 64 digits -/

/-- Texts without blanks, in ASCII. -/
def ascii : Readings := ⟨id, List.map Char.toLower⟩

def row (pubkey source weight : String) : Option Validator :=
  some ⟨pubkey.toList, some source.toList, some weight.toList⟩

/-- A source with two keys and one with one. -/
def twoKeys : Snapshot := ⟨false, [row "a1" "A" "5", row "a2" "A" "5", row "b1" "B" "1.5"]⟩

theorem twoKeys_exact : twoKeys.Exact ascii := by
  intro index hindex
  obtain ⟨⟩ := hindex
  exact ⟨by decide +kernel, by decide +kernel⟩

/-- The lists `a1` and `A2`, `b1` pass. -/
theorem quorums_overlap_twoKeys :
    meetsStakeThreshold ascii twoKeys ["a1".toList] = true ∧
      meetsStakeThreshold ascii twoKeys ["A2".toList, "b1".toList] = true ∧
      ∃ total, totalStake ascii twoKeys = some total ∧
        total < 3 * ∑ src ∈ standsFor ascii twoKeys ["a1".toList] ∩
          standsFor ascii twoKeys ["A2".toList, "b1".toList], stakeOf ascii twoKeys src := by
  have h : meetsStakeThreshold ascii twoKeys ["a1".toList] = true := by decide +kernel
  have h' : meetsStakeThreshold ascii twoKeys ["A2".toList, "b1".toList] = true := by decide +kernel
  exact ⟨h, h', ((quorums_overlap ascii twoKeys).1 twoKeys_exact).1 _ _ h h'⟩

/-- Three sources with a weight of 64 digits each. -/
def heavy : Snapshot :=
  let weight := "4000000000000000000000000000000000000000000000000000000000000001"
  ⟨false, [row "a" "A" weight, row "b" "B" weight, row "c" "C" weight]⟩

/-- **No common key.** Two lists that pass may have no key in common; and on weights of 64 digits the sums
are rounded, so that two lists pass whose only common source has no more than a third of the stake. -/
theorem no_common_key :
    (meetsStakeThreshold ascii twoKeys ["a1".toList] = true ∧
      meetsStakeThreshold ascii twoKeys ["a2".toList] = true ∧
      ["a1".toList].Disjoint ["a2".toList]) ∧
    (meetsStakeThreshold ascii heavy ["a".toList, "b".toList] = true ∧
      meetsStakeThreshold ascii heavy ["b".toList, "c".toList] = true ∧
      3 * stakeOf ascii heavy ['B'] =
        stakeOf ascii heavy ['A'] + stakeOf ascii heavy ['B'] + stakeOf ascii heavy ['C']) := by
  refine ⟨⟨by decide +kernel, by decide +kernel, by simp⟩, by decide +kernel, by decide +kernel, ?_⟩
  decide +kernel

end XChainIndexer.Quorum.Stake
