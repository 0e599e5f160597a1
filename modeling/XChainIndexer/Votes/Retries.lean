import XChainIndexer.Votes.Watermark

/-! # The cached sweep over runs with retries

Skipping unchanged tallies changes nothing (`same_tables`), provided that new rows come under new action
indices and that a block whose attempt was aborted after the sweep had evaluated a poll is retried as it
was. The cache is not rolled back with the tables, so the second proviso is needed: `stale_watermark`
retries with another block, whose vote takes the action index of the aborted one. -/

namespace XChainIndexer.Votes.Retries

open Lib.Maximum Votes.PollTally Votes.Sweep List Votes.Watermark

/-! ### Blocks that write new rows -/

def index : Write → ℕ
  | .poll row => row.action_index
  | .vote row => row.action_index
  | .delegation row => row.action_index
  | .credit row => row.action_index
  | .debit row => row.action_index

def blockOf : Write → ℕ
  | .poll _ => 0
  | .vote _ => 0
  | .delegation row => row.block_index
  | .credit row => row.block_index
  | .debit row => row.block_index

/-- Rows under new action indices, of this block. -/
def FreshWrites (height : ℕ) (t : Tables) (writes : List Write) : Prop :=
  ∀ w ∈ writes, maxIndex t < index w ∧ blockOf w ≤ height

/-- A block whose actions and passes write new rows. -/
structure Fresh (b : Block) (height : ℕ) : Prop where
  actions : ∀ t, FreshWrites height t (b.actions t)
  finalized : ∀ i t, FreshWrites height t (b.finalized i t)
  after : ∀ t, FreshWrites height t (b.after t)

theorem extends_record {m : ℕ} {rows rows' : List LedgerRow}
    (h : Extends (·.action_index) m rows rows') (hm : ∀ q ∈ rows, q.action_index ≤ m) {r : LedgerRow}
    (hr : m < r.action_index) : Extends (·.action_index) m rows (createLedgerChangeRecord rows' r) := by
  unfold createLedgerChangeRecord
  split_ifs
  · -- a row that is replaced has the new index, so it is not one of the old rows
    obtain ⟨new, rfl, hnew⟩ := h
    refine ⟨new.map fun q => if q.action_index = r.action_index ∧ q.tick = r.tick ∧
      q.address = r.address then r else q, ?_, fun q hq => ?_⟩
    · rw [map_append]
      congr 1
      exact (map_congr_left fun q hq => if_neg fun ⟨he, _⟩ =>
        absurd (he ▸ hm q hq) (by omega)).trans (map_id rows)
    · obtain ⟨q', hq', rfl⟩ := mem_map.mp hq
      split_ifs
      · exact hr
      · exact hnew q' hq'
  · exact h.append hr

theorem mem_record {rows : List LedgerRow} {r q : LedgerRow}
    (h : q ∈ createLedgerChangeRecord rows r) : q ∈ rows ∨ q = r := by
  unfold createLedgerChangeRecord at h
  split_ifs at h
  · obtain ⟨q', hq', rfl⟩ := mem_map.mp h
    split_ifs
    · exact .inr rfl
    · exact .inl hq'
  · simpa using h

/-- Growth measured against the highest index before the writes. -/
structure Above (m : ℕ) (t t' : Tables) : Prop where
  votes : Extends (·.action_index) m t.votes t'.votes
  delegations : Extends (·.action_index) m t.delegations t'.delegations
  credits : Extends (·.action_index) m t.credits t'.credits
  debits : Extends (·.action_index) m t.debits t'.debits
  polls : t.polls ⊆ t'.polls

variable {t : Tables}

theorem le_maxIndex :
    (∀ r ∈ t.credits, r.action_index ≤ maxIndex t) ∧ ∀ r ∈ t.debits, r.action_index ≤ maxIndex t := by
  constructor <;> intro r hr <;> refine le_maxOf ?_ <;> simp only [indices, mem_append]
  · exact .inl (.inr (mem_map_of_mem hr))
  · exact .inr (mem_map_of_mem hr)

variable {t' : Tables} {w : Write}

theorem above_apply (h : Above (maxIndex t) t t')
    (hw : maxIndex t < index w) : Above (maxIndex t) t (w.apply t') := by
  cases w with
  | poll row =>
    unfold Write.apply
    dsimp only
    split_ifs
    · exact h
    · exact { h with polls := fun p hp => mem_append_left _ (h.polls hp) }
  | vote row => exact { h with votes := h.votes.append hw }
  | delegation row => exact { h with delegations := h.delegations.append hw }
  | credit row => exact { h with credits := extends_record h.credits le_maxIndex.1 hw }
  | debit row => exact { h with debits := extends_record h.debits le_maxIndex.2 hw }

variable {height : ℕ}

theorem valid_apply (h : Valid t height) (hw : blockOf w ≤ height) : Valid (w.apply t) height := by
  cases w with
  | poll row =>
    unfold Write.apply
    dsimp only
    split_ifs with hany
    · exact h
    · refine { h with polls := ?_ }
      simp only [any_eq_true, decide_eq_true_eq, not_exists, not_and] at hany
      rw [map_append]
      refine h.polls.append (nodup_singleton _) fun i hi hi' => ?_
      obtain ⟨p, hp, rfl⟩ := mem_map.mp hi
      exact hany p hp (by simpa using hi')
  | vote row => exact { h with }
  | delegation row =>
    refine { h with delegations := fun r hr => ?_ }
    rcases mem_append.mp hr with hr | hr
    · exact h.delegations r hr
    · obtain rfl := mem_singleton.mp hr
      exact hw
  | credit row =>
    refine { h with credits := fun r hr => ?_ }
    rcases mem_record hr with hr | rfl
    · exact h.credits r hr
    · exact hw
  | debit row =>
    refine { h with debits := fun r hr => ?_ }
    rcases mem_record hr with hr | rfl
    · exact h.debits r hr
    · exact hw

/-- Growth within the block: the tables grow and stay valid. -/
structure Later (height : ℕ) (t t' : Tables) : Prop where
  grows : Grows t t'
  valid : Valid t height → Valid t' height

theorem Later.refl (height : ℕ) (t : Tables) : Later height t t := ⟨.refl t, id⟩

theorem Later.trans {t' t'' : Tables} (h : Later height t t') (h' : Later height t' t'') :
    Later height t t'' :=
  ⟨h.grows.trans h'.grows, fun hv => h'.valid (h.valid hv)⟩

theorem later_applyAll {writes : List Write} (h : FreshWrites height t writes) :
    Later height t (applyAll t writes) := by
  suffices hall : ∀ t', Above (maxIndex t) t t' → (Valid t height → Valid t' height) →
      Above (maxIndex t) t (applyAll t' writes) ∧ (Valid t height → Valid (applyAll t' writes) height) by
    obtain ⟨ha, hv⟩ := hall t ⟨.refl _ _ _, .refl _ _ _, .refl _ _ _, .refl _ _ _, List.Subset.refl _⟩ id
    exact ⟨⟨ha.votes, ha.delegations, ha.credits, ha.debits, fun p hp => ⟨p, ha.polls hp, rfl⟩⟩, hv⟩
  induction writes with
  | nil => exact fun t' ha hv => ⟨ha, hv⟩
  | cons w ws ih =>
    intro t' ha hv
    obtain ⟨hidx, hblock⟩ := h w (by simp)
    exact ih (fun w' hw' => h w' (by simp [hw'])) _ (above_apply ha hidx)
      fun hv' => valid_apply (hv hv') hblock

theorem later_close (t : Tables) (i closeBlock : ℕ) (tally : Tally) (early : Bool) :
    Later height t { t with polls := t.polls.map fun p =>
      if p.action_index = i then Poll.close p tally closeBlock early else p } where
  grows := by
    refine ⟨.refl _ _ _, .refl _ _ _, .refl _ _ _, .refl _ _ _, fun p hp => ?_⟩
    refine ⟨_, mem_map_of_mem hp, ?_⟩
    split_ifs <;> rfl
  valid hv := by
    refine ⟨?_, hv.delegations, hv.credits, hv.debits⟩
    have hidx : (t.polls.map fun p => if p.action_index = i then Poll.close p tally closeBlock early
        else p).map (·.action_index) = t.polls.map (·.action_index) := by
      rw [map_map]
      refine map_congr_left fun p _ => ?_
      simp only [Function.comp_apply]
      split_ifs <;> rfl
    rw [hidx]
    exact hv.polls

section Block

variable {n : Node} {b : Block} {height : ℕ} (hb : Fresh b height)
include hb

theorem later_finalizePoll (t : Tables) (i closeBlock : ℕ) (early : Bool) :
    Later height t (finalizePoll n b t i closeBlock early) := by
  unfold finalizePoll
  cases getPoll t i with
  | none => exact .refl height t
  | some poll =>
    dsimp only
    split_ifs
    · exact (later_close t i closeBlock _ early).trans (later_applyAll (hb.finalized i _))
    · exact .refl height t

theorem later_evaluateFull (t : Tables) (p : Poll) : Later height t (evaluateFull n b height t p) := by
  unfold evaluateFull
  split_ifs
  · exact later_finalizePoll hb t _ _ _
  · exact .refl height t

theorem later_due (due : List Poll) (t : Tables) : Later height t (due.foldl
    (fun t p => finalizePoll n b t p.action_index p.end_block false) t) := by
  induction due generalizing t with
  | nil => exact .refl height t
  | cons p ps ih => exact (later_finalizePoll hb t _ _ _).trans (ih _)

theorem later_swept (t : Tables) : Later height t (swept n b height t) :=
  (later_applyAll (hb.actions t)).trans (later_due hb _ _)

theorem later_foldl (ps : List Poll) (t : Tables) :
    Later height t (ps.foldl (evaluateFull n b height) t) := by
  induction ps generalizing t with
  | nil => exact .refl height t
  | cons p ps ih => exact (later_evaluateFull hb t p).trans (ih _)

end Block

/-! ### The polls a sweep evaluates -/

/-- Each poll with the tables it is evaluated on. -/
def points (n : Node) (b : Block) (height : ℕ) : Tables → List Poll → List (Poll × Tables)
  | _, [] => []
  | t, p :: ps => (p, t) :: points n b height (evaluateFull n b height t p) ps

/-- A verdict the cache may hold: the poll was tallied on these tables and did not decide. -/
structure Undecided (n : Node) (height : ℕ) (p : Poll) (t : Tables) (watermark : Fingerprint) :
    Prop where
  mode : p.weight_mode ≠ .timeWeighted
  watermark_eq : watermark = getPollTallyInputWatermark n t p height
  decides : decides n t p height = false

section Sweep

variable {n : Node} {b : Block} {height : ℕ}

theorem map_fst_points (t : Tables) (ps : List Poll) : (points n b height t ps).map Prod.fst = ps := by
  induction ps generalizing t with
  | nil => rfl
  | cons p ps ih => rw [points, map_cons, ih]

variable {t : Tables} {ps : List Poll}

theorem nodup_points (h : (ps.map (·.action_index)).Nodup) :
    ((points n b height t ps).map fun e => e.1.action_index).Nodup := by
  have heq : (points n b height t ps).map (fun e => e.1.action_index) =
      ((points n b height t ps).map Prod.fst).map (·.action_index) := by
    rw [map_map]
    rfl
  rw [heq, map_fst_points]
  exact h

theorem points_take (t : Tables) (ps : List Poll) (k : ℕ) :
    points n b height t (ps.take k) = (points n b height t ps).take k := by
  induction ps generalizing t k with
  | nil => simp [points]
  | cons p ps ih =>
    cases k with
    | zero => rfl
    | succ k => rw [take_succ_cons, points, points, take_succ_cons, ih]

variable {p : Poll}

theorem later_points (hb : Fresh b height) (h : (p, t') ∈ points n b height t ps) :
    Later height t t' ∧ Later height t' (ps.foldl (evaluateFull n b height) t) := by
  induction ps generalizing t with
  | nil => exact nomatch h
  | cons q ps ih =>
    rw [points, mem_cons] at h
    rcases h with h | h
    · obtain ⟨⟩ := h
      exact ⟨.refl height _, later_foldl hb _ _⟩
    · obtain ⟨h1, h2⟩ := ih h
      exact ⟨(later_evaluateFull hb t q).trans h1, h2⟩

/-- One poll: the skipped tally would not have decided, so the tables come out the same. -/
theorem evaluateArmedPoll_spec {cache : Cache}
    (hsound : ∀ w, cache p.action_index = some w → p.weight_mode ≠ .timeWeighted →
      w = getPollTallyInputWatermark n t p height → decides n t p height = false) :
    (evaluateArmedPoll n b height (t, cache) p).1 = evaluateFull n b height t p ∧ (∀ i, i ≠ p.action_index →
        (evaluateArmedPoll n b height (t, cache) p).2 i = cache i) ∧
      ∀ w, (evaluateArmedPoll n b height (t, cache) p).2 p.action_index = some w →
        cache p.action_index = some w ∨ Undecided n height p t w := by
  unfold evaluateArmedPoll evaluateFull
  by_cases hskip : p.weight_mode ≠ .timeWeighted ∧
      cache p.action_index = some (getPollTallyInputWatermark n t p height)
  · rw [if_pos hskip, hsound _ hskip.2 hskip.1 rfl]
    exact ⟨rfl, fun _ _ => rfl, fun w hw => .inl hw⟩
  · rw [if_neg hskip]
    by_cases hd : decides n t p height = true
    · rw [if_pos hd, if_pos hd]
      refine ⟨rfl, fun i hi => Function.update_of_ne hi _ _, fun w hw => ?_⟩
      simp at hw
    · rw [if_neg hd, if_neg hd]
      by_cases hm : p.weight_mode ≠ .timeWeighted
      · rw [if_pos hm]
        refine ⟨rfl, fun i hi => Function.update_of_ne hi _ _, fun w hw => .inr ?_⟩
        simp only [Function.update_self, Option.some.injEq] at hw
        exact ⟨hm, hw.symm, by simpa using hd⟩
      · rw [if_neg hm]
        exact ⟨rfl, fun _ _ => rfl, fun w hw => .inl hw⟩

/-- **The sweep.** If no cached verdict is wrong where it would be used, the cached sweep leaves the
tables the full sweep leaves, and what it adds to the cache are verdicts it reached. -/
theorem sweepCached_spec {cache : Cache} (hnodup : (ps.map (·.action_index)).Nodup)
    (hsound : ∀ p t', (p, t') ∈ points n b height t ps → ∀ w, cache p.action_index = some w →
      p.weight_mode ≠ .timeWeighted → w = getPollTallyInputWatermark n t' p height →
      decides n t' p height = false) :
    (sweepCached n b height t cache ps).1 = ps.foldl (evaluateFull n b height) t ∧
      ∀ i w, (sweepCached n b height t cache ps).2 i = some w → cache i = some w ∨
        ∃ p t', (p, t') ∈ points n b height t ps ∧ p.action_index = i ∧ Undecided n height p t' w := by
  induction ps generalizing t cache with
  | nil => exact ⟨rfl, fun i w hw => .inl hw⟩
  | cons p ps ih =>
    rw [map_cons, nodup_cons] at hnodup
    obtain ⟨htables, hother, hself⟩ := evaluateArmedPoll_spec (hsound p t (by simp [points]))
    have hstep : sweepCached n b height t cache (p :: ps) =
        sweepCached n b height (evaluateFull n b height t p)
          (evaluateArmedPoll n b height (t, cache) p).2 ps := by
      unfold sweepCached
      rw [foldl_cons, ← htables]
    have hne : ∀ q t', (q, t') ∈ points n b height (evaluateFull n b height t p) ps →
        q.action_index ≠ p.action_index := fun q t' hq he => by
      refine hnodup.1 (he ▸ mem_map_of_mem ?_)
      rw [← map_fst_points (evaluateFull n b height t p) ps]
      exact mem_map_of_mem hq
    have hrest : ∀ q t', (q, t') ∈ points n b height (evaluateFull n b height t p) ps → ∀ w,
        (evaluateArmedPoll n b height (t, cache) p).2 q.action_index = some w →
        q.weight_mode ≠ .timeWeighted → w = getPollTallyInputWatermark n t' q height →
        decides n t' q height = false := fun q t' hq w hw => by
      rw [hother _ (hne q t' hq)] at hw
      exact hsound q t' (by simp [points, hq]) w hw
    obtain ⟨h1, h2⟩ := ih hnodup.2 hrest
    rw [hstep]
    refine ⟨h1, fun i w hw => ?_⟩
    rcases h2 i w hw with hw | ⟨q, t', hq, hi, hu⟩
    · by_cases hi : i = p.action_index
      · subst hi
        rcases hself w hw with hw | hu
        · exact .inl hw
        · exact .inr ⟨p, t, by simp [points], rfl, hu⟩
      · rw [hother i hi] at hw
        exact .inl hw
    · exact .inr ⟨q, t', by simp [points, hq], hi, hu⟩

end Sweep

/-! ### Runs -/

/-- A cached verdict was reached on tables the present ones have grown from, or in the aborted
attempt that is about to be retried. -/
def Justified (n : Node) (s : FullState) (pending : Option Block) (i : ℕ) (w : Fingerprint) : Prop :=
  (∃ t h p, Valid t h ∧ h ≤ s.height ∧ Grows t s.tables ∧ Defined t p ∧ h < p.end_block ∧
    p.action_index = i ∧ Undecided n h p t w) ∨
  ∃ b, pending = some b ∧ ∃ p t, (p, t) ∈ points n b (s.height + 1)
    (swept n b (s.height + 1) s.tables)
    (getArmedPolls (swept n b (s.height + 1) s.tables) (s.height + 1)) ∧
    p.action_index = i ∧ Undecided n (s.height + 1) p t w

theorem mem_armed (h : p ∈ getArmedPolls t height) : p ∈ t.polls ∧ height < p.end_block := by
  unfold getArmedPolls at h
  rw [mem_insertionSort, mem_filter, decide_eq_true_eq] at h
  exact ⟨h.1, h.2.2.2⟩

theorem nodup_armed (hv : Valid t height) : ((getArmedPolls t height).map (·.action_index)).Nodup :=
  ((perm_insertionSort _ _).map _).nodup_iff.mpr (hv.polls.sublist (filter_sublist.map _))

variable {n : Node}

theorem armed_of_points {b : Block} (hb : Fresh b height) {work : Tables}
    (h : (p, t) ∈ points n b height work (getArmedPolls work height)) :
    Defined t p ∧ height < p.end_block := by
  have hmem : p ∈ getArmedPolls work height := by
    rw [← map_fst_points work (getArmedPolls work height)]
    exact mem_map_of_mem h
  obtain ⟨hp, hend⟩ := mem_armed hmem
  exact ⟨(later_points hb h).1.grows.defined ⟨p, hp, rfl⟩, hend⟩

section Attempt

variable {n : Node} {s : FullState} {pending : Option Block} {b : Block}
  (hb : Fresh b (s.height + 1)) (hv : Valid s.tables s.height)
  (hpending : pending = none ∨ pending = some b)
include hb hv

theorem valid_swept : Valid (swept n b (s.height + 1) s.tables) (s.height + 1) :=
  (later_swept hb s.tables).valid (hv.mono (Nat.le_succ _))

include hpending

variable {w : Fingerprint} {t : Tables}

theorem sound_of_justified {cache : Cache} (hcache : ∀ i w, cache i = some w → Justified n s pending i w)
    (hpt : (p, t) ∈ points n b (s.height + 1) (swept n b (s.height + 1) s.tables)
      (getArmedPolls (swept n b (s.height + 1) s.tables) (s.height + 1)))
    (hw : cache p.action_index = some w) (hfp : w = getPollTallyInputWatermark n t p (s.height + 1))
    : decides n t p (s.height + 1) = false := by
  obtain ⟨hdefined, hend⟩ := armed_of_points hb hpt
  have hlater := (later_swept hb s.tables).trans (later_points hb hpt).1
  rcases hcache _ w hw with ⟨t₀, h₀, p₀, hv₀, hle, hg, hp₀, hend₀, hidx, hu⟩ |
    ⟨b', hb', p', t', hmem, hidx, hu⟩
  · rw [← hu.decides]
    exact decides_eq (hg.trans hlater.grows) hv₀ (hlater.valid (hv.mono (Nat.le_succ _))) hp₀ hdefined
      hidx hend₀ hend hu.mode (hu.watermark_eq.symm.trans hfp)
  · -- the retry evaluates the poll on the same tables
    obtain rfl : b' = b := by
      rcases hpending with h | h
      · rw [h] at hb'; exact nomatch hb'
      · exact Option.some.inj (hb'.symm.trans h)
    have hnodup := nodup_armed (valid_swept (n := n) hb hv)
    obtain ⟨rfl, rfl⟩ := Prod.mk.inj (inj_on_of_nodup_map (nodup_points hnodup) hmem hpt hidx)
    exact hu.decides

omit hpending in
theorem justified_of_point (hpt : (p, t) ∈ points n b (s.height + 1) (swept n b (s.height + 1) s.tables)
      (getArmedPolls (swept n b (s.height + 1) s.tables) (s.height + 1)))
    (hu : Undecided n (s.height + 1) p t w) :
    Justified n (stepFull n s (.attempt b .commits)) none p.action_index w := by
  obtain ⟨hdefined, hend⟩ := armed_of_points hb hpt
  obtain ⟨hbefore, hafter⟩ := later_points hb hpt
  refine .inl ⟨t, s.height + 1, p, hbefore.valid (valid_swept hb hv), le_rfl, ?_, hdefined, hend, rfl, hu⟩
  exact (hafter.trans (later_applyAll (hb.after _))).grows

omit hv hpending in
theorem later_commit : Later (s.height + 1) s.tables (stepFull n s (.attempt b .commits)).tables :=
  ((later_swept hb s.tables).trans (later_foldl hb _ _)).trans (later_applyAll (hb.after _))

theorem justified_commit {i : ℕ} (h : Justified n s pending i w) :
    Justified n (stepFull n s (.attempt b .commits)) none i w := by
  rcases h with ⟨t, h, p, hvt, hle, hg, hp, hend, hidx, hu⟩ | ⟨b', hb', p, t, hpt, rfl, hu⟩
  · exact .inl ⟨t, h, p, hvt, hle.trans (Nat.le_succ _), hg.trans (later_commit hb).grows, hp, hend, hidx, hu⟩
  · obtain rfl : b' = b := by
      rcases hpending with h | h
      · rw [h] at hb'; exact nomatch hb'
      · exact Option.some.inj (hb'.symm.trans h)
    exact justified_of_point hb hv hpt hu

end Attempt

/-- The condition on a run: blocks write new rows, a block whose attempt was aborted after the sweep
had evaluated a poll is retried as it was, and a rollback leaves valid tables. -/
def Steady : Option Block → ℕ → List Event → Prop
  | _, _, [] => True
  | pending, height, .attempt b .commits :: es =>
    (pending = none ∨ pending = some b) ∧ Fresh b (height + 1) ∧ Steady none (height + 1) es
  | pending, height, .attempt b (.aborts k) :: es =>
    (k = 0 ∧ Steady pending height es) ∨
      ((pending = none ∨ pending = some b) ∧ Fresh b (height + 1) ∧ Steady (some b) height es)
  | _, _, .rollback tables height :: es => Valid tables height ∧ Steady none height es
  | _, height, .restart :: es => Steady none height es

/-- The two nodes agree, and every cached verdict is justified. -/
structure Agree (n : Node) (pending : Option Block) (s : State) (f : FullState) : Prop where
  tables : s.tables = f.tables
  height : s.height = f.height
  valid : Valid f.tables f.height
  cache : ∀ i w, s.cache i = some w → Justified n f pending i w

section Step

variable {n : Node} {pending : Option Block} {s : State} {f : FullState} {b : Block}
  (h : Agree n pending s f)
include h

section
variable (hb : Fresh b (f.height + 1)) (hpending : pending = none ∨ pending = some b)
include hb hpending

theorem Agree.commit :
    Agree n none (step n s (.attempt b .commits)) (stepFull n f (.attempt b .commits)) := by
  obtain ⟨tables, height, cache⟩ := s
  obtain ⟨rfl, rfl, hv, hcache⟩ := h
  obtain ⟨h1, h2⟩ := sweepCached_spec (nodup_armed (valid_swept hb hv))
    fun p t hpt w hw _ hfp => sound_of_justified hb hv hpending hcache hpt hw hfp
  refine ⟨?_, rfl, (later_commit hb).valid (hv.mono (Nat.le_succ _)), fun i w hw => ?_⟩
  · show applyAll _ (b.after _) = applyAll _ (b.after _)
    rw [h1]
  · rcases h2 i w hw with hw | ⟨p, t, hpt, rfl, hu⟩
    · exact justified_commit hb hv hpending (hcache i w hw)
    · exact justified_of_point hb hv hpt hu

theorem Agree.abort (k : ℕ) :
    Agree n (some b) (step n s (.attempt b (.aborts k))) (stepFull n f (.attempt b (.aborts k))) := by
  obtain ⟨tables, height, cache⟩ := s
  obtain ⟨rfl, rfl, hv, hcache⟩ := h
  have hsub : ∀ {p t}, (p, t) ∈ points n b (f.height + 1) (swept n b (f.height + 1) f.tables)
      ((getArmedPolls (swept n b (f.height + 1) f.tables) (f.height + 1)).take k) →
      (p, t) ∈ points n b (f.height + 1) (swept n b (f.height + 1) f.tables)
        (getArmedPolls (swept n b (f.height + 1) f.tables) (f.height + 1)) := fun hpt => by
    rw [points_take] at hpt
    exact mem_of_mem_take hpt
  have hnodup := nodup_armed (valid_swept (n := n) hb hv)
  obtain ⟨-, h2⟩ := sweepCached_spec (hnodup.sublist ((take_sublist k _).map _))
    fun p t hpt w hw _ hfp => sound_of_justified hb hv hpending hcache (hsub hpt) hw hfp
  refine ⟨rfl, rfl, hv, fun i w hw => ?_⟩
  rcases h2 i w hw with hw | ⟨p, t, hpt, hi, hu⟩
  · rcases hcache i w hw with hold | ⟨b', hb', hrest⟩
    · exact .inl hold
    · rcases hpending with hp | hp
      · rw [hp] at hb'; exact nomatch hb'
      · obtain rfl : b' = b := Option.some.inj (hb'.symm.trans hp)
        exact .inr ⟨b', rfl, hrest⟩
  · exact .inr ⟨b, rfl, p, t, hsub hpt, hi, hu⟩

end

end Step

theorem agree_cleared (hv : Valid t height) (pending : Option Block) :
    Agree n pending ⟨t, height, fun _ => none⟩ ⟨t, height⟩ :=
  ⟨rfl, rfl, hv, fun _ _ hw => nomatch hw⟩

theorem agree_foldl {events : List Event} {pending : Option Block} {s : State} {f : FullState}
    (h : Agree n pending s f) (hs : Steady pending f.height events) :
    (events.foldl (step n) s).tables = (events.foldl (stepFull n) f).tables := by
  induction events generalizing pending s f with
  | nil => exact h.tables
  | cons e es ih =>
    match e with
    | .attempt b .commits =>
      obtain ⟨hpending, hb, hrest⟩ := hs
      exact ih (h.commit hb hpending) hrest
    | .attempt b (.aborts k) =>
      rcases hs with ⟨rfl, hrest⟩ | ⟨hpending, hb, hrest⟩
      · exact ih h hrest
      · exact ih (h.abort hb hpending k) hrest
    | .rollback t height =>
      obtain ⟨hv, hrest⟩ := hs
      exact ih (agree_cleared hv none) hrest
    | .restart =>
      obtain ⟨tables, height, cache⟩ := s
      obtain ⟨rfl, rfl, hv, -⟩ := h
      exact ih (agree_cleared hv none) hs

/-- **Skipping changes nothing.** After a steady run the node with the cache has the tables of the
node that tallies every armed poll at every block; so every poll decides at the same block. -/
theorem same_tables (n : Node) (t : Tables) (height : ℕ) (events : List Event)
    (hv : Valid t height) (hs : Steady none height events) :
    (events.foldl (step n) ⟨t, height, fun _ => none⟩).tables =
      (events.foldl (stepFull n) ⟨t, height⟩).tables :=
  agree_foldl (agree_cleared hv none) hs

/-! ### Sample runs -/

/-- A poll with a decide threshold of one half, and two holders. -/
def armedTables : Tables where
  polls := [⟨1, 1, 7, 9, 2, .approval, .balance, none, none, none, some (1 / 2), .open, none, false⟩]
  votes := []
  delegations := []
  credits := [⟨2, 1, 7, 1, 60⟩, ⟨3, 1, 7, 2, 40⟩]
  debits := []

/-- A block in which one voter votes for option 0, under the next action index. -/
def voteBlock (voter : Address) : Block where
  actions t := [.vote ⟨maxIndex t + 1, 1, voter, 0, none⟩]
  finalized _ _ := []
  after _ := []

def noSqrt : Node where
  bcsqrt _ := 0
  exactSplit _ := true

theorem fresh_voteBlock (voter : Address) (height : ℕ) : Fresh (voteBlock voter) height where
  actions t w hw := by
    obtain rfl := mem_singleton.mp hw
    exact ⟨Nat.lt_succ_self _, Nat.zero_le _⟩
  finalized _ _ _ hw := nomatch hw
  after _ _ hw := nomatch hw

theorem valid_armedTables : Valid armedTables 1 := ⟨by decide, by decide, by decide, by decide⟩

/-- The block with the deciding vote is aborted after the sweep, retried and committed. -/
theorem same_tables_retried :
    (((([.attempt (voteBlock 2) (.aborts 1), .attempt (voteBlock 2) .commits,
      .attempt (voteBlock 1) .commits] : List Event).foldl (step noSqrt)
        ⟨armedTables, 1, fun _ => none⟩).tables.polls.map (·.effective_close_block)) = [some 3]) ∧
    (([.attempt (voteBlock 2) (.aborts 1), .attempt (voteBlock 2) .commits,
      .attempt (voteBlock 1) .commits] : List Event).foldl (step noSqrt)
        ⟨armedTables, 1, fun _ => none⟩).tables =
    (([.attempt (voteBlock 2) (.aborts 1), .attempt (voteBlock 2) .commits,
      .attempt (voteBlock 1) .commits] : List Event).foldl (stepFull noSqrt) ⟨armedTables, 1⟩).tables :=
  ⟨by decide +kernel, same_tables noSqrt armedTables 1 _ valid_armedTables
    (.inr ⟨.inl rfl, fresh_voteBlock 2 2, .inr rfl, fresh_voteBlock 2 2, .inl rfl, fresh_voteBlock 1 3,
      trivial⟩)⟩

/-- The first attempt's vote does not decide; it is aborted, and the block that takes its place has a
deciding vote under the same action index. The node with the cache leaves the poll open. -/
theorem stale_watermark : ∃ b b' : Block, (∀ height, Fresh b height) ∧ (∀ height, Fresh b' height) ∧
    (([.attempt b (.aborts 1), .attempt b' .commits] : List Event).foldl (step noSqrt)
      ⟨armedTables, 1, fun _ => none⟩).tables.polls.map (·.effective_close_block) = [none] ∧
    (([.attempt b (.aborts 1), .attempt b' .commits] : List Event).foldl (stepFull noSqrt)
      ⟨armedTables, 1⟩).tables.polls.map (·.effective_close_block) = [some 2] :=
  ⟨voteBlock 2, voteBlock 1, fresh_voteBlock 2, fresh_voteBlock 1, by decide +kernel,
    by decide +kernel⟩

end XChainIndexer.Votes.Retries
