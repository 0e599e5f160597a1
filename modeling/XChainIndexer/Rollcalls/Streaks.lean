import XChainIndexer.Lib.Run
import XChainIndexer.Rollcalls.Close

/-! # The streaks behind an eviction

A close reads its streaks off the tables that earlier closes wrote. `history` is what happened instead,
read off the blocks alone: which epochs rolled, who was responsible, and who was absent. `Recorded` says
that the tables are a record of it, and every block keeps it (`recorded_run`). So a source that a close
evicts missed the last `evictMisses` rolled epochs at which it was responsible (`missed_of_evicted`),
however long the history is. -/

namespace XChainIndexer.Rollcalls.Streaks

open IndexTables Lib.Run Quorum.Stake List Rollcalls.Close

/-! ### What happened -/

/-- What an epoch came to. -/
structure Outcome where
  epoch : ℕ
  rolled : Bool
  responsible : List Text
  absent : List Text

/-- The keys that signed for an epoch. -/
def signers (cfg : Config) (b : Block) (epoch : ℕ) : List Text :=
  presentKeys cfg b.responsible.rows (b.answer.getD [])
    (cfg.readings.toLowerCase (b.ledgerHash.getD [])) epoch

/-- The sources that they speak for. -/
def present (cfg : Config) (b : Block) (epoch : ℕ) : List Text :=
  presentSources cfg b.responsible.rows (signers cfg b epoch)

/-- The outcome of an epoch that closes at a block. -/
def outcome (cfg : Config) (b : Block) (epoch : ℕ) : Outcome where
  epoch := epoch
  rolled := meetsStakeThreshold cfg.readings b.responsible.snapshot (signers cfg b epoch)
  responsible := sortedSources b.responsible.rows
  absent := (sortedSources b.responsible.rows).filter (· ∉ present cfg b epoch)

def outcomeAt (cfg : Config) (height : ℕ) (b : Block) : Option Outcome :=
  if cfg.isBtc then (rollcallEpochClosingAt cfg height).map (outcome cfg b) else none

/-- The outcomes of the epochs that closed in the blocks, newest first. -/
def history (cfg : Config) (bs : List Block) : List Outcome :=
  (bs.zipIdx 1).reverse.filterMap fun p => outcomeAt cfg p.2 p.1

/-- The rolled epochs at which a source was responsible. -/
def answerable (outcomes : List Outcome) (source : Text) : List Outcome :=
  outcomes.filter fun o => o.rolled && source ∈ o.responsible

/-- A source was absent at the last `n` rolled epochs at which it was responsible. -/
def Missed (outcomes : List Outcome) (source : Text) (n : ℕ) : Prop :=
  n ≤ (answerable outcomes source).length ∧
    ∀ o ∈ (answerable outcomes source).take n, source ∈ o.absent

theorem history_concat (cfg : Config) (bs : List Block) (b : Block) :
    history cfg (bs ++ [b]) = (outcomeAt cfg (bs.length + 1) b).toList ++ history cfg bs := by
  rw [history, zipIdx_append, reverse_append, filterMap_append, add_comm bs.length]
  rfl

variable {cfg : Config} {height epoch : ℕ}

theorem epoch_of_closingAt (h : rollcallEpochClosingAt cfg height = some epoch) :
    epoch + cfg.acceptWindow + cfg.proofDelay = height := by
  unfold rollcallEpochClosingAt at h
  dsimp only at h
  split_ifs at h with hlow
  obtain ⟨⟩ := h
  omega

variable {b : Block} {o : Outcome}

theorem outcomeAt_eq_some : outcomeAt cfg height b = some o ↔
      cfg.isBtc ∧ rollcallEpochClosingAt cfg height = some o.epoch ∧ o = outcome cfg b o.epoch := by
  unfold outcomeAt
  split_ifs with hbtc
  · rw [Option.map_eq_some_iff]
    constructor
    · rintro ⟨epoch, hepoch, rfl⟩
      exact ⟨hbtc, hepoch, rfl⟩
    · rintro ⟨-, hepoch, ho⟩
      exact ⟨o.epoch, hepoch, ho.symm⟩
  · simp [hbtc]

theorem epoch_of_outcomeAt (h : outcomeAt cfg height b = some o) :
    o.epoch + cfg.acceptWindow + cfg.proofDelay = height :=
  epoch_of_closingAt (outcomeAt_eq_some.mp h).2.1

variable {bs : List Block}

theorem epoch_le_of_mem_history (h : o ∈ history cfg bs) :
    o.epoch + cfg.acceptWindow + cfg.proofDelay ≤ bs.length := by
  obtain ⟨⟨b, height⟩, hmem, ho⟩ := mem_filterMap.mp h
  have hheight := snd_lt_of_mem_zipIdx (mem_reverse.mp hmem)
  have := epoch_of_outcomeAt ho
  omega

theorem history_sorted (cfg : Config) (bs : List Block) :
    (history cfg bs).Pairwise fun o o' => o'.epoch < o.epoch := by
  induction bs using List.reverseRecOn with
  | nil => exact List.Pairwise.nil
  | append_singleton bs b ih =>
    rw [history_concat]
    cases hb : outcomeAt cfg (bs.length + 1) b with
    | none => exact ih
    | some o =>
      refine pairwise_cons.mpr ⟨fun o' ho' => ?_, ih⟩
      have hlast := epoch_of_outcomeAt hb
      have hold := epoch_le_of_mem_history ho'
      omega

theorem eq_of_epoch_eq {o' : Outcome} (ho : o ∈ history cfg bs) (ho' : o' ∈ history cfg bs)
    (h : o.epoch = o'.epoch) : o = o' := by
  have hnodup : ((history cfg bs).map Outcome.epoch).Nodup := by
    rw [nodup_iff_pairwise_ne, pairwise_map]
    exact (history_sorted cfg bs).imp fun hlt => hlt.ne'
  exact inj_on_of_nodup_map hnodup ho ho' h

/-! ### The close, by its outcome -/

theorem not_rolled_of_unknown (epoch : ℕ) (h : b.responsible.truncated ∨ b.responsible.rows = []) :
    (outcome cfg b epoch).rolled = false := by
  rcases h with h | h
  · simp [outcome, meetsStakeThreshold, Responsible.snapshot, h]
  · have hnone : sumStakeWeights [] = none := by simp [sumStakeWeights, sumWeights]
    simp [outcome, meetsStakeThreshold, Responsible.snapshot, h, indexStakeSources, hnone]

variable {s : State} {c : Closed}

theorem closeEpoch_cases {closeBlock : ℕ} (h : closeEpoch cfg s b epoch closeBlock = some c) :
    ((outcome cfg b epoch).rolled = false ∧ c = closeUnrolled cfg s b epoch closeBlock) ∨
      ((outcome cfg b epoch).rolled ∧ c = closeRolled cfg s b epoch closeBlock (present cfg b epoch)) := by
  unfold closeEpoch at h
  by_cases hunknown : (b.responsible.truncated || b.responsible.rows = []) = true
  · rw [if_pos hunknown] at h
    refine .inl ⟨not_rolled_of_unknown epoch ?_, (Option.some.inj h).symm⟩
    simpa using hunknown
  rw [if_neg hunknown] at h
  by_cases hstored : (!b.windowStored) = true
  · rw [if_pos hstored] at h
    cases h
  · rw [if_neg hstored] at h
    simp only [Option.bind_eq_bind, Option.bind_eq_some_iff, Option.filter_eq_some_iff] at h
    obtain ⟨ledgerHash, ⟨hhash, -⟩, answer, hanswer, h⟩ := h
    have hsigners : signers cfg b epoch = presentKeys cfg b.responsible.rows answer
        (cfg.readings.toLowerCase ledgerHash) epoch := by
      simp [signers, hhash, hanswer]
    rw [← hsigners] at h
    split_ifs at h with hrolled
    · exact .inr ⟨hrolled, (Option.some.inj h).symm⟩
    · exact .inl ⟨by simpa [outcome] using hrolled, (Option.some.inj h).symm⟩

theorem close_cases (h : closeRollcallEpochs cfg s b = some c) : (outcomeAt cfg (s.height + 1) b = none ∧
      c = ⟨⟨s.height + 1, s.rollcalls, s.absences, b.tables⟩, [], []⟩) ∨
    ∃ o, outcomeAt cfg (s.height + 1) b = some o ∧
      ((o.rolled = false ∧ c = closeUnrolled cfg s b o.epoch (s.height + 1)) ∨ (o.rolled ∧
          c = closeRolled cfg s b o.epoch (s.height + 1) (present cfg b o.epoch))) := by
  unfold closeRollcallEpochs at h
  by_cases hbtc : cfg.isBtc
  · cases hepoch : rollcallEpochClosingAt cfg (s.height + 1) with
    | none =>
      simp only [hbtc, hepoch, Bool.not_true, Bool.false_eq_true, if_false, Option.some.injEq] at h
      exact .inl ⟨by simp [outcomeAt, hbtc, hepoch], h.symm⟩
    | some epoch =>
      simp only [hbtc, hepoch, Bool.not_true, Bool.false_eq_true, if_false] at h
      exact .inr ⟨outcome cfg b epoch, by simp [outcomeAt, hbtc, hepoch], closeEpoch_cases h⟩
  · simp only [hbtc, Bool.not_false, if_true, Option.some.injEq] at h
    exact .inl ⟨by simp [outcomeAt, hbtc], h.symm⟩

/-! ### The tables are a record of the history -/

def rowOf (cfg : Config) (o : Outcome) : Rollcall :=
  ⟨o.epoch, cfg.buriedSnapshotBlock o.epoch, o.epoch + cfg.acceptWindow + cfg.proofDelay, o.rolled,
    if o.rolled then some o.responsible else none⟩

/-- The tables hold the outcomes of the blocks. -/
structure Recorded (cfg : Config) (bs : List Block) (s : State) : Prop where
  height : s.height = bs.length
  rollcalls : s.rollcalls = (history cfg bs).map (rowOf cfg)
  absences : ∀ epoch id, (∃ r ∈ s.absences, r.epoch = epoch ∧ r.source = id) ↔
    ∃ o ∈ history cfg bs, o.epoch = epoch ∧ o.rolled = true ∧
      ∃ source ∈ o.absent, cfg.getAddressId source = id

theorem insertRollcall_eq (h : Recorded cfg bs s) (ho : outcomeAt cfg (bs.length + 1) b = some o)
    {row : Rollcall} (hrow : row = rowOf cfg o) :
    insertRollcall s.rollcalls row = (history cfg (bs ++ [b])).map (rowOf cfg) := by
  subst hrow
  rw [history_concat, ho, insertRollcall, h.rollcalls]
  have hkept : ((history cfg bs).map (rowOf cfg)).filter (fun r => r.epoch ≠ (rowOf cfg o).epoch) =
      (history cfg bs).map (rowOf cfg) := by
    rw [filter_eq_self]
    intro r hr
    obtain ⟨o', ho', rfl⟩ := mem_map.mp hr
    have hold := epoch_le_of_mem_history ho'
    have hlast := epoch_of_outcomeAt ho
    exact decide_eq_true (by simp only [rowOf]; omega)
  rw [hkept]
  rfl

theorem mem_insertRollcallAbsences {rows new : List Absence} {id : ℕ} :
    (∃ r ∈ insertRollcallAbsences rows new, r.epoch = epoch ∧ r.source = id) ↔
      (∃ r ∈ new, r.epoch = epoch ∧ r.source = id) ∨ ∃ r ∈ rows, r.epoch = epoch ∧ r.source = id := by
  simp only [insertRollcallAbsences, mem_append, mem_filter]
  constructor
  · rintro ⟨r, hr | ⟨hr, -⟩, hat⟩
    · exact .inl ⟨r, hr, hat⟩
    · exact .inr ⟨r, hr, hat⟩
  · rintro (⟨r, hr, hat⟩ | ⟨r, hr, hat⟩)
    · exact ⟨r, .inl hr, hat⟩
    · by_cases hnew : ∃ n ∈ new, n.epoch = r.epoch ∧ n.source = r.source
      · obtain ⟨n, hn, he, hs⟩ := hnew
        exact ⟨n, .inl hn, he.trans hat.1, hs.trans hat.2⟩
      · exact ⟨r, .inr ⟨hr, by simpa using hnew⟩, hat⟩

theorem Recorded.step (h : Recorded cfg bs s) (hc : closeRollcallEpochs cfg s b = some c) :
    Recorded cfg (bs ++ [b]) c.state := by
  have hcases := close_cases hc
  rw [h.height] at hcases
  rcases hcases with ⟨ho, rfl⟩ | ⟨o, ho, ⟨hrolled, rfl⟩ | ⟨hrolled, rfl⟩⟩
  · have hsame : history cfg (bs ++ [b]) = history cfg bs := by rw [history_concat, ho]; rfl
    exact ⟨by simp, by rw [hsame]; exact h.rollcalls, by rw [hsame]; exact h.absences⟩
  · have hcons : history cfg (bs ++ [b]) = o :: history cfg bs := by rw [history_concat, ho]; rfl
    refine ⟨by simp [closeUnrolled], insertRollcall_eq h ho ?_, ?_⟩
    · simp [rowOf, hrolled, epoch_of_outcomeAt ho]
    · -- an epoch that did not roll records no absence
      intro epoch id
      rw [hcons]
      simp only [exists_mem_cons_iff, hrolled, Bool.false_eq_true, false_and, and_false, false_or]
      exact h.absences epoch id
  · have hcons : history cfg (bs ++ [b]) = o :: history cfg bs := by rw [history_concat, ho]; rfl
    obtain ⟨-, -, hoeq⟩ := outcomeAt_eq_some.mp ho
    refine ⟨by simp [closeRolled], insertRollcall_eq h ho ?_, ?_⟩
    · rw [rowOf, hrolled, epoch_of_outcomeAt ho, hoeq]
      rfl
    · intro epoch id
      rw [hcons]
      simp only [exists_mem_cons_iff, hrolled, true_and, closeRolled]
      rw [mem_insertRollcallAbsences, h.absences]
      refine or_congr_left ?_
      have habsent : o.absent = (sortedSources b.responsible.rows).filter (· ∉ present cfg b o.epoch) :=
        congrArg Outcome.absent hoeq
      rw [habsent]
      constructor
      · rintro ⟨r, hr, rfl, rfl⟩
        obtain ⟨source, hsource, rfl⟩ := mem_map.mp hr
        exact ⟨rfl, source, hsource, rfl⟩
      · rintro ⟨rfl, source, hsource, rfl⟩
        exact ⟨_, mem_map.mpr ⟨source, hsource, rfl⟩, rfl, rfl⟩

theorem recorded_run (h : run (step cfg) init bs = some s) : Recorded cfg bs s := by
  induction bs using List.reverseRecOn generalizing s with
  | nil =>
    obtain ⟨⟩ := h
    exact ⟨rfl, rfl, by simp [init, history]⟩
  | append_singleton bs b ih =>
    rw [run_append, Option.bind_eq_some_iff] at h
    obtain ⟨s', hs', hlast⟩ := h
    have hstep : step cfg s' b = some s := by simpa [run] using hlast
    obtain ⟨c, hc, rfl⟩ := Option.map_eq_some_iff.mp hstep
    exact (ih hs').step hc

/-! ### The streak -/

variable {source : Text}

/-- A streak that is long enough is a run of epochs at which the source was recorded absent. -/
theorem absent_of_streak {prior : List ℕ} {outcomes : List Outcome} (hrolled : ∀ o ∈ outcomes, o.rolled)
    (hown : ∀ o ∈ outcomes, o.epoch = epoch → source ∈ o.responsible) {streak n : ℕ}
    (hn : streak + n = evictMisses) (hpos : 0 < n)
    (h : evictMisses ≤ sourceStreak source prior epoch (outcomes.map (rowOf cfg)) streak) :
    n ≤ (answerable outcomes source).length ∧
      ∀ o ∈ (answerable outcomes source).take n, o.epoch = epoch ∨ o.epoch ∈ prior := by
  induction outcomes generalizing streak n with
  | nil =>
    simp only [map_nil, sourceStreak] at h
    omega
  | cons o outcomes ih =>
    rw [forall_mem_cons] at hrolled hown
    obtain ⟨m, rfl⟩ : ∃ m, n = m + 1 := ⟨n - 1, by omega⟩
    -- an epoch that counts: it is in the streak, and the rest of the streak is behind it
    have hcount : source ∈ o.responsible → (o.epoch = epoch ∨ o.epoch ∈ prior) →
        (evictMisses ≤ streak + 1 ∨ evictMisses ≤
          sourceStreak source prior epoch (outcomes.map (rowOf cfg)) (streak + 1)) →
        m + 1 ≤ (answerable (o :: outcomes) source).length ∧
          ∀ o' ∈ (answerable (o :: outcomes) source).take (m + 1), o'.epoch = epoch ∨ o'.epoch ∈ prior := by
      intro hin habsent hrest
      have hcons : answerable (o :: outcomes) source = o :: answerable outcomes source := by
        simp [answerable, hrolled.1, hin]
      rw [hcons, take_succ_cons, forall_mem_cons, length_cons]
      rcases Nat.eq_zero_or_pos m with rfl | hm
      · exact ⟨by omega, habsent, by simp⟩
      · obtain ⟨hlen, hall⟩ := ih hrolled.2 hown.2 (by omega) hm (hrest.resolve_left (by omega))
        exact ⟨by omega, habsent, hall⟩
    simp only [map_cons, sourceStreak, rowOf, hrolled.1, if_true] at h
    split_ifs at h with hepoch hlast hin hprior hlast
    · exact hcount (hown.1 hepoch) (.inl hepoch) (.inl hlast)
    · exact hcount (hown.1 hepoch) (.inl hepoch) (.inr h)
    · exact hcount hin (.inr hprior) (.inl hlast)
    · exact hcount hin (.inr hprior) (.inr h)
    · omega
    · -- the source was not responsible: the epoch is skipped
      have hskip : answerable (o :: outcomes) source = answerable outcomes source := by
        simp [answerable, hin]
      rw [hskip]
      exact ih hrolled.2 hown.2 hn hpos h

theorem getRolledRollcallEpochs_eq (cfg : Config) (bs : List Block)
    (h : ∀ o ∈ history cfg bs, o.epoch ≤ epoch) (limit : ℕ) :
    getRolledRollcallEpochs ((history cfg bs).map (rowOf cfg)) epoch limit =
      (((history cfg bs).filter Outcome.rolled).take limit).map (rowOf cfg) := by
  have hfilter : ((history cfg bs).map (rowOf cfg)).filter (fun r => r.rolled && r.epoch ≤ epoch) =
      ((history cfg bs).filter Outcome.rolled).map (rowOf cfg) := by
    rw [filter_map]
    congr 1
    refine filter_congr fun o ho => ?_
    simp [rowOf, h o ho]
  have hsorted : (((history cfg bs).filter Outcome.rolled).map (rowOf cfg)).Pairwise
      fun r r' => r'.epoch ≤ r.epoch := by
    rw [pairwise_map]
    exact ((history_sorted cfg bs).filter _).imp fun hlt => hlt.le
  rw [getRolledRollcallEpochs, hfilter, hsorted.insertionSort_eq, map_take]

theorem answerable_prefix (outcomes : List Outcome) (source : Text) (limit : ℕ) :
    answerable ((outcomes.filter Outcome.rolled).take limit) source <+: answerable outcomes source := by
  have hall : answerable outcomes source = answerable (outcomes.filter Outcome.rolled) source := by
    rw [answerable, answerable, filter_filter]
    exact filter_congr fun o _ => by cases o.rolled <;> simp
  rw [hall]
  exact ( take_prefix _ _).filter _

/-- **Who is evicted has missed its last epochs.** -/
theorem missed_of_evicted (h : Recorded cfg bs s) (hc : closeRollcallEpochs cfg s b = some c)
    (hsource : source ∈ c.evictedSources) :
    ∃ o, outcomeAt cfg (bs.length + 1) b = some o ∧ o.rolled ∧ source ∈ o.absent ∧
      Missed (history cfg (bs ++ [b])) source evictMisses := by
  have hcases := close_cases hc
  rw [h.height] at hcases
  rcases hcases with ⟨-, rfl⟩ | ⟨o, ho, ⟨-, rfl⟩ | ⟨hrolled, rfl⟩⟩
  · cases hsource
  · cases hsource
  · obtain ⟨habsent, hevicted⟩ := mem_filter.mp hsource
    obtain ⟨-, -, hoeq⟩ := outcomeAt_eq_some.mp ho
    have hin : source ∈ o.absent := by rw [hoeq]; exact habsent
    refine ⟨o, ho, hrolled, hin, ?_⟩
    have hcons : history cfg (bs ++ [b]) = o :: history cfg bs := by rw [history_concat, ho]; rfl
    have hle : ∀ o' ∈ history cfg (bs ++ [b]), o'.epoch ≤ o.epoch := by
      rw [hcons, forall_mem_cons]
      refine ⟨le_rfl, fun o' ho' => ?_⟩
      have hlast := epoch_of_outcomeAt ho
      have hold := epoch_le_of_mem_history ho'
      omega
    have hrow : (⟨o.epoch, cfg.buriedSnapshotBlock o.epoch, bs.length + 1, true,
        some (sortedSources b.responsible.rows)⟩ : Rollcall) = rowOf cfg o := by
      rw [rowOf, hrolled, epoch_of_outcomeAt ho, hoeq]
      rfl
    simp only [isEvicted, decide_eq_true_eq, insertRollcall_eq h ho hrow,
      getRolledRollcallEpochs_eq cfg (bs ++ [b]) hle] at hevicted
    set recent := ((history cfg (bs ++ [b])).filter Outcome.rolled).take streakLookback with hrecent
    have hmem : ∀ o' ∈ recent, o' ∈ history cfg (bs ++ [b]) ∧ o'.rolled := fun o' ho' =>
      mem_filter.mp (mem_of_mem_take ho')
    have hself : o ∈ history cfg (bs ++ [b]) := by rw [hcons]; exact mem_cons_self
    have hresponsible : source ∈ o.responsible := by
      rw [hoeq]
      exact mem_of_mem_filter habsent
    obtain ⟨hlen, hall⟩ := absent_of_streak (fun o' ho' => (hmem o' ho').2)
      (fun o' ho' he => eq_of_epoch_eq hself (hmem o' ho').1 he.symm ▸ hresponsible)
      (Nat.zero_add _) (by decide) hevicted
    have hprefix := answerable_prefix (history cfg (bs ++ [b])) source streakLookback
    have htake : (answerable (history cfg (bs ++ [b])) source).take evictMisses =
        (answerable recent source).take evictMisses := by
      obtain ⟨rest, hrest⟩ := hprefix
      rw [← hrest, take_append_of_le_length hlen]
    refine ⟨hlen.trans hprefix.length_le, fun o' ho' => ?_⟩
    rw [htake] at ho'
    have ho'mem := (hmem o' (mem_of_mem_filter (mem_of_mem_take ho'))).1
    rcases hall o' ho' with he | hprior
    · rw [eq_of_epoch_eq ho'mem hself he]
      exact hin
    · -- a recorded absence is one that happened
      obtain ⟨r, hr, he⟩ := mem_map.mp hprior
      obtain ⟨hr, hat⟩ := mem_filter.mp hr
      obtain ⟨o'', ho'', hepoch, -, source', hsource', hid⟩ :=
        (h.absences o'.epoch (cfg.getAddressId source)).mp ⟨r, hr, he, (of_decide_eq_true hat).1⟩
      have hhist : o'' ∈ history cfg (bs ++ [b]) := by
        rw [hcons]
        exact mem_cons_of_mem _ ho''
      rw [← eq_of_epoch_eq hhist ho'mem hepoch, ← cfg.addressId_injective hid]
      exact hsource'

end XChainIndexer.Rollcalls.Streaks
