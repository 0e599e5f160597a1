import XChainIndexer.Votes.Sweep

/-! # Skipping a tally changes nothing, as long as the rows only grow

The fingerprint of a poll's inputs holds the highest action index of each input table. If new rows
always come with higher indices, an unchanged fingerprint means unchanged rows, and the tally is what
it was (`decides_eq`). -/

namespace XChainIndexer.Votes.Watermark

open Lib.Maximum Votes.PollTally Votes.Sweep List

/-! ### Tables that only grow -/

def indices (t : Tables) : List ℕ :=
  t.votes.map (·.action_index) ++ t.delegations.map (·.action_index) ++
    t.credits.map (·.action_index) ++ t.debits.map (·.action_index)

def maxIndex (t : Tables) : ℕ := maxOf (indices t)

/-- A list with rows of larger index appended. -/
def Extends {α : Type} (index : α → ℕ) (m : ℕ) (l l' : List α) : Prop :=
  ∃ new, l' = l ++ new ∧ ∀ r ∈ new, m < index r

variable {α : Type}

theorem Extends.refl (index : α → ℕ) (m : ℕ) (l : List α) : Extends index m l l :=
  ⟨[], by simp, by simp⟩

variable {m : ℕ}

section
variable {α : Type} {index : α → ℕ}

theorem Extends.trans {m' : ℕ} {l l' l'' : List α}
    (h : Extends index m l l') (h' : Extends index m' l' l'') (hm : m ≤ m') : Extends index m l l'' := by
  obtain ⟨new, rfl, hnew⟩ := h
  obtain ⟨new', rfl, hnew'⟩ := h'
  refine ⟨new ++ new', append_assoc _ _ _, fun r hr => ?_⟩
  rcases mem_append.mp hr with hr | hr
  · exact hnew r hr
  · exact hm.trans_lt (hnew' r hr)

section
variable {l l' : List α} (h : Extends index m l l')
include h

theorem Extends.append {r : α} (hr : m < index r) : Extends index m l (l' ++ [r]) :=
  h.trans ⟨[r], rfl, by simpa using hr⟩ le_rfl

/-- Rows that meet a condition grow too, and an unchanged maximum means unchanged rows. -/
theorem Extends.filter_eq
    (p : α → Bool) (hle : maxOf ((l'.filter p).map index) ≤ m) : l'.filter p = l.filter p := by
  obtain ⟨new, rfl, hnew⟩ := h
  rw [filter_append]
  suffices hnil : new.filter p = [] by rw [hnil, append_nil]
  by_contra hne
  obtain ⟨r, hr⟩ := exists_mem_of_ne_nil _ hne
  have hmax : index r ≤ maxOf (((l ++ new).filter p).map index) := by
    rw [filter_append]
    exact le_maxOf (mem_map_of_mem (mem_append_right _ hr))
  exact absurd (hnew r (mem_of_mem_filter hr)) (by omega)

end

end

/-- What a poll's row holds besides its result. -/
def definition (p : Poll) : Poll :=
  { p with poll_status := .open, effective_close_block := none, decided_early := false }

/-- Input rows are only added, with larger indices, and polls keep their definition. -/
structure Grows (t t' : Tables) : Prop where
  votes : Extends (·.action_index) (maxIndex t) t.votes t'.votes
  delegations : Extends (·.action_index) (maxIndex t) t.delegations t'.delegations
  credits : Extends (·.action_index) (maxIndex t) t.credits t'.credits
  debits : Extends (·.action_index) (maxIndex t) t.debits t'.debits
  polls : ∀ p ∈ t.polls, ∃ p' ∈ t'.polls, definition p' = definition p

theorem Grows.refl (t : Tables) : Grows t t :=
  ⟨.refl _ _ _, .refl _ _ _, .refl _ _ _, .refl _ _ _, fun p hp => ⟨p, hp, rfl⟩⟩

variable {index : α → ℕ}

theorem Extends.subset {l l' : List α} (h : Extends index m l l') : l.map index ⊆ l'.map index := by
  obtain ⟨new, rfl, -⟩ := h
  rw [map_append]
  exact subset_append_left _ _

variable {t t' : Tables}

theorem Grows.maxIndex_le (h : Grows t t') : maxIndex t ≤ maxIndex t' := by
  have hsub : indices t ⊆ indices t' := by
    intro x hx
    simp only [indices, mem_append] at hx ⊢
    exact hx.imp (Or.imp (Or.imp (h.votes.subset ·) (h.delegations.subset ·)) (h.credits.subset ·))
      (h.debits.subset ·)
  exact maxOf_le fun x hx => le_maxOf (hsub hx)

theorem Grows.trans {t'' : Tables} (h : Grows t t') (h' : Grows t' t'') : Grows t t'' where
  votes := h.votes.trans h'.votes h.maxIndex_le
  delegations := h.delegations.trans h'.delegations h.maxIndex_le
  credits := h.credits.trans h'.credits h.maxIndex_le
  debits := h.debits.trans h'.debits h.maxIndex_le
  polls p hp := by
    obtain ⟨p', hp', hd⟩ := h.polls p hp
    obtain ⟨p'', hp'', hd'⟩ := h'.polls p' hp'
    exact ⟨p'', hp'', hd'.trans hd⟩

/-- Polls have their own indices, and no input row is of a later block. -/
structure Valid (t : Tables) (height : ℕ) : Prop where
  polls : (t.polls.map (·.action_index)).Nodup
  delegations : ∀ r ∈ t.delegations, r.block_index ≤ height
  credits : ∀ r ∈ t.credits, r.block_index ≤ height
  debits : ∀ r ∈ t.debits, r.block_index ≤ height

theorem Valid.mono {h h' : ℕ} (hv : Valid t h) (hle : h ≤ h') : Valid t h' :=
  ⟨hv.polls, fun r hr => (hv.delegations r hr).trans hle, fun r hr => (hv.credits r hr).trans hle,
    fun r hr => (hv.debits r hr).trans hle⟩

/-! ### An unchanged fingerprint -/

/-- The tables hold the poll, with whatever result. -/
def Defined (t : Tables) (p : Poll) : Prop := ∃ q ∈ t.polls, definition q = definition p

variable {p : Poll}

theorem Grows.defined (h : Grows t t') (hp : Defined t p) : Defined t' p := by
  obtain ⟨q, hq, hd⟩ := hp
  obtain ⟨q', hq', hd'⟩ := h.polls q hq
  exact ⟨q', hq', hd'.trans hd⟩

section
variable {q : Poll} (h : definition p = definition q)
include h

theorem action_index_of_definition : p.action_index = q.action_index := by
  have := congrArg Poll.action_index h
  exact this

theorem end_block_of_definition : p.end_block = q.end_block := by
  have := congrArg Poll.end_block h
  exact this

end

variable {height : ℕ}

theorem getPoll_of_defined (hv : Valid t height) (hp : Defined t p) :
    ∃ q, getPoll t p.action_index = some q ∧ definition q = definition p := by
  obtain ⟨q, hq, hd⟩ := hp
  have hqi : q.action_index = p.action_index := action_index_of_definition hd
  refine ⟨q, ?_, hd⟩
  unfold getPoll
  cases hf : t.polls.find? fun r => decide (r.action_index = p.action_index) with
  | none =>
    rw [find?_eq_none] at hf
    exact absurd (decide_eq_true hqi) (hf q hq)
  | some r =>
    have hr := find?_some hf
    rw [decide_eq_true_eq] at hr
    exact congrArg some (inj_on_of_nodup_map hv.polls (mem_of_find?_eq_some hf) hq (hr.trans hqi.symm))

variable {p' : Poll}

theorem definition_eq (hg : Grows t t') (hv' : Valid t' height) (hp : Defined t p)
    (hp' : Defined t' p') (hidx : p.action_index = p'.action_index) : definition p = definition p' := by
  obtain ⟨q, hq, hd⟩ := hg.defined hp
  obtain ⟨q', hq', hd'⟩ := hp'
  have hqq : q = q' := by
    refine inj_on_of_nodup_map hv'.polls hq hq' ?_
    exact (action_index_of_definition hd).trans (hidx.trans (action_index_of_definition hd').symm)
  rw [← hd, ← hd', hqq]

section
variable (n : Node) (t : Tables) (p : Poll)

theorem tallyAt_definition (block : ℕ) : tallyAt n t p block = tallyAt n t (definition p) block := rfl

theorem watermark_definition (height : ℕ) :
    getPollTallyInputWatermark n t p height = getPollTallyInputWatermark n t (definition p) height := rfl

end

variable {tick : ℕ}

theorem ledgerScope_of_le {rows : List LedgerRow} (h : ∀ r ∈ rows, r.block_index ≤ height) :
    ledgerScope rows tick height = rows.filter (·.tick = tick) :=
  filter_congr fun r hr => by simp [h r hr]

theorem standing_of_le (h : ∀ r ∈ t.delegations, r.block_index ≤ height) :
    standing t tick height = t.delegations.filter (·.tick = tick) :=
  filter_congr fun r hr => by simp [h r hr]

theorem maxOf_filter_le {l : List α} (p : α → Bool)
    (h : maxOf (l.map index) ≤ m) : maxOf ((l.filter p).map index) ≤ m := by
  refine maxOf_le fun x hx => ?_
  obtain ⟨r, hr, rfl⟩ := mem_map.mp hx
  exact (le_maxOf (mem_map_of_mem (mem_of_mem_filter hr))).trans h

section Unchanged

variable {n : Node} {t t' : Tables} {h h' : ℕ} {p : Poll} (hg : Grows t t') (hv : Valid t h)
  (hv' : Valid t' h') (hfp : getPollTallyInputWatermark n t p h =
    getPollTallyInputWatermark n t' p h')
include hg hfp

theorem inputs_eq : pollVotes t' p.action_index = pollVotes t p.action_index ∧
    t'.delegations.filter (·.tick = p.tick) = t.delegations.filter (·.tick = p.tick) ∧
    t'.credits.filter (·.tick = p.tick) = t.credits.filter (·.tick = p.tick) ∧
    t'.debits.filter (·.tick = p.tick) = t.debits.filter (·.tick = p.tick) := by
  have hmem : ∀ {l : List ℕ}, l ⊆ indices t → maxOf l ≤ maxIndex t := fun hl =>
    maxOf_le fun x hx => le_maxOf (hl hx)
  have hvotes : maxOf (t.votes.map (·.action_index)) ≤ maxIndex t :=
    hmem fun x hx => by simp only [indices, mem_append]; exact .inl (.inl (.inl hx))
  have hdel : maxOf (t.delegations.map (·.action_index)) ≤ maxIndex t :=
    hmem fun x hx => by simp only [indices, mem_append]; exact .inl (.inl (.inr hx))
  have hcred : maxOf (t.credits.map (·.action_index)) ≤ maxIndex t :=
    hmem fun x hx => by simp only [indices, mem_append]; exact .inl (.inr hx)
  have hdeb : maxOf (t.debits.map (·.action_index)) ≤ maxIndex t :=
    hmem fun x hx => by simp only [indices, mem_append]; exact .inr hx
  have hv1 := congrArg Fingerprint.v hfp
  have hd1 := congrArg Fingerprint.d hfp
  have hl1 := congrArg Fingerprint.l hfp
  have hl : max (maxOf ((t.credits.filter (·.tick = p.tick)).map (·.action_index)))
      (maxOf ((t.debits.filter (·.tick = p.tick)).map (·.action_index))) ≤ maxIndex t :=
    max_le (maxOf_filter_le _ hcred) (maxOf_filter_le _ hdeb)
  refine ⟨hg.votes.filter_eq _ ?_, hg.delegations.filter_eq _ ?_, hg.credits.filter_eq _ ?_,
    hg.debits.filter_eq _ ?_⟩
  · exact hv1.symm.le.trans (maxOf_filter_le _ hvotes)
  · exact hd1.symm.le.trans (maxOf_filter_le _ hdel)
  · exact (le_max_left _ _).trans (hl1.symm.le.trans hl)
  · exact (le_max_right _ _).trans (hl1.symm.le.trans hl)

include hv hv'

theorem countAt_eq (htw : p.weight_mode ≠ .timeWeighted) : countAt n t' p h' = countAt n t p h := by
  obtain ⟨hvotes, hdel, hcred, hdeb⟩ := inputs_eq hg hfp
  have hexact : n.exactSplit h = n.exactSplit h' := congrArg Fingerprint.exact hfp
  have hballots : readCurrentBallots t' p.action_index = readCurrentBallots t p.action_index := by
    unfold readCurrentBallots
    rw [hvotes]
  have hholders : getHolders t' p.tick h' = getHolders t p.tick h := by
    unfold getHolders
    rw [ledgerScope_of_le hv'.credits, ledgerScope_of_le hv'.debits, ledgerScope_of_le hv.credits,
      ledgerScope_of_le hv.debits, hcred, hdeb]
  have hstanding : getActiveDelegations t' p.tick h' = getActiveDelegations t p.tick h := by
    unfold getActiveDelegations
    rw [standing_of_le hv'.delegations, standing_of_le hv.delegations, hdel]
  have hweight : weightFunction n t' p h' = weightFunction n t p h := by
    unfold weightFunction
    cases hm : p.weight_mode with
    | timeWeighted => exact absurd hm htw
    | _ => rfl
  unfold countAt
  rw [hballots, hholders, hstanding, hweight, hexact]

end Unchanged

/-- **An unchanged fingerprint means an unchanged verdict.** -/
theorem decides_eq {n : Node} {h h' : ℕ} (hg : Grows t t') (hv : Valid t h)
    (hv' : Valid t' h') (hp : Defined t p) (hp' : Defined t' p')
    (hidx : p.action_index = p'.action_index) (hend : h < p.end_block) (hend' : h' < p'.end_block)
    (htw : p.weight_mode ≠ .timeWeighted)
    (hfp : getPollTallyInputWatermark n t p h = getPollTallyInputWatermark n t' p' h') :
    decides n t' p' h' = decides n t p h := by
  have hdef := definition_eq hg hv' hp hp' hidx
  obtain ⟨q, hq, hqd⟩ := getPoll_of_defined hv hp
  obtain ⟨q', hq', hqd'⟩ := getPoll_of_defined hv' hp'
  have hblock : min h q.end_block = h := min_eq_left (end_block_of_definition hqd ▸ hend.le)
  have hblock' : min h' q'.end_block = h' := min_eq_left (end_block_of_definition hqd' ▸ hend'.le)
  have hfp' : getPollTallyInputWatermark n t (definition p) h =
      getPollTallyInputWatermark n t' (definition p) h' := by
    rw [← watermark_definition, hfp, watermark_definition n t', ← hdef]
  have htally : tallyAt n t' q' h' = tallyAt n t q h := by
    rw [tallyAt_definition n t', tallyAt_definition n t, hqd, hqd', ← hdef]
    unfold tallyAt
    rw [countAt_eq hg hv hv' hfp' htw]
  have hthreshold : p'.decide_threshold = p.decide_threshold := by
    have := congrArg Poll.decide_threshold hdef
    exact this.symm
  unfold decides getPollTally
  rw [hq, hq', Option.map_some, Option.map_some, hblock, hblock', htally, hthreshold]

end XChainIndexer.Votes.Watermark
