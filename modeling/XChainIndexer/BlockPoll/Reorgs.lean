import XChainIndexer.BlockPoll.Step
import XChainIndexer.Lib.Run

/-! # No reorg is passed over

A block of the indexer may be trusted when its height lies below every unprocessed event: then it is
the decoder's block of that height. The same holds of the memos and of what an open attempt has read,
whatever the decoder did in between. Recording an event is safe once nothing at or above its height is
committed or remembered. Main result: `reorgs_never_passed_over`.

The memos are cleared by a rollback only, so an event that needs none can leave an orphaned time behind
(`orphaned_time_is_committed`). -/

namespace XChainIndexer.BlockPoll.Reorgs

open BlockPoll.Step Lib.Run List

variable {T : Type} {c : Config}

/-! ### Facts about a height of the chain -/

/-- What the first chain says of a height, the second says too. -/
def Kept (chain chain' : List (Block T)) (height : ℕ) : Prop :=
  ∀ b, chain[height]? = some b → chain'[height]? = some b ∧ chain'.take height = chain.take height

theorem kept_append (chain l : List (Block T)) (height : ℕ) : Kept chain (chain ++ l) height := by
  intro b hb
  have hlt : height < chain.length := (List.getElem?_eq_some_iff.mp hb).1
  exact ⟨by rw [getElem?_append_left hlt, hb], take_append_of_le_length (Nat.le_of_lt hlt)⟩

variable {height : ℕ}

theorem kept_take (chain : List (Block T)) {k : ℕ} (h : height < k) : Kept chain (chain.take k) height := by
  intro b hb
  exact ⟨by rw [getElem?_take_of_lt h, hb], by rw [take_take, Nat.min_eq_left h.le]⟩

section kept

variable {chain chain' : List (Block T)} {height t : ℕ}

theorem Kept.rawTimeAt (h : Kept chain chain' height) (ht : rawTimeAt chain height = some t) :
    rawTimeAt chain' height = some t := by
  obtain ⟨b, hb, rfl⟩ := Option.map_eq_some_iff.mp ht
  rw [Step.rawTimeAt, (h b hb).1, Option.map_some]

theorem Kept.txsAt {txs : T} (h : Kept chain chain' height)
    (ht : chain[height]?.map Block.txs = some txs) : chain'[height]?.map Block.txs = some txs := by
  obtain ⟨b, hb, rfl⟩ := Option.map_eq_some_iff.mp ht
  rw [(h b hb).1, Option.map_some]

theorem Kept.protocolTimeAt (h : Kept chain chain' height)
    (ht : protocolTimeAt c chain height = some t) : protocolTimeAt c chain' height = some t := by
  obtain ⟨raw, hraw, rfl⟩ := Option.map_eq_some_iff.mp ht
  obtain ⟨b, hb, rfl⟩ := Option.map_eq_some_iff.mp hraw
  rw [Step.protocolTimeAt, h.rawTimeAt hraw, getPreviousBlockTimes, (h b hb).2]
  rfl

variable {x : Input T}

theorem Kept.inputAt (h : Kept chain chain' height)
    (hx : inputAt c chain height = some x) : inputAt c chain' height = some x := by
  obtain ⟨b, hb, rfl⟩ := Option.map_eq_some_iff.mp hx
  rw [Step.inputAt, (h b hb).1, getPreviousBlockTimes, (h b hb).2]
  rfl

end kept

/-! ### Unprocessed events -/

def unprocessed (s : State T) : List Reorg := getReorgsSince s.events s.cursor

/-- The height lies below every one of the events. -/
def Below (events : List Reorg) (height : ℕ) : Prop := ∀ e ∈ events, height < e.blockIndex

theorem below_append {l l' : List Reorg} :
    Below (l ++ l') height ↔ Below l height ∧ Below l' height := forall_mem_append

variable {events : List Reorg} {cursor : Option ℕ}

theorem getReorgsSince_append {new : List Reorg} (h : ∀ id ∈ cursor, ∀ e ∈ new, id < e.id) :
    getReorgsSince (events ++ new) cursor = getReorgsSince events cursor ++ new := by
  cases cursor with
  | none => rfl
  | some id =>
    rw [getReorgsSince, filter_append]
    congr 1
    exact filter_eq_self.mpr fun e he => decide_eq_true (h id rfl e he)

variable {e : Reorg}

theorem getReorgsSince_head {rest : List Reorg} (hsorted : events.Pairwise fun a b => a.id < b.id)
    (h : getReorgsSince events cursor = e :: rest) : getReorgsSince events (some e.id) = rest := by
  have hrest : ∀ l : List Reorg, l.Pairwise (fun a b => a.id < b.id) → l = e :: rest →
      l.filter (e.id < ·.id) = rest := by
    rintro l hl rfl
    rw [filter_cons_of_neg (by simp)]
    exact filter_eq_self.mpr fun x hx => decide_eq_true ((pairwise_cons.mp hl).1 x hx)
  cases cursor with
  | none => exact hrest events hsorted h
  | some id =>
    have he : id < e.id := by
      have hmem : e ∈ events.filter (id < ·.id) := by
        rw [show events.filter (id < ·.id) = e :: rest from h]
        exact mem_cons_self
      exact of_decide_eq_true (mem_filter.mp hmem).2
    have hfilter : events.filter (e.id < ·.id) = (events.filter (id < ·.id)).filter (e.id < ·.id) := by
      rw [filter_filter]
      refine filter_congr fun x _ => ?_
      by_cases hx : e.id < x.id
      · simp [hx, he.trans hx]
      · simp [hx]
    rw [getReorgsSince, hfilter]
    exact hrest _ (hsorted.filter _) h

/-! ### The invariant -/

/-- Every height below the tip that was read is still there, or an event orphans it. -/
def TipOk (chain : List (Block T)) (events : List Reorg) (tip : ℕ) : Prop :=
  ∀ i < tip, i < chain.length ∨ ∃ e ∈ events, e.blockIndex ≤ i

/-- The memos hold the times of the chain, at heights below the events. -/
structure MemoOk (c : Config) (chain : List (Block T)) (events : List Reorg) (memo : Memo) : Prop where
  raw : ∀ h t, memo.raw = some (h, t) → Below events h → rawTimeAt chain h = some t
  protocol : ∀ h t, memo.protocol = some (h, t) → Below events h → protocolTimeAt c chain h = some t

/-- A pending read is of the block or of an older one, and what it holds already is right. -/
def ReadOk (chain : List (Block T)) (events : List Reorg) (last : ℕ) : Read → Prop
  | .transactions => True
  | .blockTime h keep => keep = true → h = last
  | .storedTime h keep => keep = true → h = last
  | .previousTimes h raw keep => (keep = true → h = last) ∧
      ∀ t, raw = some t → Below events h → rawTimeAt chain h = some t
  | .rawBlockTime h => h = last

/-- What was read of the block is right, if its height lies below the events. -/
structure AttemptOk (c : Config) (chain : List (Block T)) (events : List Reorg) (last : ℕ)
    (a : Attempt T) : Prop where
  txs : ∀ t, a.txs = some t → Below events last → chain[last]?.map Block.txs = some t
  blockTime : ∀ t, a.blockTime = some t → Below events last → protocolTimeAt c chain last = some t
  rawBlockTime : ∀ t, a.rawBlockTime = some t → Below events last → rawTimeAt chain last = some t
  todo : ∀ r ∈ a.todo, ReadOk chain events last r

/-- No memo is at or above the height. -/
def MemoBelow (memo : Memo) (height : ℕ) : Prop :=
  (∀ h t, memo.raw = some (h, t) → h < height) ∧ ∀ h t, memo.protocol = some (h, t) → h < height

/-- What the pass has read, against the state. -/
def PhaseOk (c : Config) (s : State T) : Phase T → Prop
  | .idle => True
  | .cursorRead cursor => cursor = s.cursor
  | .eventsRead cursor pending => cursor = s.cursor ∧ pending <+: unprocessed s
  | .tipRead cursor pending tip => cursor = s.cursor ∧ pending <+: unprocessed s ∧
      TipOk s.chain ((unprocessed s).drop pending.length) tip
  | .marking todo tip => todo <+: unprocessed s ∧
      (∀ e ∈ todo, s.committed.length ≤ e.blockIndex ∧ MemoBelow s.memo e.blockIndex) ∧
      TipOk s.chain ((unprocessed s).drop todo.length) tip
  | .catchUp cursor last tip => cursor = s.cursor ∧ last = s.committed.length ∧
      TipOk s.chain (unprocessed s) tip
  | .parsing cursor last tip a => cursor = s.cursor ∧ last = s.committed.length ∧ last < tip ∧
      TipOk s.chain (unprocessed s) tip ∧ AttemptOk c s.chain (unprocessed s) last a
  | .applied cursor last => cursor = s.cursor ∧ last = s.committed.length

structure Inv (c : Config) (s : State T) : Prop where
  sorted : s.events.Pairwise fun a b => a.id < b.id
  ids : ∀ e ∈ s.events, e.id < s.nextEventId
  cursor : ∀ id ∈ s.cursor, id < s.nextEventId
  committed : ∀ i x, s.committed[i]? = some x → Below (unprocessed s) i →
    inputAt c s.chain i = some x
  memo : MemoOk c s.chain (unprocessed s) s.memo
  phase : PhaseOk c s s.phase

/-! ### The decoder moves -/

section decoder

variable {chain chain' : List (Block T)} {events new : List Reorg} {last tip : ℕ}

theorem TipOk.moved (h : TipOk chain events tip)
    (hlen : ∀ i < chain.length, i < chain'.length ∨ ∃ e ∈ new, e.blockIndex ≤ i) :
    TipOk chain' (events ++ new) tip := by
  intro i hi
  rcases h i hi with hi | ⟨e, he, hle⟩
  · rcases hlen i hi with hi | ⟨e, he, hle⟩
    · exact .inl hi
    · exact .inr ⟨e, mem_append_right _ he, hle⟩
  · exact .inr ⟨e, mem_append_left _ he, hle⟩

variable (hkept : ∀ h, Below new h → Kept chain chain' h)
include hkept

variable {memo : Memo}

theorem MemoOk.moved (h : MemoOk c chain events memo) :
    MemoOk c chain' (events ++ new) memo where
  raw := fun k t hk hb =>
    (hkept k (below_append.mp hb).2).rawTimeAt (h.raw k t hk (below_append.mp hb).1)
  protocol := fun k t hk hb =>
    (hkept k (below_append.mp hb).2).protocolTimeAt (h.protocol k t hk (below_append.mp hb).1)

theorem ReadOk.moved {r : Read} (h : ReadOk chain events last r) : ReadOk chain' (events ++ new) last r := by
  cases r with
  | previousTimes k raw keep =>
    exact ⟨h.1, fun t ht hb =>
      (hkept k (below_append.mp hb).2).rawTimeAt (h.2 t ht (below_append.mp hb).1)⟩
  | _ => exact h

variable {a : Attempt T}

theorem AttemptOk.moved (h : AttemptOk c chain events last a) :
    AttemptOk c chain' (events ++ new) last a where
  txs := fun t ht hb =>
    (hkept last (below_append.mp hb).2).txsAt (h.txs t ht (below_append.mp hb).1)
  blockTime := fun t ht hb =>
    (hkept last (below_append.mp hb).2).protocolTimeAt (h.blockTime t ht (below_append.mp hb).1)
  rawBlockTime := fun t ht hb =>
    (hkept last (below_append.mp hb).2).rawTimeAt (h.rawBlockTime t ht (below_append.mp hb).1)
  todo := fun r hr => (h.todo r hr).moved hkept

omit hkept

variable {nextId : ℕ}

/-- Whatever the decoder does to its chain, it tells: a height that no new event orphans is as it
was. -/
theorem Inv.decoder {s : State T} (hi : Inv c s) (new : List Reorg)
    (hkept : ∀ h, Below new h → Kept s.chain chain' h)
    (hlen : ∀ i < s.chain.length, i < chain'.length ∨ ∃ e ∈ new, e.blockIndex ≤ i)
    (hsorted : new.Pairwise fun a b => a.id < b.id)
    (hids : ∀ e ∈ new, s.nextEventId ≤ e.id ∧ e.id < nextId) (hnext : s.nextEventId ≤ nextId) :
    Inv c { s with chain := chain', events := s.events ++ new, nextEventId := nextId } := by
  obtain ⟨chain, events, nextEventId, committed, cursor, memo, phase⟩ := s
  have hun : getReorgsSince (events ++ new) cursor = getReorgsSince events cursor ++ new :=
    getReorgsSince_append fun id hid e he => (hi.cursor id hid).trans_le (hids e he).1
  have hdrop : ∀ l, l <+: getReorgsSince events cursor → (getReorgsSince events cursor ++ new).drop l.length =
        (getReorgsSince events cursor).drop l.length ++ new := fun l hl =>
    drop_append_of_le_length hl.length_le
  refine ⟨?_, ?_, fun id hid => (hi.cursor id hid).trans_le hnext, ?_, ?_, ?_⟩
  · refine pairwise_append.mpr ⟨hi.sorted, hsorted, fun a ha b hb => ?_⟩
    exact (hi.ids a ha).trans_le (hids b hb).1
  · intro e he
    rcases mem_append.mp he with he | he
    · exact (hi.ids e he).trans_le hnext
    · exact (hids e he).2
  · intro i x hx hb
    rw [unprocessed, hun] at hb
    exact (hkept i (below_append.mp hb).2).inputAt (hi.committed i x hx (below_append.mp hb).1)
  · rw [unprocessed, hun]
    exact hi.memo.moved hkept
  · have hp := hi.phase
    cases phase with
    | idle => trivial
    | cursorRead cur => exact hp
    | eventsRead cur pending =>
      refine ⟨hp.1, ?_⟩
      rw [unprocessed, hun]
      exact hp.2.trans (prefix_append _ _)
    | tipRead cur pending tip =>
      refine ⟨hp.1, ?_⟩
      rw [unprocessed, hun, hdrop _ hp.2.1]
      exact ⟨hp.2.1.trans (prefix_append _ _), hp.2.2.moved hlen⟩
    | marking todo tip =>
      rw [PhaseOk, unprocessed, hun, hdrop _ hp.1]
      exact ⟨hp.1.trans (prefix_append _ _), hp.2.1, hp.2.2.moved hlen⟩
    | catchUp cur last tip =>
      refine ⟨hp.1, hp.2.1, ?_⟩
      rw [unprocessed, hun]
      exact hp.2.2.moved hlen
    | parsing cur last tip a =>
      refine ⟨hp.1, hp.2.1, hp.2.2.1, ?_⟩
      rw [unprocessed, hun]
      exact ⟨hp.2.2.2.1.moved hlen, hp.2.2.2.2.moved hkept⟩
    | applied cur last => exact hp

end decoder

/-! ### One read -/

section reads

variable {chain : List (Block T)} {events : List Reorg} {last : ℕ} {memo : Memo} {a : Attempt T}

/-- A raw time that is returned is that of the chain, and so is what is remembered. -/
theorem getRawBlockTime_ok (h : MemoOk c chain events memo) (height : ℕ) :
    MemoOk c chain events (getRawBlockTime chain memo height).1 ∧
      ∀ t, (getRawBlockTime chain memo height).2 = some t → Below events height →
        rawTimeAt chain height = some t := by
  have hfresh : MemoOk c chain events (getRawBlockTime.fresh chain memo height).1 ∧
      ∀ t, (getRawBlockTime.fresh chain memo height).2 = some t → Below events height →
        rawTimeAt chain height = some t := by
    unfold getRawBlockTime.fresh
    cases hraw : rawTimeAt chain height with
    | none => exact ⟨h, fun t ht => by simp at ht⟩
    | some t =>
      refine ⟨⟨fun k t' hk _ => ?_, h.protocol⟩, fun t' ht _ => ht⟩
      obtain ⟨⟩ := hk
      exact hraw
  unfold getRawBlockTime
  split
  · rename_i k t hmemo
    split_ifs with hk
    · refine ⟨h, fun t' ht hb => ?_⟩
      rw [← Option.some.inj ht]
      exact hk ▸ h.raw k t hmemo (hk ▸ hb)
    · exact hfresh
  · exact hfresh

theorem AttemptOk.keepTime (h : AttemptOk c chain events last a) {keep : Bool} {time : Option ℕ}
    {todo : List Read} (htodo : ∀ r ∈ todo, ReadOk chain events last r)
    (htime : keep → ∀ t, time = some t → Below events last → protocolTimeAt c chain last = some t) :
    AttemptOk c chain events last { a.keepTime keep time with todo } := by
  cases keep with
  | true => exact ⟨h.txs, htime rfl, h.rawBlockTime, htodo⟩
  | false => exact ⟨h.txs, h.blockTime, h.rawBlockTime, htodo⟩

theorem readStep_ok [Inhabited T] (hm : MemoOk c chain events memo)
    (ha : AttemptOk c chain events last a) (hlast : Below events last → last < chain.length)
    {memo' : Memo} {a' : Attempt T} (h : readStep c chain last memo a = some (memo', a')) :
    MemoOk c chain events memo' ∧ AttemptOk c chain events last a' := by
  obtain ⟨txs, blockTime, rawBlockTime, todo⟩ := a
  cases todo with
  | nil => simp [readStep] at h
  | cons r todo =>
    have hr := ha.todo r mem_cons_self
    have htodo : ∀ r ∈ todo, ReadOk chain events last r := fun r hr =>
      ha.todo r (mem_cons_of_mem _ hr)
    have hpush : ∀ {r}, ReadOk chain events last r → ∀ r' ∈ r :: todo, ReadOk chain events last r' :=
      fun hr' r' hr'' => by
        rcases mem_cons.mp hr'' with rfl | hr''
        · exact hr'
        · exact htodo r' hr''
    cases r with
    | transactions =>
      obtain ⟨⟩ := h
      refine ⟨hm, fun t ht hb => ?_, ha.blockTime, ha.rawBlockTime, htodo⟩
      rw [← ht, getElem?_eq_getElem (hlast hb)]
      rfl
    | blockTime k keep =>
      have hstored : AttemptOk c chain events last
          ⟨txs, blockTime, rawBlockTime, .storedTime k keep :: todo⟩ :=
        ⟨ha.txs, ha.blockTime, ha.rawBlockTime, hpush hr⟩
      rw [readStep] at h
      dsimp only at h
      split at h
      · rename_i k' t hmemo
        split_ifs at h with hk
        · obtain ⟨⟩ := h
          refine ⟨hm, ha.keepTime htodo fun hkeep t' ht hb => ?_⟩
          rw [← Option.some.inj ht, ← hr hkeep, ← hk]
          exact hm.protocol k' t hmemo (hk ▸ hr hkeep ▸ hb)
        · obtain ⟨⟩ := h
          exact ⟨hm, hstored⟩
      · obtain ⟨⟩ := h
        exact ⟨hm, hstored⟩
    | storedTime k keep =>
      obtain ⟨⟩ := h
      obtain ⟨hm', hraw⟩ := getRawBlockTime_ok hm k
      exact ⟨hm', ha.txs, ha.blockTime, ha.rawBlockTime, hpush ⟨hr, hraw⟩⟩
    | previousTimes k raw keep =>
      obtain ⟨⟩ := h
      have htime : ∀ t, (raw.map fun t => protocolTime c t (getPreviousBlockTimes chain k)) = some t →
          Below events k → protocolTimeAt c chain k = some t := by
        intro t ht hb
        obtain ⟨t', ht', rfl⟩ := Option.map_eq_some_iff.mp ht
        rw [protocolTimeAt, hr.2 t' ht' hb, Option.map_some]
      refine ⟨?_, ha.keepTime htodo fun hkeep t ht hb => ?_⟩
      · split
        · rename_i t ht
          refine ⟨hm.raw, fun k' t' hk' hb => ?_⟩
          obtain ⟨⟩ := hk'
          exact htime t ht hb
        · exact hm
      · rw [← hr.1 hkeep] at hb ⊢
        exact htime t ht hb
    | rawBlockTime k =>
      obtain ⟨⟩ := h
      obtain ⟨hm', hraw⟩ := getRawBlockTime_ok hm k
      refine ⟨hm', ha.txs, ha.blockTime, fun t ht hb => ?_, htodo⟩
      rw [show k = last from hr] at hraw
      exact hraw t (by rw [← ht]; rw [show k = last from hr]) hb

end reads

/-! ### Every step -/

/-- No memo is at or above the block. -/
def memoBelow (memo : Memo) (block : ℕ) : Bool :=
  memo.raw.all (·.1 < block) && memo.protocol.all (·.1 < block)

/-- When pending events need no rollback, no memo holds the time of a block they orphan. -/
def safe (s : State T) : Event T → Bool
  | .applyReorgs =>
    match s.phase with
    | .tipRead _ pending _ =>
      match minReorgBlock pending with
      | some block => block < s.committed.length || memoBelow s.memo block
      | none => true
    | _ => true
  | _ => true

variable {block : ℕ}

theorem memoBelow_iff : memoBelow memo block ↔ MemoBelow memo block := by
  simp only [memoBelow, MemoBelow, Bool.and_eq_true, Option.all_eq_true, Prod.forall, decide_eq_true_eq]

theorem MemoBelow.mono {k k' : ℕ} (h : MemoBelow memo k) (hle : k ≤ k') : MemoBelow memo k' :=
  ⟨fun i t hi => (h.1 i t hi).trans_le hle, fun i t hi => (h.2 i t hi).trans_le hle⟩

variable {pending : List Reorg}

theorem minReorgBlock_le (h : minReorgBlock pending = some block) (he : e ∈ pending) : block ≤ e.blockIndex :=
  (min?_eq_some_iff.mp h).2 _ (mem_map_of_mem he)

theorem minReorgBlock_none (h : minReorgBlock pending = none) : pending = [] :=
  map_eq_nil_iff.mp (min?_eq_none_iff.mp h)

variable {blocks : List ℕ}

theorem mem_newReorgs :
    e ∈ newReorgs nextId blocks ↔ ∃ i, ∃ h : i < blocks.length, (⟨nextId + i, blocks[i]⟩ : Reorg) = e := by
  exact mem_mapIdx

theorem newReorgs_sorted (nextId : ℕ) (blocks : List ℕ) :
    (newReorgs nextId blocks).Pairwise fun a b => a.id < b.id := by
  rw [pairwise_iff_getElem]
  simp only [newReorgs, getElem_mapIdx]
  omega

variable {s : State T}

/-- The transaction of a reorg: what it removes lies at or above an event it writes. -/
theorem Inv.reorg (hi : Inv c s) (hmem : height ∈ blocks) : Inv c { s with
      chain := s.chain.take height
      events := s.events ++ newReorgs s.nextEventId blocks
      nextEventId := s.nextEventId + blocks.length } := by
  obtain ⟨i, hib, hih⟩ := getElem_of_mem hmem
  have hevent : ∃ e ∈ newReorgs s.nextEventId blocks, e.blockIndex = height :=
    ⟨⟨s.nextEventId + i, blocks[i]⟩, mem_newReorgs.mpr ⟨i, hib, rfl⟩, hih⟩
  obtain ⟨e, he, heq⟩ := hevent
  refine hi.decoder _ (fun h hb => kept_take _ (heq ▸ hb e he)) (fun j hj => ?_) (newReorgs_sorted _ _)
    (fun e' he' => ?_) (Nat.le_add_right _ _)
  · by_cases hj' : j < height
    · exact .inl (by rw [length_take]; omega)
    · exact .inr ⟨e, he, by omega⟩
  · obtain ⟨j, hj, rfl⟩ := mem_newReorgs.mp he'
    dsimp only
    omega

theorem startRead_ok (chain : List (Block T)) (events : List Reorg) (last : ℕ) :
    AttemptOk c chain events last (startRead c last) where
  txs := nofun
  blockTime := nofun
  rawBlockTime := nofun
  todo := by
    intro r hr
    unfold startRead at hr
    simp only [mem_append, mem_cons, not_mem_nil, or_false] at hr
    rcases hr with ((rfl | rfl) | hr) | (rfl | rfl)
    · trivial
    · exact nofun
    · split_ifs at hr
      · rw [mem_singleton.mp hr]
        exact nofun
      · exact absurd hr not_mem_nil
    · exact fun _ => rfl
    · exact rfl

/-- The block that is committed is the decoder's, if its height lies below the events. -/
theorem AttemptOk.input {chain : List (Block T)} {last : ℕ}
    (h : AttemptOk c chain events last a) (hx : a.input = some x)
    (hb : Below events last) : inputAt c chain last = some x := by
  unfold Attempt.input at hx
  split at hx
  · rename_i txs t raw h1 h2 h3 h4
    split_ifs at hx
    obtain ⟨⟩ := hx
    have hraw := h.rawBlockTime raw h4 hb
    have htime := h.blockTime t h3 hb
    obtain ⟨b, hblock, htxs⟩ := Option.map_eq_some_iff.mp (h.txs txs h2 hb)
    rw [protocolTimeAt, hraw, Option.map_some, Option.some.injEq] at htime
    rw [rawTimeAt, hblock, Option.map_some, Option.some.injEq] at hraw
    rw [inputAt, hblock, Option.map_some, htxs, hraw, htime]
  · simp at hx

/-- Recording the first event: nothing at or above its height is committed or remembered, so a height
below the other events lies below it too. -/
theorem Inv.createReorg (hi : Inv c s) {r : Reorg} {todo : List Reorg} {tip : ℕ}
    (hphase : s.phase = .marking (r :: todo) tip) :
    ∃ rest, unprocessed s = r :: rest ∧ s.committed.length ≤ r.blockIndex ∧
      getReorgsSince s.events (some r.id) = rest ∧
      Inv c { s with cursor := some r.id, phase := .marking todo tip } := by
  have hp := hi.phase
  rw [hphase] at hp
  obtain ⟨⟨tl, htl⟩, hdone, htip⟩ := hp
  have hun : unprocessed s = r :: (todo ++ tl) := htl.symm
  have hrest : getReorgsSince s.events (some r.id) = todo ++ tl := getReorgsSince_head hi.sorted hun
  obtain ⟨hlen, hmemo⟩ := hdone r mem_cons_self
  have hbelow : ∀ {k}, k < r.blockIndex → Below (todo ++ tl) k → Below (unprocessed s) k := by
    intro k hk hb
    rw [hun]
    exact forall_mem_cons.mpr ⟨hk, hb⟩
  have hr : r ∈ s.events := by
    have hmem : r ∈ unprocessed s := hun ▸ mem_cons_self
    unfold unprocessed getReorgsSince at hmem
    split at hmem
    · exact hmem
    · exact mem_of_mem_filter hmem
  refine ⟨todo ++ tl, hun, hlen, hrest, hi.sorted, hi.ids, ?_, ?_, ?_, ?_⟩
  · rintro id ⟨⟩
    exact hi.ids r hr
  · intro i x hx hb
    rw [unprocessed, hrest] at hb
    have hilt : i < s.committed.length := (List.getElem?_eq_some_iff.mp hx).1
    exact hi.committed i x hx (hbelow (by omega) hb)
  · rw [unprocessed, hrest]
    exact ⟨fun k t hk hb => hi.memo.raw k t hk (hbelow (hmemo.1 k t hk) hb),
      fun k t hk hb => hi.memo.protocol k t hk (hbelow (hmemo.2 k t hk) hb)⟩
  · rw [PhaseOk, unprocessed, hrest]
    refine ⟨prefix_append _ _, fun e he => hdone e (mem_cons_of_mem _ he), ?_⟩
    rw [hun] at htip
    exact htip

theorem Inv.commit (hi : Inv c s) {last tip : ℕ}
    (hphase : s.phase = .parsing cursor last tip a) (hx : a.input = some x) :
    Inv c { s with committed := s.committed ++ [x], phase := .applied cursor (last + 1) } := by
  have hp := hi.phase
  rw [hphase] at hp
  obtain ⟨hcur, hlast, hlt, htip, ha⟩ := hp
  refine ⟨hi.sorted, hi.ids, hi.cursor, fun i y hy hb => ?_, hi.memo, hcur, by
    rw [length_append, length_singleton, hlast]⟩
  rw [getElem?_append] at hy
  split_ifs at hy with hlen
  · exact hi.committed i y hy hb
  · have hlt' := (List.getElem?_eq_some_iff.mp hy).1
    rw [length_singleton] at hlt'
    have hil : i = last := by omega
    have hxy : x = y := by simpa [hil, hlast] using hy
    rw [hil] at hb ⊢
    exact hxy ▸ ha.input hx hb

theorem filterMap_range_getElem? {α : Type} (l : List α) (n : ℕ) (hn : l.length = n) :
    (List.range n).filterMap (fun i => l[i]?) = l := by
  subst hn
  induction l with
  | nil => rfl
  | cons x l ih =>
    rw [length_cons, range_succ_eq_map]
    simpa using ih

theorem Inv.settled (hi : Inv c s) (hun : unprocessed s = [])
    (hlen : s.committed.length = s.chain.length) : s.committed = freshBlocks c s.chain := by
  have hat : ∀ i, s.committed[i]? = inputAt c s.chain i := by
    intro i
    cases hx : s.committed[i]? with
    | some x => exact (hi.committed i x hx (by rw [hun]; exact nofun)).symm
    | none =>
      rw [getElem?_eq_none_iff, hlen] at hx
      rw [inputAt, getElem?_eq_none hx, Option.map_none]
  rw [freshBlocks, ← funext hat, filterMap_range_getElem? _ _ hlen]

variable [Inhabited T] {s' : State T} {e : Event T}

theorem inv_step (hsafe : safe s e) (hstep : step c s e = some s') (hi : Inv c s) : Inv c s' := by
  have hphase : ∀ {ph : Phase T}, PhaseOk c s ph → Inv c { s with phase := ph } := fun hp =>
    ⟨hi.sorted, hi.ids, hi.cursor, hi.committed, hi.memo, hp⟩
  have hp := hi.phase
  obtain ⟨chain, events, nextEventId, committed, cursor, memo, phase⟩ := s
  cases e with
  | decoderBlock block =>
    obtain ⟨⟩ := hstep
    have h := hi.decoder [] (fun k _ => kept_append chain [block] k)
      (fun i hlt => .inl (by rw [length_append]; exact Nat.lt_add_right _ hlt))
      List.Pairwise.nil (by simp) le_rfl
    simpa only [append_nil] using h
  | decoderReorg height blocks =>
    rw [step] at hstep
    split_ifs at hstep with hok
    obtain ⟨⟩ := hstep
    exact hi.reorg hok.1
  | decoderEvent =>
    obtain ⟨⟩ := hstep
    have h := hi.decoder [] (fun k _ => fun b hb => ⟨hb, rfl⟩) (fun i hlt => .inl hlt)
      List.Pairwise.nil (by simp) (Nat.le_succ nextEventId)
    simpa only [append_nil] using h
  | readCursor =>
    cases phase with
    | idle =>
      obtain ⟨⟩ := hstep
      exact hphase rfl
    | _ => simp [step] at hstep
  | readEvents =>
    cases phase with
    | cursorRead cur =>
      obtain ⟨⟩ := hstep
      obtain rfl : cur = cursor := hp
      exact hphase ⟨rfl, prefix_refl _⟩
    | _ => simp [step] at hstep
  | readTip =>
    cases phase with
    | eventsRead cur pending =>
      obtain ⟨⟩ := hstep
      exact hphase ⟨hp.1, hp.2, fun i hlt => .inl hlt⟩
    | _ => simp [step] at hstep
  | applyReorgs =>
    cases phase with
    | tipRead cur pending tip =>
      rw [step] at hstep
      rw [safe] at hsafe
      dsimp only at hstep hsafe
      cases hmin : minReorgBlock pending with
      | none =>
        rw [hmin] at hstep
        obtain ⟨⟩ := hstep
        obtain rfl := minReorgBlock_none hmin
        exact hphase ⟨hp.1, rfl, hp.2.2⟩
      | some block =>
        rw [hmin] at hstep hsafe
        dsimp only at hstep hsafe
        split_ifs at hstep with hlt
        · obtain ⟨⟩ := hstep
          refine ⟨hi.sorted, hi.ids, hi.cursor, fun i x hx hb => ?_, ⟨nofun, nofun⟩, hp.2.1,
            fun e he => ⟨?_, nofun, nofun⟩, hp.2.2⟩
          · refine hi.committed i x ?_ hb
            rw [getElem?_take] at hx
            split_ifs at hx
            exact hx
          · rw [length_take]
            exact (Nat.min_le_left _ _).trans (minReorgBlock_le hmin he)
        · obtain ⟨⟩ := hstep
          rw [decide_eq_false hlt, Bool.false_or, memoBelow_iff] at hsafe
          exact hphase ⟨hp.2.1, fun e he => ⟨(not_lt.mp hlt).trans (minReorgBlock_le hmin he),
            hsafe.mono (minReorgBlock_le hmin he)⟩, hp.2.2⟩
    | _ => simp [step] at hstep
  | createReorg =>
    cases phase with
    | marking todo tip =>
      cases todo with
      | nil => simp [step] at hstep
      | cons r todo =>
        obtain ⟨⟩ := hstep
        obtain ⟨rest, -, -, -, h⟩ := hi.createReorg rfl
        exact h
    | _ => simp [step] at hstep
  | startCatchUp =>
    cases phase with
    | marking todo tip =>
      cases todo with
      | nil =>
        obtain ⟨⟩ := hstep
        exact hphase ⟨rfl, rfl, hp.2.2⟩
      | cons r todo => simp [step] at hstep
    | _ => simp [step] at hstep
  | nextBlock =>
    cases phase with
    | catchUp cur last tip =>
      rw [step] at hstep
      dsimp only at hstep
      split_ifs at hstep with hlt hre
      · obtain ⟨⟩ := hstep
        exact hphase trivial
      · obtain ⟨⟩ := hstep
        exact hphase ⟨hp.1, hp.2.1, hlt, hp.2.2, startRead_ok _ _ _⟩
      · obtain ⟨⟩ := hstep
        exact hphase trivial
    | _ => simp [step] at hstep
  | read =>
    cases phase with
    | parsing cur last tip a =>
      obtain ⟨⟨memo', a'⟩, hread, rfl⟩ := Option.map_eq_some_iff.mp hstep
      obtain ⟨hcur, hlast, hlt, htip, ha⟩ := hp
      have hthere : Below (getReorgsSince events cursor) last → last < chain.length := fun hb => by
        rcases htip last hlt with h | ⟨e, he, hle⟩
        · exact h
        · exact absurd (hb e he) (not_lt.mpr hle)
      obtain ⟨hm', ha'⟩ := readStep_ok hi.memo ha hthere hread
      exact ⟨hi.sorted, hi.ids, hi.cursor, hi.committed, hm', hcur, hlast, hlt, htip, ha'⟩
    | _ => simp [step] at hstep
  | commit =>
    cases phase with
    | parsing cur last tip a =>
      obtain ⟨x, hx, rfl⟩ := Option.map_eq_some_iff.mp hstep
      exact hi.commit rfl hx
    | _ => simp [step] at hstep
  | refreshTip =>
    cases phase with
    | applied cur last =>
      obtain ⟨⟩ := hstep
      exact hphase ⟨hp.1, hp.2, fun i hlt => .inl hlt⟩
    | _ => simp [step] at hstep
  | stop =>
    obtain ⟨⟩ := hstep
    exact hphase trivial
  | crash =>
    obtain ⟨⟩ := hstep
    exact ⟨hi.sorted, hi.ids, hi.cursor, hi.committed, ⟨nofun, nofun⟩, trivial⟩

/-! ### Whole runs -/

theorem step_cursor (hstep : step c s e = some s') (he : e ≠ .createReorg) : s'.cursor = s.cursor := by
  cases e with
  | createReorg => exact absurd rfl he
  | _ =>
    simp only [step] at hstep
    (repeat' split at hstep) <;> first
      | exact (Option.some.inj hstep) ▸ rfl
      | exact (Option.map_eq_some_iff.mp hstep).choose_spec.2 ▸ rfl
      | exact absurd hstep (by simp)

theorem Inv.cursor_moves (hi : Inv c s) (hstep : step c s e = some s') (hcursor : s'.cursor ≠ s.cursor) :
    ∃ r rest, unprocessed s = r :: rest ∧ s'.cursor = some r.id ∧ unprocessed s' = rest ∧
      s.committed.length ≤ r.blockIndex := by
  by_cases he : e = .createReorg
  · subst he
    obtain ⟨chain, events, nextEventId, committed, cursor, memo, phase⟩ := s
    cases phase with
    | marking todo tip =>
      cases todo with
      | nil => simp [step] at hstep
      | cons r todo =>
        obtain ⟨⟩ := hstep
        obtain ⟨rest, hun, hlen, hrest, -⟩ := hi.createReorg rfl
        exact ⟨r, rest, hun, rfl, hrest, hlen⟩
    | _ => simp [step] at hstep
  · exact absurd (step_cursor hstep he) hcursor

/-- **No reorg is passed over.** In every interleaving of the decoder's blocks and reorgs with passes,
failed blocks and crashes in which no event is recorded over a memo it orphans: the cursor moves only
from one event to the next, when the indexer holds no block at or above it, and with no event
unprocessed and equal tips the committed blocks are those a fresh indexer obtains. -/
theorem reorgs_never_passed_over {s : State T}
    (h : Reaches (step c) (fun s e => safe s e = true) init s) :
    (∀ e s', step c s e = some s' → s'.cursor ≠ s.cursor →
      ∃ r rest, unprocessed s = r :: rest ∧ s'.cursor = some r.id ∧ unprocessed s' = rest ∧
        s.committed.length ≤ r.blockIndex) ∧
    (unprocessed s = [] → s.committed.length = s.chain.length →
      s.committed = freshBlocks c s.chain) := by
  have hi : Inv c s := h.invariant
    ⟨List.Pairwise.nil, nofun, nofun, nofun, ⟨nofun, nofun⟩, trivial⟩ fun _ _ _ hok hs => inv_step hok hs
  exact ⟨fun e s' hs hne => hi.cursor_moves hs hne, fun hun hlen => hi.settled hun hlen⟩

/-! ### A reorg that needs no rollback -/

/-- A network on the block's own stamps, without the maturity horizon. -/
def plainConfig : Config := ⟨1, 50, false, fun _ => false⟩

/-- A pass up to the catch-up loop, with the events it records. -/
def passStart (recorded : ℕ) : List (Event ℕ) :=
  [.readCursor, .readEvents, .readTip, .applyReorgs] ++
    (if recorded = 0 then [] else List.replicate recorded .createReorg ++ [.startCatchUp])

def readBlock (reads : ℕ) : List (Event ℕ) := .nextBlock :: List.replicate reads .read

/-- The decoder's first block is replaced by one with a later stamp. -/
def replaced : List (Event ℕ) := [.decoderReorg 0 [0], .decoderBlock ⟨2, 20⟩]

/-- The first block is applied, rolled back and applied anew. -/
def rolledBack : List (Event ℕ) :=
  [.decoderBlock ⟨1, 10⟩] ++ passStart 0 ++ readBlock 6 ++ [.commit, .stop] ++ replaced ++
    passStart 1 ++ readBlock 6 ++ [.commit]

theorem reorgs_never_passed_over_rolledBack : ∃ s, run (step plainConfig) init rolledBack = some s ∧
    s.committed = freshBlocks plainConfig s.chain ∧ s.committed = [⟨2, 20, 20⟩] := by
  obtain ⟨s, hs, hun, hlen, heq⟩ : ∃ s, run (fun s e => if safe s e then step plainConfig s e else none)
      init rolledBack = some s ∧ unprocessed s = [] ∧ s.committed.length = s.chain.length ∧
        s.committed = [⟨2, 20, 20⟩] := by
    decide +kernel
  obtain ⟨-, hsettled⟩ := reorgs_never_passed_over (Reaches.init.of_checked hs)
  exact ⟨s, run_of_checked hs, hsettled hun hlen, heq⟩

/-- The first block is read and not applied; its replacement needs no rollback. -/
def remembered : List (Event ℕ) :=
  [.decoderBlock ⟨1, 10⟩] ++ passStart 0 ++ readBlock 6 ++ [.stop] ++ replaced ++
    passStart 1 ++ readBlock 4 ++ [.commit]

/-- The memos still hold the orphaned block's time, so its replacement is committed with it. -/
theorem orphaned_time_is_committed : ∃ s, run (step plainConfig) init remembered = some s ∧
    unprocessed s = [] ∧ s.committed.length = s.chain.length ∧
    s.committed = [⟨2, 10, 10⟩] ∧ freshBlocks plainConfig s.chain = [⟨2, 20, 20⟩] := by
  decide +kernel

end XChainIndexer.BlockPoll.Reorgs
