import XChainIndexer.Retroactive.Boot

/-! # The plans of a boot

Two gate maps have the same rules at a height when they put the same gates in force there; a comparison
that finds no move at or below the tip says so up to the tip (`agree_of_classify`). The durable invariant
`Inv` is that the recorded map agrees with every committed block that no replay is still to roll back.
`runBootReplay_ok`: every write of a boot keeps it, and what the process goes on with after the last one
agrees with the chain. -/

namespace XChainIndexer.Retroactive.Plans

open Retroactive.Boot List Option

variable {c : Config}

/-! ### Agreement of two maps -/

/-- The maps put the same gates in force at a height, whatever the block's time. -/
def SameRules (c : Config) (m m' : GateMap) (height : ℕ) : Prop :=
  ∀ key time, active c m key height time = active c m' key height time

theorem SameRules.trans {m₁ m₂ m₃ : GateMap} {h : ℕ} (h₁ : SameRules c m₁ m₂ h) (h₂ : SameRules c m₂ m₃ h) :
    SameRules c m₁ m₃ h :=
  fun key time => (h₁ key time).trans (h₂ key time)

variable {m : GateMap}

theorem mem_of_threshold {key v : ℕ} (h : threshold m key = some v) : key ∈ m.map Prod.fst := by
  rw [threshold, join_eq_some_iff, lookup_eq_some_iff] at h
  obtain ⟨l₁, l₂, rfl, -⟩ := h
  simp

variable {rec cur : GateMap}

/-- A gate whose thresholds differ has a boundary, below which neither map has it in force. -/
theorem boundary_of_ne {key : ℕ} (h : threshold rec key ≠ threshold cur key) :
    key ∈ gateKeys rec cur ∧ ∃ b, boundary rec cur key = some b ∧
      (∀ v, threshold rec key = some v → b ≤ v) ∧ ∀ v, threshold cur key = some v → b ≤ v := by
  refine ⟨?_, ?_⟩
  · rw [gateKeys, mem_insertionSort, mem_dedup, mem_append]
    cases hr : threshold rec key with
    | some v => exact .inl (mem_of_threshold hr)
    | none =>
      cases hc : threshold cur key with
      | some v => exact .inr (mem_of_threshold hc)
      | none => exact absurd (hr.trans hc.symm) h
  · simp only [boundary, if_neg h]
    cases hr : threshold rec key <;> cases hc : threshold cur key <;>
      simp_all [List.reduceOption, List.min?]

/-- A height gate is not in force below a bound of its threshold. -/
theorem inactive_of_lt {key b height time : ℕ} (ht : c.isTime key = false)
    (hl : ∀ v, threshold m key = some v → b ≤ v) (hlt : height < b) : active c m key height time = false := by
  rw [active, ht]
  cases hv : threshold m key with
  | none => rfl
  | some v =>
    have := hl v hv
    simp
    omega

variable {moves : Moves} {height : ℕ}

theorem agree_of_classify {tip : ℤ}
    (h : classifyGateMoves c rec cur tip = some moves) (hm : moves.movable = [])
    (hr : moves.refused = []) (hh : (height : ℤ) ≤ tip) : SameRules c rec cur height := by
  intro key time
  by_cases heq : threshold rec key = threshold cur key
  · rw [active, active, heq]
  obtain ⟨hkey, b, hb, hlr, hlc⟩ := boundary_of_ne heq
  simp only [classifyGateMoves] at h
  split_ifs at h with hthrow
  obtain ⟨-, htime⟩ := not_or.mp hthrow
  obtain ⟨⟩ := h
  have ht : c.isTime key = false := by
    by_contra hne
    exact htime (any_eq_true.mpr ⟨key, hkey, by simp_all⟩)
  -- A boundary at or below the tip would stand in one of the two lists.
  have hlt : tip < b := by
    by_contra hle
    have hmem : key ∈ (gateKeys rec cur).filter fun k => (boundary rec cur k).any fun b => (b : ℤ) ≤ tip :=
      mem_filter.mpr ⟨hkey, by simp [hb]; omega⟩
    cases hmv : c.movable key with
    | true => exact filter_eq_nil_iff.mp hm key hmem hmv
    | false => exact filter_eq_nil_iff.mp hr key hmem (by simp [hmv])
  rw [inactive_of_lt ht hlr (by omega), inactive_of_lt ht hlc (by omega)]

theorem agree_of_bootMoved {tip : ℤ} (h : bootMoved c (some rec) cur (some tip) = false)
    (hh : (height : ℤ) ≤ tip) : SameRules c rec cur height := by
  simp only [bootMoved] at h
  cases hc : classifyGateMoves c rec cur tip with
  | none => simp [hc] at h
  | some moves =>
    simp only [hc, ne_eq, Bool.or_eq_false_iff, decide_eq_false_iff_not, not_not] at h
    exact agree_of_classify hc h.1 h.2 hh

/-! ### The durable invariant -/

/-- The recorded map exists and agrees with each committed block below the bound. -/
def AgreeBelow (c : Config) (db : Db) (bound : Option ℕ) : Prop :=
  ∀ i b, db.blocks[i]? = some b → (∀ T ∈ bound, c.firstBlock + i < T) →
    ∃ rec, db.boot = some rec ∧ SameRules c b rec (c.firstBlock + i)

/-- A witness of the marker's replay that has not reached the final pass. -/
def early (db : Db) (m : Marker) : Bool :=
  db.witness.any fun w => witnessMatches w m && decide (w.phase ≠ .final)

/-- The height from which the committed blocks are still to be rolled back. -/
def loose (db : Db) : Option ℕ :=
  db.marker.bind fun m => if m.state = .pending ∨ early db m then some m.target else none

/-- The replay's target was committed, and its boot recorded. -/
structure Anchored (c : Config) (db : Db) : Prop where
  target : ∀ m, db.marker = some m → m.target ≤ c.firstBlock + db.blocks.length
  boot : db.marker.isSome → db.boot.isSome

def Inv (c : Config) (db : Db) : Prop := AgreeBelow c db (loose db) ∧ Anchored c db

/-- No block is waiting for a rollback. -/
def Settled (c : Config) (db : Db) : Prop := AgreeBelow c db none ∧ Anchored c db

variable {db : Db}

theorem AgreeBelow.mono (h : AgreeBelow c db none) (bound : Option ℕ) : AgreeBelow c db bound :=
  fun i b hb _ => h i b hb (by simp)

theorem Settled.inv (h : Settled c db) : Inv c db := ⟨h.1.mono _, h.2⟩

/-- The database after a rollback to the target. -/
def cut (c : Config) (T : ℕ) (db : Db) : Db :=
  { db with blocks := db.blocks.take (T - c.firstBlock) }

variable {T : ℕ}

theorem cut_settled (h : AgreeBelow c db (some T)) (ha : Anchored c db)
    (hT : ∀ m, db.marker = some m → m.target ≤ T) : Settled c (cut c T db) := by
  refine ⟨fun i b hb _ => ?_, fun m hm => ?_, ha.boot⟩
  · rw [cut, getElem?_take] at hb
    split_ifs at hb with hi
    exact h i b hb (by simp; omega)
  · have := ha.target m hm
    have := hT m hm
    simp only [cut, length_take]
    omega

theorem cut_eq_self (h : ¬ reached (db.tip c) T) : cut c T db = db := by
  obtain ⟨blocks, boot, marker, witness⟩ := db
  simp only [cut, Db.mk.injEq, and_true]
  rw [take_eq_self_iff]
  by_cases hb : blocks = []
  · simp [hb]
  · simp [reached, Db.tip, hb] at h
    omega

/-- The tip recorded after the rollback is at or above every block left. -/
def Covers (c : Config) (db : Db) (tip : Option ℤ) : Prop :=
  ∀ i < db.blocks.length, ∃ t ∈ tip, ((c.firstBlock + i : ℕ) : ℤ) ≤ t

theorem tip_covers (db : Db) : Covers c db (db.tip c) := by
  intro i hi
  have hne : db.blocks ≠ [] := ne_nil_of_length_pos (by omega)
  refine ⟨_, by rw [Db.tip, if_neg hne]; rfl, ?_⟩
  omega

theorem recordTip_covers (db : Db) (T : ℕ) : Covers c (cut c T db) (rollbackWhenReached T (db.tip c)).2 := by
  intro i hi
  simp only [cut, length_take] at hi
  obtain ⟨t, ht, hle⟩ := tip_covers db i (by omega)
  rw [rollbackWhenReached]
  split_ifs
  · exact ⟨_, rfl, by omega⟩
  · exact ⟨_, by rw [ht]; rfl, by simp; omega⟩

theorem rollbackWhenReached_again (T : ℕ) (tip : Option ℤ) :
    rollbackWhenReached T (rollbackWhenReached T tip).2 = ([], (rollbackWhenReached T tip).2) := by
  unfold rollbackWhenReached
  split_ifs with h₁ h₂ h₂
  · simp [reached] at h₂
  · simp
  · obtain _ | t := tip
    · simp [reached] at h₂
    · simp only [reached, map_some, any_some, decide_eq_true_eq] at h₁ h₂
      omega
  · cases tip <;> simp

/-! ### The writes of a boot -/

/-- The process runs the build's own map, under a marker whose target was committed. -/
def Runs (c : Config) (current : GateMap) (db : Db) (out : Outcome) : Prop :=
  out.rules = current ∧ ∀ m, out.marker = some m → m.target ≤ c.firstBlock + db.blocks.length

/-- What a booted process may go on with: a target that is still to be rolled back, or a map that
agrees with the recorded one on a chain that does. -/
inductive Ready (c : Config) (current : GateMap) (db : Db) (out : Outcome) : Prop
  | held (hphase : out.phase = some .witness ∨ out.phase = some .diverged)
      (haction : out.action ≠ .serve) (hloose : (loose db).isSome)
  | settled (hrun : Runs c current db out) (hagree : AgreeBelow c db none)
      (hboot : ∃ rec, db.boot = some rec ∧ ∀ h, SameRules c current rec h)

/-- The invariant after each of the writes, and a process that may go on after the last. -/
def WritesOk (c : Config) (current : GateMap) (out : Outcome) : Db → List Write → Prop
  | db, [] => Ready c current db out
  | db, w :: ws => ∀ db', exec c db w = some db' → Inv c db' ∧ WritesOk c current out db' ws

variable {db db' : Db} {current : GateMap} {out : Outcome} {m : Marker} {w : Witness}

/-- The writes that may be made on a settled database. -/
def Fits (c : Config) (db : Db) : Write → Prop
  | .recordMarker m => m.target ≤ c.firstBlock + db.blocks.length ∧ db.boot.isSome
  | .recordBoot _ tip => Covers c db tip
  | .rollback _ => False
  | _ => True

variable {tip : Option ℤ}

theorem recordBoot_settled (h : Settled c db) {map : GateMap} (hc : Covers c db tip)
    (hb : bootMoved c db.boot map tip = false) : Settled c { db with boot := some map } := by
  refine ⟨fun i b hi _ => ⟨map, rfl, ?_⟩, h.2.target, fun _ => rfl⟩
  obtain ⟨rec, hrec, hag⟩ := h.1 i b hi (by simp)
  obtain ⟨t, ht, hle⟩ := hc i (List.getElem?_eq_some_iff.mp hi).1
  rw [hrec, ht] at hb
  exact hag.trans (agree_of_bootMoved hb hle)

theorem Settled.witness (h : Settled c db) (w : Option Witness) : Settled c { db with witness := w } :=
  ⟨h.1, h.2.target, h.2.boot⟩

theorem exec_settled (h : Settled c db) {w : Write} (hf : Fits c db w) (he : exec c db w = some db') :
    Settled c db' := by
  cases w with
  | recordWitness w => exact some.inj he ▸ h.witness _
  | recordWitnessPhase p => exact some.inj he ▸ h.witness _
  | recordMarker m =>
    obtain ⟨⟩ := he
    exact ⟨h.1, fun m' hm' => some.inj hm' ▸ hf.1, fun _ => hf.2⟩
  | rollback T => exact hf.elim
  | recordBoot map tip =>
    simp only [exec] at he
    split_ifs at he with hb
    obtain ⟨⟩ := he
    exact recordBoot_settled h hf (Bool.not_eq_true _ ▸ hb)
  | refuse => exact absurd he (by simp [exec])

variable {ws : List Write}

theorem WritesOk.cons (h : Settled c db) {w : Write} (hf : Fits c db w)
    (hrest : ∀ db', exec c db w = some db' → Settled c db' → WritesOk c current out db' ws) :
    WritesOk c current out db (w :: ws) :=
  fun db' he => ⟨(exec_settled h hf he).inv, hrest db' he (exec_settled h hf he)⟩

theorem WritesOk.rollback (hag : AgreeBelow c db (some T)) (ha : Anchored c db)
    (hT : ∀ m, db.marker = some m → m.target ≤ T) (hrest : WritesOk c current out (cut c T db) ws) :
    WritesOk c current out db ((rollbackWhenReached T (db.tip c)).1 ++ ws) := by
  by_cases hr : reached (db.tip c) T
  · rw [rollbackWhenReached, if_pos hr]
    intro db' he
    obtain ⟨⟩ := he
    exact ⟨(cut_settled hag ha hT).inv, hrest⟩
  · rw [rollbackWhenReached, if_neg hr]
    rwa [cut_eq_self hr] at hrest

/-- The writes that follow the record of the current map. -/
def Quiet (c : Config) (db : Db) : Write → Prop
  | .recordWitnessPhase _ => True
  | .recordMarker m => m.target ≤ c.firstBlock + db.blocks.length
  | _ => False

theorem writes_quiet (h : Settled c db) (hb : db.boot = some current) (hr : Runs c current db out)
    (hq : ∀ w ∈ ws, Quiet c db w) : WritesOk c current out db ws := by
  induction ws generalizing db with
  | nil => exact .settled hr h.1 ⟨current, hb, fun _ _ _ => rfl⟩
  | cons w ws ih =>
    have hw := hq w (by simp)
    cases w with
    | recordWitnessPhase p =>
      refine .cons h trivial fun db' he h' => ?_
      obtain ⟨⟩ := he
      exact ih h' hb hr fun w hm => hq w (by simp [hm])
    | recordMarker m =>
      refine .cons h ⟨hw, by simp [hb]⟩ fun db' he h' => ?_
      obtain ⟨⟩ := he
      exact ih h' hb hr fun w hm => hq w (by simp [hm])
    | _ => exact hw.elim

theorem writes_recordBoot (h : Settled c db) (hc : Covers c db tip) (hr : Runs c current db out)
    (hq : ∀ w ∈ ws, Quiet c db w) : WritesOk c current out db (.recordBoot current tip :: ws) := by
  refine .cons h hc fun db' he h' => ?_
  simp only [exec] at he
  split_ifs at he
  obtain ⟨⟩ := he
  exact writes_quiet h' rfl hr hq

/-! ### The plans of a boot -/

section
variable (hm : db.marker = some m)
include hm

theorem loose_of_pending (hp : m.state = .pending) : loose db = some m.target := by
  simp [loose, hm, hp]

theorem loose_of_early (he : early db m) : loose db = some m.target := by
  simp [loose, hm, he]

theorem isSome_loose (he : early db m) : (loose db).isSome := by
  rw [loose_of_early hm he]
  rfl

theorem marker_le : ∀ m', db.marker = some m' → m'.target ≤ m.target := by
  intro m' hm'
  rw [hm, some.injEq] at hm'
  rw [hm']

end

theorem target_le_cut (h : T ≤ c.firstBlock + db.blocks.length) :
    T ≤ c.firstBlock + (cut c T db).blocks.length := by
  simp only [cut, length_take]
  omega

theorem cut_inv (h : Inv c db) (hm : db.marker = some m) (hl : loose db = some m.target) :
    Settled c (cut c m.target db) :=
  cut_settled (hl ▸ h.1) h.2 (marker_le hm)

def sameGates (rec current : GateMap) : Bool :=
  (gateKeys rec current).all fun key => threshold rec key = threshold current key

theorem sameRules_of_sameGates (h : sameGates rec current) (height : ℕ) : SameRules c current rec height := by
  intro key time
  by_cases heq : threshold rec key = threshold current key
  · rw [active, active, heq]
  · exact absurd (of_decide_eq_true (all_eq_true.mp h key (boundary_of_ne heq).1)) heq

theorem resumeOpenMarker_ok (h : Inv c db) (hm : db.marker = some m) (ho : isReplayOpen m)
    (he : early db m = false) (phase : Option Phase) (changed : Bool)
    (hsame : m.state = .replaying → ∃ rec, db.boot = some rec ∧ sameGates rec current) :
    WritesOk c current (resumeOpenMarker m (db.tip c) current phase changed).2 db
      (resumeOpenMarker m (db.tip c) current phase changed).1 := by
  rw [resumeOpenMarker]
  split_ifs with hp
  · have hs : m.state = .replaying := by
      simp only [isReplayOpen, Bool.or_eq_true, decide_eq_true_eq] at ho
      exact ho.resolve_left hp
    obtain ⟨rec, hrec, hg⟩ := hsame hs
    have hl : loose db = none := by simp [loose, hm, hs, he]
    exact .settled ⟨rfl, fun m' hm' => some.inj hm' ▸ h.2.target m hm⟩ (hl ▸ h.1) ⟨rec, hrec, sameRules_of_sameGates hg⟩
  · have hl := loose_of_pending hm (not_not.mp hp)
    refine .rollback (hl ▸ h.1) h.2 (marker_le hm) ?_
    have hT := target_le_cut (h.2.target m hm)
    refine writes_recordBoot (cut_inv h hm hl) (recordTip_covers db _)
      ⟨rfl, fun m' hm' => some.inj hm' ▸ hT⟩ ?_
    simp only [mem_singleton, forall_eq]
    exact hT

theorem finalWrites_ok (h : Settled c db) (hT : m.target ≤ c.firstBlock + db.blocks.length)
    (hc : Covers c db tip) (hr : Runs c current db out) : WritesOk c current out db
      [.recordBoot current tip, .recordWitnessPhase .final, .recordMarker m] := by
  refine writes_recordBoot h hc hr ?_
  simp only [mem_cons, not_mem_nil, or_false, forall_eq_or_imp, forall_eq]
  exact ⟨trivial, hT⟩

theorem recordMarker_inv (h : Inv c db) (hm : db.marker = some m) (he : early db m)
    (state : MarkerState) : Inv c { db with marker := some { m with state } } := by
  have hl := loose_of_early hm he
  have hl' : loose { db with marker := some { m with state } } = some m.target :=
    loose_of_early (m := { m with state }) rfl he
  refine ⟨fun i b hb hlt => h.1 i b hb ?_, fun m' hm' => ?_, fun _ => h.2.boot (by simp [hm])⟩
  · rw [hl'] at hlt
    rwa [hl]
  · obtain ⟨⟩ := hm'
    exact h.2.target m hm

theorem rollback_finalWrites_ok (m' : Marker) (h : Inv c db) (hm : db.marker = some m)
    (he : early db m) (hT : m.target = m'.target) (hr : out.rules = current) (hout : out.marker = some m') :
    WritesOk c current out db ((rollbackWhenReached m'.target (db.tip c)).1 ++
      [.recordBoot current (rollbackWhenReached m'.target (db.tip c)).2,
        .recordWitnessPhase .final, .recordMarker m']) := by
  have hl : loose db = some m'.target := hT ▸ loose_of_early hm he
  have hle : ∀ m, db.marker = some m → m.target ≤ m'.target := hT ▸ marker_le hm
  refine .rollback (hl ▸ h.1) h.2 hle ?_
  have hle' : m'.target ≤ _ := target_le_cut (hT ▸ h.2.target m hm)
  refine finalWrites_ok (cut_settled (hl ▸ h.1) h.2 hle) hle' (recordTip_covers db _) ⟨hr, fun m hm => ?_⟩
  rw [hout, some.injEq] at hm
  exact hm ▸ hle'

theorem startFinalReplay_ok (h : Inv c db) (hm : db.marker = some m) (he : early db m)
    (hr : out.rules = current) (hout : out.marker = some { m with state := .replaying }) :
    WritesOk c current out db (startFinalReplay m (db.tip c) current).1 := by
  by_cases hp : m.state = .pending
  · simp only [startFinalReplay, hp, ne_eq, not_true_eq_false, if_false, nil_append]
    exact rollback_finalWrites_ok { m with state := .replaying } h hm he rfl hr hout
  · simp only [startFinalReplay, hp, ne_eq, not_false_eq_true, if_true]
    intro db' hx
    obtain ⟨⟩ := hx
    have h' := recordMarker_inv h hm he .pending
    exact ⟨h', rollback_finalWrites_ok { m with state := .replaying } h' rfl he rfl hr hout⟩

theorem startFinalReplay_settled (h : Settled c db) (hb : db.boot.isSome)
    (hT : m.target ≤ c.firstBlock + db.blocks.length) (hc : Covers c db tip)
    (hcut : rollbackWhenReached m.target tip = ([], tip)) (hr : out.rules = current)
    (hout : out.marker = some { m with state := .replaying }) :
    WritesOk c current out db (startFinalReplay m tip current).1 := by
  have hw : ∀ db, Settled c db → m.target ≤ c.firstBlock + db.blocks.length → Covers c db tip →
      WritesOk c current out db [.recordBoot current tip, .recordWitnessPhase .final,
        .recordMarker { m with state := .replaying }] :=
    fun _ h hT hc => finalWrites_ok h hT hc ⟨hr, fun m' hm' => some.inj (hout.symm.trans hm') ▸ hT⟩
  by_cases hp : m.state = .pending
  · simp only [startFinalReplay, hcut, hp, ne_eq, not_true_eq_false, if_false, nil_append]
    exact hw db h hT hc
  · simp only [startFinalReplay, hcut, hp, ne_eq, not_false_eq_true, if_true, nil_append]
    refine .cons h ⟨hT, hb⟩ fun db' he h' => ?_
    obtain ⟨⟩ := he
    exact hw _ h' hT hc

/-- The boot finds a replay in its final pass, or one without a witness, that is under way. -/
def resumesFinalPass (db : Db) : Bool := db.marker.any fun m => m.state = .replaying && !early db m

theorem early_of_witness (hw : db.witness = some w) (hmt : witnessMatches w m)
    (hp : w.phase ≠ .final) : early db m := by
  simp [early, hw, hmt, hp]

section
variable (h : Inv c db) (hm : db.marker = some m) (hw : db.witness = some w) (hmt : witnessMatches w m)
include h hm hw hmt

theorem witnessPass_ok (hp : w.phase = .witness) :
    WritesOk c current (resumePhasedReplay m w (db.tip c) current).2 db
      (resumePhasedReplay m w (db.tip c) current).1 := by
  have he : early db m := early_of_witness hw hmt (by simp [hp])
  have hl := loose_of_early hm he
  have hcut := cut_inv h hm hl
  have hT := target_le_cut (h.2.target m hm)
  have haction : (if reached (db.tip c) m.target then Action.rollback else .resume) ≠ .serve := by
    split_ifs <;> simp
  have hboot := h.2.boot (by simp [hm])
  simp only [resumePhasedReplay, hmt, hp, Bool.not_true, Bool.false_eq_true, if_false]
  cases hs : m.state with
  | replayed =>
    refine .rollback (hl ▸ h.1) h.2 (marker_le hm) (.cons hcut trivial fun db' hx h' => ?_)
    obtain ⟨⟩ := hx
    exact startFinalReplay_settled h' hboot hT (recordTip_covers db _)
      (rollbackWhenReached_again _ _) rfl rfl
  | replaying =>
    split_ifs with hr
    · refine .rollback (hl ▸ h.1) h.2 (marker_le hm) (.cons hcut (recordTip_covers db _) ?_)
      intro db' hx _
      simp only [exec] at hx
      split_ifs at hx
      obtain ⟨⟩ := hx
      exact .held (Or.inl rfl) (by simp) (isSome_loose hm he)
    · exact .held (Or.inl rfl) (by simp) (isSome_loose hm he)
  | pending =>
    refine .rollback (hl ▸ h.1) h.2 (marker_le hm) (.cons hcut (recordTip_covers db _) ?_)
    intro db' hx h'
    simp only [exec] at hx
    split_ifs at hx
    obtain ⟨⟩ := hx
    refine .cons h' ⟨hT, rfl⟩ fun db'' hx _ => ?_
    obtain ⟨⟩ := hx
    exact .held (Or.inl rfl) haction (isSome_loose rfl he)

theorem resumePhasedReplay_ok (ho : isReplayOpen m ∨ w.phase ≠ .final)
    (hsame : resumesFinalPass db → ∃ rec, db.boot = some rec ∧ sameGates rec current) :
    WritesOk c current (resumePhasedReplay m w (db.tip c) current).2 db
      (resumePhasedReplay m w (db.tip c) current).1 := by
  cases hp : w.phase with
  | witness => exact witnessPass_ok h hm hw hmt hp
  | witnessed =>
    simp only [resumePhasedReplay, hmt, hp, Bool.not_true, Bool.false_eq_true, if_false]
    exact startFinalReplay_ok h hm (early_of_witness hw hmt (by simp [hp])) rfl rfl
  | diverged =>
    simp only [resumePhasedReplay, hmt, hp, Bool.not_true, Bool.false_eq_true, if_false]
    have he : early db m := early_of_witness hw hmt (by simp [hp])
    exact .held (Or.inr rfl) (by simp) (isSome_loose hm he)
  | final =>
    simp only [resumePhasedReplay, hmt, hp, Bool.not_true, Bool.false_eq_true, if_false]
    have he : early db m = false := by simp [early, hw, hp]
    refine resumeOpenMarker_ok h hm (ho.resolve_right (not_not.mpr hp)) he _ _ fun hs => hsame ?_
    simp [resumesFinalPass, hm, hs, he]

end

theorem target_le_of_classify {tip : ℤ}
    (h : classifyGateMoves c rec current tip = some moves) (hT : moves.target = some T) : (T : ℤ) ≤ tip := by
  simp only [classifyGateMoves] at h
  split_ifs at h
  obtain ⟨⟩ := h
  obtain ⟨key, hkey, hb⟩ := mem_filterMap.mp (min?_mem hT)
  have := (mem_filter.mp hkey).2
  simpa [hb] using this

theorem openReplay_ok (h : Settled c db) (hb : db.boot = some rec) {tip : ℕ}
    (hT : T ≤ c.firstBlock + db.blocks.length) :
    WritesOk c current (openReplay db rec current T tip (db.tip c)).2 db
      (openReplay db rec current T tip (db.tip c)).1 := by
  let m : Marker := ⟨T, tip, rec, current, .pending⟩
  have hmarker : ∀ db', db'.blocks = db.blocks → db'.boot = db.boot → Settled c db' →
      ∀ w, db'.witness = some w → w.phase = .witness →
      WritesOk c current (resumePhasedReplay m w (db.tip c) current).2 db' (.recordMarker m ::
          (resumePhasedReplay m w (db.tip c) current).1) := by
    intro db' hbl hbo h' w hw hp
    have htip : db.tip c = db'.tip c := by rw [Db.tip, Db.tip, hbl]
    refine .cons h' ⟨hbl ▸ hT, by rw [hbo, hb]; rfl⟩ fun db'' hx h'' => ?_
    obtain ⟨⟩ := hx
    rw [htip]
    by_cases hmt : witnessMatches w m
    · exact witnessPass_ok h''.inv rfl hw hmt hp
    · rw [resumePhasedReplay, if_pos (by simp [hmt])]
      exact fun db' hx => absurd hx (by simp [exec])
  have hfresh : ∀ w : Witness, w.phase = .witness → WritesOk c current
      (resumePhasedReplay m w (db.tip c) current).2 db
      (.recordWitness w :: .recordMarker m :: (resumePhasedReplay m w (db.tip c) current).1) := by
    intro w hp
    refine .cons h trivial fun db' hx h' => ?_
    obtain ⟨⟩ := hx
    exact hmarker { db with witness := some w } rfl rfl h' w rfl hp
  rw [openReplay]
  cases hw : db.witness with
  | none => exact hfresh _ rfl
  | some w =>
    dsimp only
    split_ifs with hre
    · exact hmarker db rfl rfl h w hw hre.1
    · exact hfresh _ rfl

variable {go mirrorGap : Bool} {plan : Plan}

theorem bootClosed_ok (h : Settled c db) (hp : bootClosed c db current go mirrorGap = some plan) :
    WritesOk c current plan.2 db plan.1 := by
  have serve : WritesOk c current ⟨.serve, db.marker, none, current, false⟩ db
      [.recordBoot current (db.tip c)] :=
    writes_recordBoot h (tip_covers db) ⟨rfl, h.2.target⟩ (by simp)
  simp only [bootClosed] at hp
  split at hp
  case h_2 => exact some.inj hp ▸ serve
  case h_1 rec t hb ht =>
    split at hp
    case h_1 => exact absurd hp (by simp)
    case h_2 moves hc =>
      cases hT : moves.target with
      | none =>
        simp only [hT] at hp
        split_ifs at hp
        exact some.inj hp ▸ serve
      | some T =>
        simp only [hT] at hp
        split_ifs at hp
        obtain ⟨⟩ := hp
        refine openReplay_ok h hb ?_
        have hle := target_le_of_classify hc hT
        rw [Db.tip] at ht
        split_ifs at ht
        obtain ⟨⟩ := ht
        omega

/-- A boot without an early witness: an open marker resumes, a closed one leaves nothing to roll
back. -/
theorem unphased_ok (h : Inv c db) (hm : db.marker = some m) (he : early db m = false)
    (hsame : resumesFinalPass db → ∃ rec, db.boot = some rec ∧ sameGates rec current)
    (hp : (if isReplayOpen m then some (resumeOpenMarker m (db.tip c) current none false)
      else bootClosed c db current go mirrorGap) = some plan) : WritesOk c current plan.2 db plan.1 := by
  split_ifs at hp with ho
  · obtain ⟨⟩ := hp
    refine resumeOpenMarker_ok h hm ho he _ _ fun hs => hsame ?_
    simp [resumesFinalPass, hm, hs, he]
  · have hl : loose db = none := by
      have : m.state ≠ .pending := fun hs => ho (by simp [isReplayOpen, hs])
      simp [loose, hm, he, this]
    exact bootClosed_ok ⟨hl ▸ h.1, h.2⟩ hp

theorem runBootReplay_ok (h : Inv c db)
    (hsame : resumesFinalPass db → ∃ rec, db.boot = some rec ∧ sameGates rec current)
    (hp : runBootReplay c db current go mirrorGap = some plan) : WritesOk c current plan.2 db plan.1 := by
  rw [runBootReplay] at hp
  cases hm : db.marker with
  | none =>
    simp only [hm] at hp
    have hl : loose db = none := by simp [loose, hm]
    exact bootClosed_ok ⟨hl ▸ h.1, h.2⟩ hp
  | some m =>
    cases hw : db.witness with
    | none =>
      simp only [hm, hw] at hp
      exact unphased_ok h hm (by simp [early, hw]) hsame hp
    | some w =>
      simp only [hm, hw] at hp
      by_cases hph : witnessMatches w m ∧ (isReplayOpen m ∨ w.phase ≠ .final)
      · rw [if_pos hph] at hp
        obtain ⟨⟩ := hp
        exact resumePhasedReplay_ok h hm hw hph.1 hph.2 hsame
      · rw [if_neg hph] at hp
        refine unphased_ok h hm ?_ hsame hp
        by_contra he
        simp only [early, hw, any_some, Bool.not_eq_false, Bool.and_eq_true, decide_eq_true_eq] at he
        exact hph ⟨he.1, Or.inr he.2⟩

end XChainIndexer.Retroactive.Plans
