import XChainIndexer.Lib.Run
import XChainIndexer.Retroactive.Plans

/-! # Committed blocks agree with the running gate map

Every committed block was applied under rules that agree, at that block, with the recorded gate map,
apart from the blocks a pending replay is still to roll back. A boot that finds a replay in its final
pass writes nothing and compares nothing, so the map it runs is unrelated to the one the first part of
the window was replayed under. `committed_rules_agree` asks that such a boot carries the recorded gates,
or that no gate is movable, as in production, where no replay opens; `final_pass_changes_rules` is a run
with a movable gate and another map. -/

namespace XChainIndexer.Retroactive.Agree

open Lib.Run Retroactive.Boot Retroactive.Plans List Option

variable {c : Config} {db db' : Db} {current : GateMap} {out : Outcome} {m : Marker}

/-! ### A new phase of the witness -/

/-- The same databases up to the phase of the witness, which is early in the second wherever it is in
the first. -/
structure Rephased (db db' : Db) : Prop where
  blocks : db'.blocks = db.blocks
  boot : db'.boot = db.boot
  marker : db'.marker = db.marker
  early : ∀ m, early db m → early db' m
  matching : ∀ m, (db'.witness.any fun w => witnessMatches w m) =
    db.witness.any fun w => witnessMatches w m

theorem rephased_setPhase (db : Db) {p : Phase} (hp : p ≠ .final) (changed : Option Bool) :
    Rephased db (setPhase db p changed) := by
  refine ⟨rfl, rfl, rfl, fun m he => ?_, fun m => ?_⟩
  · simp only [early, setPhase, Option.any_map, Option.any_eq_true] at he ⊢
    obtain ⟨w, hw, he⟩ := he
    rw [Bool.and_eq_true] at he
    exact ⟨w, hw, Bool.and_eq_true_iff.mpr ⟨he.1, by simpa using hp⟩⟩
  · simp only [setPhase, Option.any_map]
    rfl

section
variable (h : Rephased db db')
include h

theorem Rephased.loose {T : ℕ} (hT : T ∈ loose db) : T ∈ Plans.loose db' := by
  rw [Plans.loose, h.marker]
  simp only [Plans.loose, mem_def, bind_eq_some_iff] at hT ⊢
  obtain ⟨m, hm, hif⟩ := hT
  refine ⟨m, hm, ?_⟩
  split_ifs at hif with hc
  rw [if_pos (hc.imp_right (h.early m)), hif]

theorem Rephased.agreeBelow {bound bound' : Option ℕ}
    (hb : ∀ T ∈ bound, T ∈ bound') (ha : AgreeBelow c db bound) : AgreeBelow c db' bound' := by
  intro i b hi hlt
  rw [h.blocks] at hi
  rw [h.boot]
  exact ha i b hi fun T hT => hlt T (hb T hT)

theorem Rephased.inv (hi : Inv c db) : Inv c db' := by
  refine ⟨h.agreeBelow (fun _ => h.loose) hi.1, ?_, ?_⟩
  · rw [h.marker, h.blocks]
    exact hi.2.target
  · rw [h.marker, h.boot]
    exact hi.2.boot

theorem Rephased.ready (hr : Ready c current db out) : Ready c current db' out := by
  cases hr with
  | held hphase haction hloose =>
    obtain ⟨T, hT⟩ := isSome_iff_exists.mp hloose
    exact .held hphase haction (isSome_iff_exists.mpr ⟨T, h.loose hT⟩)
  | settled hrun hagree hboot =>
    exact .settled ⟨hrun.1, h.blocks ▸ hrun.2⟩ (h.agreeBelow (fun _ hT => hT) hagree) (h.boot ▸ hboot)

end

theorem early_recordWitnessPhase (db : Db) (p : Phase) (m : Marker) :
    early { db with witness := db.witness.map fun w => { w with phase := p } } m =
      ((db.witness.any fun w => witnessMatches w m) && decide (p ≠ .final)) := by
  cases db.witness <;> simp [early, witnessMatches]

theorem Rephased.exec (h : Rephased db db') {w : Write} {db₁ : Db} (he : exec c db' w = some db₁) :
    ∃ db₀, Boot.exec c db w = some db₀ ∧ Rephased db₀ db₁ := by
  cases w with
  | recordWitness w =>
    obtain ⟨⟩ := he
    exact ⟨_, rfl, h.blocks, h.boot, h.marker, fun _ h => h, fun _ => rfl⟩
  | recordWitnessPhase p =>
    obtain ⟨⟩ := he
    refine ⟨_, rfl, h.blocks, h.boot, h.marker, fun m he => ?_, fun m => ?_⟩
    · rw [early_recordWitnessPhase] at he ⊢
      rwa [h.matching]
    · have := h.matching m
      simp only [Option.any_map]
      exact this
  | recordMarker m =>
    obtain ⟨⟩ := he
    exact ⟨_, rfl, h.blocks, h.boot, rfl, h.early, h.matching⟩
  | rollback T =>
    obtain ⟨⟩ := he
    exact ⟨_, rfl, by simp [h.blocks], h.boot, h.marker, h.early, h.matching⟩
  | recordBoot map tip =>
    simp only [Boot.exec, h.boot] at he ⊢
    split_ifs at he ⊢
    obtain ⟨⟩ := he
    exact ⟨_, rfl, h.blocks, rfl, h.marker, h.early, h.matching⟩
  | refuse => exact absurd he (by simp [Boot.exec])

theorem Rephased.writesOk {ws : List Write} (h : Rephased db db')
    (hw : WritesOk c current out db ws) : WritesOk c current out db' ws := by
  induction ws generalizing db db' with
  | nil => exact h.ready hw
  | cons w ws ih =>
    intro db₁ he
    obtain ⟨db₀, he₀, h₀⟩ := h.exec he
    obtain ⟨hi, hrest⟩ := hw db₀ he₀
    exact ⟨h₀.inv hi, ih h₀ hrest⟩

/-! ### Runs -/

/-- The rules of every committed block agree, at that block, with the map. -/
def RulesAgree (c : Config) (db : Db) (map : GateMap) : Prop :=
  ∀ i b, db.blocks[i]? = some b → SameRules c b map (c.firstBlock + i)

/-- A boot that finds the final pass under way carries the recorded gates. -/
def safe (s : Node) : Event → Bool
  | .start current _ _ => !resumesFinalPass s.db || s.db.boot.any fun rec => sameGates rec current
  | _ => true

def ProcOk (c : Config) (db : Db) : Proc → Prop
  | .down => True
  | .booting current todo out => WritesOk c current out db todo
  | .up current out => Ready c current db out

def NodeInv (c : Config) (s : Node) : Prop := Inv c s.db ∧ ProcOk c s.db s.proc

section
variable (h : Ready c current db out)
  (hs : out.action = .serve ∨ out.phase = none ∨ out.phase = some .final)
include h hs

theorem settled_of_ready : Runs c current db out ∧ AgreeBelow c db none ∧
      ∃ rec, db.boot = some rec ∧ ∀ h, SameRules c current rec h := by
  cases h with
  | held hphase haction hloose =>
    rcases hs with hs | hs | hs
    · exact absurd hs haction
    all_goals rw [hs] at hphase; simp at hphase
  | settled hrun hagree hboot => exact ⟨hrun, hagree, hboot⟩

theorem rulesAgree_of_ready : out.rules = current ∧ RulesAgree c db current := by
  obtain ⟨hrun, hagree, rec', hrec', hcur⟩ := settled_of_ready h hs
  refine ⟨hrun.1, fun i b hb => ?_⟩
  obtain ⟨rec, hrec, hag⟩ := hagree i b hb (by simp)
  obtain rfl := some.inj (hrec.symm.trans hrec')
  exact hag.trans fun key time => (hcur _ key time).symm

end

theorem phase_of_mayComplete (h : replayMayComplete c db m out) :
    out.phase = none ∨ out.phase = some .final := by
  rw [replayMayComplete, Bool.and_eq_true] at h
  cases hp : out.phase with
  | none => exact .inl rfl
  | some phase =>
    have := h.2
    simp only [hp, Bool.and_eq_true, decide_eq_true_eq] at this
    exact .inr (by rw [this.1])

theorem applyBlock_inv (h : Inv c db) (hr : Ready c current db out) :
    Inv c { db with blocks := db.blocks ++ [out.rules] } ∧
      Ready c current { db with blocks := db.blocks ++ [out.rules] } out := by
  have anchored : Anchored c { db with blocks := db.blocks ++ [out.rules] } := by
    refine ⟨fun m hm => ?_, h.2.boot⟩
    have := h.2.target m hm
    simp only [length_append, length_singleton]
    omega
  cases hr with
  | held hphase haction hloose =>
    refine ⟨⟨fun i b hb hlt => ?_, anchored⟩, .held hphase haction hloose⟩
    obtain ⟨T, hT⟩ := isSome_iff_exists.mp hloose
    -- The new block stands at or above the target.
    have hi : i < db.blocks.length := by
      obtain ⟨m, hm, hif⟩ := bind_eq_some_iff.mp hT
      have hle := h.2.target m hm
      split_ifs at hif
      obtain ⟨⟩ := hif
      have := hlt m.target hT
      omega
    exact h.1 i b (by rwa [getElem?_append_left hi] at hb) hlt
  | settled hrun hagree hboot =>
    have hag : AgreeBelow c { db with blocks := db.blocks ++ [out.rules] } none := by
      intro i b hb _
      rw [getElem?_append] at hb
      split_ifs at hb with hi
      · exact hagree i b hb (by simp)
      · obtain ⟨-, rfl⟩ : i - db.blocks.length = 0 ∧ out.rules = b := by
          simpa [getElem?_singleton] using hb
        obtain ⟨rec, hrec, hcur⟩ := hboot
        exact ⟨rec, hrec, hrun.1 ▸ hcur _⟩
    refine ⟨⟨hag.mono _, anchored⟩, .settled ⟨hrun.1, fun m hm => ?_⟩ hag hboot⟩
    have := hrun.2 m hm
    simp only [length_append, length_singleton]
    omega

theorem step_nodeInv {s s' : Node} {e : Event} (hok : safe s e) (hs : step c s e = some s')
    (h : NodeInv c s) : NodeInv c s' := by
  obtain ⟨db, proc⟩ := s
  obtain ⟨hi, hp⟩ := h
  cases e with
  | start current go mirrorGap =>
    cases proc with
    | down =>
      obtain ⟨plan, hplan, rfl⟩ := map_eq_some_iff.mp hs
      refine ⟨hi, runBootReplay_ok hi (fun hf => ?_) hplan⟩
      simpa [safe, hf, Option.any_eq_true] using hok
    | _ => exact absurd hs (by simp [step])
  | write =>
    cases proc with
    | booting current todo out =>
      cases todo with
      | nil => exact absurd hs (by simp [step])
      | cons w ws =>
        obtain ⟨db', he, rfl⟩ := map_eq_some_iff.mp hs
        exact hp db' he
    | _ => exact absurd hs (by simp [step])
  | ready =>
    cases proc with
    | booting current todo out =>
      cases todo with
      | nil => exact some.inj hs ▸ ⟨hi, hp⟩
      | cons w ws => exact absurd hs (by simp [step])
    | _ => exact absurd hs (by simp [step])
  | applyBlock =>
    cases proc with
    | up current out =>
      simp only [step] at hs
      split_ifs at hs
      exact some.inj hs ▸ applyBlock_inv hi hp
    | _ => exact absurd hs (by simp [step])
  | witnessChunk reproduced =>
    cases proc with
    | up current out =>
      simp only [step] at hs
      split_ifs at hs
      · obtain ⟨⟩ := hs
        have hre := rephased_setPhase db (p := .diverged) (by simp) none
        refine ⟨hre.inv hi, ?_⟩
        cases hre.ready hp with
        | held hphase haction hloose => exact .held (Or.inr rfl) haction hloose
        | settled hrun hagree hboot => exact .settled hrun hagree hboot
      · obtain ⟨⟩ := hs
        exact ⟨(rephased_setPhase db (by simp) none).inv hi, trivial⟩
    | _ => exact absurd hs (by simp [step])
  | recordFinal changed =>
    cases proc with
    | up current out =>
      simp only [step] at hs
      split_ifs at hs with hc
      obtain ⟨⟩ := hs
      obtain ⟨hrun, hagree, hboot⟩ := settled_of_ready hp (Or.inr (Or.inr hc.1))
      exact ⟨⟨AgreeBelow.mono hagree _, hi.2.target, hi.2.boot⟩, .settled hrun hagree hboot⟩
    | _ => exact absurd hs (by simp [step])
  | recordReplayed =>
    cases proc with
    | up current out =>
      simp only [step] at hs
      cases hm : out.marker with
      | none => simp [hm] at hs
      | some m =>
        simp only [hm] at hs
        split_ifs at hs with hmay
        obtain ⟨⟩ := hs
        obtain ⟨hrun, hagree, hboot⟩ := settled_of_ready hp (Or.inr (phase_of_mayComplete hmay))
        have hT := hrun.2 m hm
        refine ⟨⟨AgreeBelow.mono hagree _, fun m' hm' => ?_, fun _ => ?_⟩,
          .settled ⟨hrun.1, fun m' hm' => ?_⟩ hagree hboot⟩
        · exact some.inj hm' ▸ hT
        · obtain ⟨rec, hrec, -⟩ := hboot
          exact isSome_iff_exists.mpr ⟨rec, hrec⟩
        · exact some.inj hm' ▸ hT
    | _ => exact absurd hs (by simp [step])
  | rewitness =>
    have hre := rephased_setPhase db (p := .witness) (by simp) none
    obtain ⟨⟩ := hs
    refine ⟨hre.inv hi, ?_⟩
    cases proc with
    | down => trivial
    | booting current todo out => exact hre.writesOk hp
    | up current out => exact hre.ready hp
  | crash => exact some.inj hs ▸ ⟨hi, trivial⟩

theorem init_nodeInv (c : Config) : NodeInv c init :=
  ⟨⟨fun i b hb => absurd hb (by simp [init]), fun m hm => absurd hm (by simp [init]), by simp [init]⟩,
    trivial⟩

/-! ### The production list -/

section immovable

variable (hno : ∀ key, c.movable key = false)
include hno

/-- Without movable gates a boot that finds no open replay serves or refuses. -/
theorem bootClosed_serves {go mirrorGap : Bool} {plan : Plan}
    (h : bootClosed c db current go mirrorGap = some plan) :
    plan = ([.recordBoot current (db.tip c)], ⟨.serve, db.marker, none, current, false⟩) := by
  unfold bootClosed at h
  dsimp only at h
  split at h
  · rename_i recorded t _ _
    cases hmoves : classifyGateMoves c recorded current t with
    | none => simp [hmoves] at h
    | some moves =>
      simp only [hmoves] at h
      by_cases hrefused : moves.refused ≠ []
      · simp [hrefused] at h
      rw [if_neg hrefused] at h
      -- a target is a moved gate, and every moved gate is refused
      have htarget : moves.target = none := by
        unfold classifyGateMoves at hmoves
        dsimp only at hmoves
        split_ifs at hmoves
        obtain ⟨⟩ := hmoves
        simp only [hno, Bool.not_false, filter_true, ne_eq, not_not] at hrefused
        simp only [hrefused, filterMap_nil, min?_nil]
      rw [htarget] at h
      exact (some.inj h).symm
  · exact (some.inj h).symm

/-- No replay was ever opened. -/
def Unmoved (s : Node) : Prop :=
  s.db.marker = none ∧ match s.proc with
    | .down => True
    | .booting _ todo out => out.marker = none ∧ out.phase = none ∧ ∀ w ∈ todo, ∃ map tip, w = .recordBoot map tip
    | .up _ out => out.marker = none ∧ out.phase = none

theorem unmoved_step {s s' : Node} {e : Event} (hs : step c s e = some s') (h : Unmoved s) : Unmoved s' := by
  obtain ⟨db, proc⟩ := s
  obtain ⟨hmarker, hproc⟩ := h
  cases e with
  | start current go mirrorGap =>
    cases proc with
    | down =>
      obtain ⟨plan, hplan, rfl⟩ := map_eq_some_iff.mp hs
      have hclosed : bootClosed c db current go mirrorGap = some plan := by
        simpa [runBootReplay, show db.marker = none from hmarker] using hplan
      obtain rfl := bootClosed_serves hno hclosed
      exact ⟨hmarker, hmarker, rfl, by simp⟩
    | _ => simp [step] at hs
  | write =>
    cases proc with
    | booting current todo out =>
      cases todo with
      | nil => simp [step] at hs
      | cons w ws =>
        obtain ⟨db', he, rfl⟩ := map_eq_some_iff.mp hs
        obtain ⟨hout, hphase, hall⟩ := hproc
        obtain ⟨map, tip, rfl⟩ := hall w mem_cons_self
        rw [exec] at he
        split_ifs at he
        obtain ⟨⟩ := he
        exact ⟨hmarker, hout, hphase, fun w hw => hall w (mem_cons_of_mem _ hw)⟩
    | _ => simp [step] at hs
  | ready =>
    cases proc with
    | booting current todo out =>
      cases todo with
      | nil => exact some.inj hs ▸ ⟨hmarker, hproc.1, hproc.2.1⟩
      | cons w ws => simp [step] at hs
    | _ => simp [step] at hs
  | applyBlock =>
    cases proc with
    | up current out =>
      simp only [step] at hs
      split_ifs at hs
      exact some.inj hs ▸ ⟨hmarker, hproc⟩
    | _ => simp [step] at hs
  | witnessChunk reproduced =>
    cases proc with
    | up current out => simp [step, hproc.2] at hs
    | _ => simp [step] at hs
  | recordFinal changed =>
    cases proc with
    | up current out => simp [step, hproc.2] at hs
    | _ => simp [step] at hs
  | recordReplayed =>
    cases proc with
    | up current out => simp [step, hproc.1] at hs
    | _ => simp [step] at hs
  | rewitness => exact some.inj hs ▸ ⟨hmarker, hproc⟩
  | crash => exact some.inj hs ▸ ⟨hmarker, trivial⟩

end immovable

/-- The moments the node takes its map for the rules of the whole chain. -/
def Settles (e : Event) (out : Outcome) : Prop :=
  e = .ready ∧ out.action = .serve ∨ e = .recordReplayed

/-- **Committed blocks agree with the running map.** When no gate is movable, as in production, or every
boot that finds the final pass of a replay under way carries the recorded gates, then whenever a boot
ends serving or the replay is recorded as replayed, the node runs its own map and every committed block
was applied under rules that agree with it at that block. -/
theorem committed_rules_agree (c : Config) {s s' : Node} {e : Event}
    (h : Reaches (step c) (fun s e => (∀ key, c.movable key = false) ∨ safe s e = true) init s)
    (hs : step c s e = some s') {current : GateMap} {out : Outcome} (hp : s'.proc = .up current out)
    (he : Settles e out) : out.rules = current ∧ RulesAgree c s'.db current := by
  have hi : NodeInv c s := by
    have hboth : NodeInv c s ∧ ((∀ key, c.movable key = false) → Unmoved s) := by
      apply h.invariant
      · exact ⟨init_nodeInv c, fun _ => ⟨rfl, trivial⟩⟩
      · rintro s e s' hok hs ⟨hi, hun⟩
        refine ⟨step_nodeInv (hok.elim (fun hno => ?_) id) hs hi, fun hno => unmoved_step hno hs (hun hno)⟩
        cases e <;> simp [safe, resumesFinalPass, (hun hno).1]
    exact hboth.1
  obtain ⟨db, proc⟩ := s
  rcases he with ⟨rfl, ha⟩ | rfl
  · have hi' := step_nodeInv rfl hs hi
    rw [NodeInv, hp] at hi'
    exact rulesAgree_of_ready hi'.2 (Or.inl ha)
  · have hi' := step_nodeInv rfl hs hi
    cases proc with
    | up current' out' =>
      simp only [step] at hs
      cases hm : out'.marker with
      | none => simp [hm] at hs
      | some m =>
        simp only [hm] at hs
        split_ifs at hs with hmay
        obtain ⟨⟩ := hs
        obtain ⟨rfl, rfl⟩ := Proc.up.inj hp
        exact rulesAgree_of_ready hi'.2 (Or.inr (phase_of_mayComplete hmay))
    | _ => exact absurd hs (by simp [step])

/-- One movable gate and a chain from height 0. -/
def demo : Config := ⟨fun _ => false, fun _ => true, 100, 0⟩

/-- Four blocks without the gate, its move to height 1 with the witness pass, and the final pass up to
its first block. -/
def finalPassOpen : List Event :=
  [.start [(1, none)] false false, .write, .ready, .applyBlock, .applyBlock, .applyBlock, .applyBlock,
    .crash, .start [(1, some 1)] false false, .write, .write, .write, .write, .write, .ready,
    .applyBlock, .applyBlock, .applyBlock, .witnessChunk true,
    .start [(1, some 1)] false false, .write, .write, .write, .write, .write, .ready, .applyBlock, .crash]

/-- The restart of the final pass under a map, to the end of the window. -/
def finishUnder (map : GateMap) : List Event :=
  [.start map false false, .ready, .applyBlock, .applyBlock, .recordFinal true]

/-- The process is up under the rules. -/
def upUnder (current : GateMap) : Proc → Bool
  | .up rules _ => decide (rules = current)
  | _ => false

theorem up_of_upUnder {proc : Proc} (h : upUnder current proc) : ∃ out, proc = .up current out := by
  cases proc with
  | up rules out =>
    obtain rfl := of_decide_eq_true h
    exact ⟨out, rfl⟩
  | _ => cases h

/-- The build that opened the replay ends it. -/
theorem committed_rules_agree_replayed : ∃ s s' out,
    run (step demo) init (finalPassOpen ++ finishUnder [(1, some 1)]) = some s ∧
    step demo s .recordReplayed = some s' ∧ s'.proc = .up [(1, some 1)] out ∧
    RulesAgree demo s'.db [(1, some 1)] := by
  obtain ⟨s, hs, s', hs', hp'⟩ : ∃ s, run (fun s e => if safe s e then step demo s e else none) init
      (finalPassOpen ++ finishUnder [(1, some 1)]) = some s ∧ ∃ s', step demo s .recordReplayed = some s' ∧
        upUnder [(1, some 1)] s'.proc := by decide +kernel
  obtain ⟨out, hproc⟩ := up_of_upUnder hp'
  exact ⟨s, s', out, run_of_checked hs, hs', hproc, (committed_rules_agree demo
    (Reaches.init.of_run_checked (fun _ _ _ hsafe => Or.inr hsafe) hs) hs' hproc (Or.inr rfl)).2⟩

/-- A build without the gate ends the final pass another one began: the block at height 1 was replayed
with the gate in force. -/
theorem final_pass_changes_rules : ∃ s s' out,
    run (step demo) init (finalPassOpen ++ finishUnder [(1, none)]) = some s ∧
    step demo s .recordReplayed = some s' ∧ s'.proc = .up [(1, none)] out ∧
    ¬ RulesAgree demo s'.db [(1, none)] := by
  obtain ⟨s, hs, s', hs', hb, hproc⟩ : ∃ s, run (step demo) init
      (finalPassOpen ++ finishUnder [(1, none)]) = some s ∧ ∃ s', step demo s .recordReplayed = some s' ∧
        s'.db.blocks[1]? = some [(1, some 1)] ∧ upUnder [(1, none)] s'.proc := by decide +kernel
  obtain ⟨out, hout⟩ := up_of_upUnder hproc
  refine ⟨s, s', out, hs, hs', hout, fun hag => ?_⟩
  exact absurd (hag 1 _ hb 1 0) (by decide)

end XChainIndexer.Retroactive.Agree
