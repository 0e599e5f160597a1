import Mathlib

/-! # Retroactive replay

A build carries a map of gate thresholds. At boot it is compared with the map the database recorded
last (`consensus/retroactive/boot_replay.js`): a gate that moved at or below the applied tip refuses the
boot, or, when the gate may be moved, opens a replay. A replay first runs its window again under the
recorded map (the witness pass), then rolls back once more and runs it under the build's map (the final
pass). A marker and a witness row carry it through restarts.

A boot is the list of its durable writes, so that it may stop after any of them. The digests of maps are
the maps themselves; a gate that is absent, null or past the far-future sentinel is disarmed. -/

namespace XChainIndexer.Retroactive.Boot

/-! ### Gate maps -/

/-- The gates of a build with their thresholds; `none` is a disarmed gate. -/
abbrev GateMap := List (ℕ × Option ℕ)

def threshold (m : GateMap) (key : ℕ) : Option ℕ := (m.lookup key).join

structure Config where
  /-- The gate's unit is time; a height otherwise. -/
  isTime : ℕ → Bool
  /-- `MOVABLE_GATES`. -/
  movable : ℕ → Bool
  /-- `RETROACTIVE_REPLAY_CAP_BLOCKS`. -/
  capBlocks : ℕ
  firstBlock : ℕ

/-- The gate is in force at a block. -/
def active (c : Config) (m : GateMap) (key height time : ℕ) : Bool :=
  (threshold m key).any fun v => if c.isTime key then v ≤ time else v ≤ height

/-- The first height or time at which the two thresholds can differ. -/
def boundary (recorded current : GateMap) (key : ℕ) : Option ℕ :=
  if threshold recorded key = threshold current key then none
  else [threshold recorded key, threshold current key].reduceOption.min?

structure Moves where
  target : Option ℕ
  movable : List ℕ
  refused : List ℕ

/-- The keys of both maps, each once, in order. -/
def gateKeys (recorded current : GateMap) : List ℕ :=
  (recorded.map Prod.fst ++ current.map Prod.fst).dedup.insertionSort (· ≤ ·)

/-- `classifyGateMoves`, without block times: a moved time gate throws, and so does a negative tip. -/
def classifyGateMoves (c : Config) (recorded current : GateMap) (tip : ℤ) : Option Moves :=
  let keys := gateKeys recorded current
  if tip < 0 ∨ keys.any fun k => c.isTime k && (boundary recorded current k).isSome then none
  else
    let moved := keys.filter fun k => (boundary recorded current k).any fun b => (b : ℤ) ≤ tip
    some {
      target := (moved.filterMap (boundary recorded current)).min?
      movable := moved.filter c.movable
      refused := moved.filter fun k => !c.movable k }

/-! ### The durable state -/

inductive MarkerState
  | pending
  | replaying
  | replayed
deriving DecidableEq

/-- `CONSENSUS_RETRO_REPLAY`. -/
structure Marker where
  target : ℕ
  replayTo : ℕ
  rulesFrom : GateMap
  rulesTo : GateMap
  state : MarkerState
deriving DecidableEq

inductive Phase
  | witness
  | witnessed
  | diverged
  | final
deriving DecidableEq

/-- The newest replay witness with its newest phase row. -/
structure Witness where
  gateHeights : GateMap
  phase : Phase
  target : ℕ
  replayTo : ℕ
  rulesFrom : GateMap
  changed : Option Bool
deriving DecidableEq

structure Db where
  /-- The committed blocks from `firstBlock` on: the rules each was applied under. -/
  blocks : List GateMap
  /-- The map of the last gate boot record. -/
  boot : Option GateMap
  marker : Option Marker
  witness : Option Witness

def Db.tip (c : Config) (db : Db) : Option ℤ :=
  if db.blocks = [] then none else some ((c.firstBlock + db.blocks.length : ℕ) - 1)

inductive Write
  | recordWitness (w : Witness)
  | recordWitnessPhase (phase : Phase)
  | recordMarker (m : Marker)
  | rollback (target : ℕ)
  | recordBoot (map : GateMap) (tip : Option ℤ)
  /-- The boot throws here. -/
  | refuse
deriving DecidableEq

/-- `recordConsensusGateBoot` refuses a gate that moved at or below the tip. -/
def bootMoved (c : Config) (recorded : Option GateMap) (map : GateMap) (tip : Option ℤ) : Bool :=
  match recorded, tip with
  | some recorded, some tip =>
    match classifyGateMoves c recorded map tip with
    | some moves => moves.movable ≠ [] || moves.refused ≠ []
    | none => true
  | _, _ => false

/-- One durable write, `none` when it throws. -/
def exec (c : Config) (db : Db) : Write → Option Db
  | .recordWitness w => some { db with witness := some w }
  | .recordWitnessPhase phase => some { db with witness := db.witness.map fun w => { w with phase } }
  | .recordMarker m => some { db with marker := some m }
  | .rollback target => some { db with blocks := db.blocks.take (target - c.firstBlock) }
  | .recordBoot map tip => if bootMoved c db.boot map tip then none else some { db with boot := some map }
  | .refuse => none

/-! ### The boot -/

inductive Action
  | serve
  | resume
  | rollback

/-- What a boot leaves in the process: how it goes on, and the rules blocks are applied under. -/
structure Outcome where
  action : Action
  marker : Option Marker
  phase : Option Phase
  rules : GateMap
  /-- The witness carries the comparison of its final pass. -/
  changed : Bool

abbrev Plan := List Write × Outcome

def isReplayOpen (m : Marker) : Bool := m.state = .pending || m.state = .replaying

def witnessMatches (w : Witness) (m : Marker) : Bool :=
  w.gateHeights = m.rulesFrom && w.target = m.target && w.replayTo = m.replayTo &&
    w.rulesFrom = m.rulesFrom

/-- The recorded map over the build's own tables, which a key it does not list falls back to. -/
def recordedRules (recorded current : GateMap) : GateMap := recorded ++ current

/-- The tip reaches the target. -/
def reached (tip : Option ℤ) (target : ℕ) : Bool := tip.any ((target : ℤ) ≤ ·)

/-- The rollback of a replay, and the tip to record below the target. -/
def rollbackWhenReached (target : ℕ) (tip : Option ℤ) : List Write × Option ℤ :=
  if reached tip target then ([.rollback target], some ((target : ℤ) - 1))
  else ([], tip.map (min · ((target : ℤ) - 1)))

def resumeOpenMarker (m : Marker) (tip : Option ℤ) (current : GateMap) (phase : Option Phase)
    (changed : Bool) : Plan :=
  if m.state ≠ .pending then ([], ⟨.resume, some m, phase, current, changed⟩)
  else
    let cut := rollbackWhenReached m.target tip
    let replaying := { m with state := .replaying }
    (cut.1 ++ [.recordBoot current cut.2, .recordMarker replaying],
      ⟨.resume, some replaying, phase, current, changed⟩)

def startFinalReplay (m : Marker) (tip : Option ℤ) (current : GateMap) : Plan :=
  let cut := rollbackWhenReached m.target tip
  let replaying := { m with state := .replaying }
  ((if m.state ≠ .pending then [.recordMarker { m with state := .pending }] else []) ++ (cut.1 ++
      [.recordBoot current cut.2, .recordWitnessPhase .final, .recordMarker replaying]),
    ⟨if reached tip m.target then .rollback else .resume, some replaying, some .final, current, false⟩)

/-- A boot under a witness that matches the marker. -/
def resumePhasedReplay (m : Marker) (w : Witness) (tip : Option ℤ) (current : GateMap) : Plan :=
  if !witnessMatches w m then ([.refuse], ⟨.resume, some m, none, current, false⟩)
  else match w.phase with
  | .final => resumeOpenMarker m tip current (some .final) w.changed.isSome
  | .diverged => ([], ⟨.resume, some m, some .diverged, current, false⟩)
  | .witnessed => startFinalReplay m tip current
  | .witness =>
    let rules := recordedRules w.gateHeights current
    let cut := rollbackWhenReached m.target tip
    let action := if reached tip m.target then Action.rollback else .resume
    match m.state with
    | .replayed =>
      let final := startFinalReplay m cut.2 current
      (cut.1 ++ .recordWitnessPhase .witnessed :: final.1, { final.2 with action })
    | .replaying =>
      if reached tip m.target then
        (cut.1 ++ [.recordBoot w.gateHeights cut.2], ⟨action, some m, some .witness, rules, false⟩)
      else ([], ⟨.resume, some m, some .witness, rules, false⟩)
    | .pending =>
      let replaying := { m with state := .replaying }
      (cut.1 ++ [.recordBoot w.gateHeights cut.2, .recordMarker replaying],
        ⟨action, some replaying, some .witness, rules, false⟩)

/-- The witness and the marker of a new replay, before its rollback. -/
def openReplay (db : Db) (recorded current : GateMap) (target tip : ℕ) (optTip : Option ℤ) : Plan :=
  let pending : Marker := ⟨target, tip, recorded, current, .pending⟩
  let fresh : Witness := ⟨recorded, .witness, target, tip, recorded, none⟩
  match db.witness with
  | some w =>
    if w.phase = .witness ∧ w.target = target ∧ w.replayTo = tip ∧ w.rulesFrom = recorded then
      let rest := resumePhasedReplay pending w optTip current
      (.recordMarker pending :: rest.1, rest.2)
    else
      let rest := resumePhasedReplay pending fresh optTip current
      (.recordWitness fresh :: .recordMarker pending :: rest.1, rest.2)
  | none =>
    let rest := resumePhasedReplay pending fresh optTip current
    (.recordWitness fresh :: .recordMarker pending :: rest.1, rest.2)

/-- A boot without an open replay; `go` and `mirrorGap` are the operator's consent and the gap of the
mirror at the target. -/
def bootClosed (c : Config) (db : Db) (current : GateMap) (go mirrorGap : Bool) : Option Plan :=
  let tip := db.tip c
  let serve : Plan := ([.recordBoot current tip], ⟨.serve, db.marker, none, current, false⟩)
  match db.boot, tip with
  | some recorded, some t =>
    match classifyGateMoves c recorded current t with
    | none => none
    | some moves =>
      if moves.refused ≠ [] then none
      else match moves.target with
        | none => some serve
        | some target =>
          if (c.capBlocks : ℤ) < t - target + 1 ∧ !go then none
          else if mirrorGap then none
          else some (openReplay db recorded current target t.toNat tip)
  | _, _ => some serve

/-- `runBootReplay`, `none` when it refuses. -/
def runBootReplay (c : Config) (db : Db) (current : GateMap) (go mirrorGap : Bool) : Option Plan :=
  match db.marker, db.witness with
  | some m, some w =>
    if witnessMatches w m ∧ (isReplayOpen m ∨ w.phase ≠ .final) then
      some (resumePhasedReplay m w (db.tip c) current)
    else if isReplayOpen m then some (resumeOpenMarker m (db.tip c) current none false)
    else bootClosed c db current go mirrorGap
  | some m, none =>
    if isReplayOpen m then some (resumeOpenMarker m (db.tip c) current none false)
    else bootClosed c db current go mirrorGap
  | none, _ => bootClosed c db current go mirrorGap

/-! ### A node -/

inductive Proc
  | down
  /-- The writes a boot still has before it. -/
  | booting (current : GateMap) (todo : List Write) (out : Outcome)
  | up (current : GateMap) (out : Outcome)

structure Node where
  db : Db
  proc : Proc

inductive Event
  | start (current : GateMap) (go mirrorGap : Bool)
  | write
  | ready
  | applyBlock
  /-- A chunk of the witness pass is compared. -/
  | witnessChunk (reproduced : Bool)
  /-- The final pass records whether the window changed. -/
  | recordFinal (changed : Bool)
  | recordReplayed
  /-- `retroactive-go --rewitness`. -/
  | rewitness
  | crash

def replayReachedTip (c : Config) (db : Db) (m : Marker) : Bool :=
  m.state = .replaying && reached (db.tip c) m.replayTo

/-- `replayMayComplete`: under a witness, only the final pass that recorded its comparison. -/
def replayMayComplete (c : Config) (db : Db) (m : Marker) (out : Outcome) : Bool :=
  replayReachedTip c db m && match out.phase with
    | none => true
    | some phase => phase = .final && out.changed

def setPhase (db : Db) (phase : Phase) (changed : Option Bool) : Db :=
  { db with witness := db.witness.map fun w => { w with phase, changed } }

def step (c : Config) (s : Node) : Event → Option Node
  | .start current go mirrorGap =>
    match s.proc with
    | .down => (runBootReplay c s.db current go mirrorGap).map fun plan =>
        { s with proc := .booting current plan.1 plan.2 }
    | _ => none
  | .write =>
    match s.proc with
    | .booting current (w :: todo) out => (exec c s.db w).map fun db => ⟨db, .booting current todo out⟩
    | _ => none
  | .ready =>
    match s.proc with
    | .booting current [] out => some { s with proc := .up current out }
    | _ => none
  | .applyBlock =>
    match s.proc with
    | .up _ out =>
      -- A diverged witness holds every block.
      if out.phase = some .diverged then none
      else some { s with db := { s.db with blocks := s.db.blocks ++ [out.rules] } }
    | _ => none
  | .witnessChunk reproduced =>
    match s.proc with
    | .up current out =>
      if out.phase ≠ some .witness then none
      else if !reproduced then
        some ⟨setPhase s.db .diverged none, .up current { out with phase := some .diverged }⟩
      else if out.marker.any fun m => s.db.tip c = some (m.replayTo : ℤ) then
        -- The process ends; the final pass runs from a fresh boot.
        some ⟨setPhase s.db .witnessed none, .down⟩
      else none
    | _ => none
  | .recordFinal changed =>
    match s.proc with
    | .up current out =>
      if out.phase = some .final ∧ !out.changed ∧ out.marker.any (replayReachedTip c s.db) then
        some ⟨setPhase s.db .final (some changed), .up current { out with changed := true }⟩
      else none
    | _ => none
  | .recordReplayed =>
    match s.proc with
    | .up current out =>
      match out.marker with
      | some m =>
        if replayMayComplete c s.db m out then
          let m := { m with state := .replayed }
          some ⟨{ s.db with marker := some m }, .up current { out with marker := some m }⟩
        else none
      | none => none
    | _ => none
  | .rewitness => some { s with db := setPhase s.db .witness none }
  | .crash => some { s with proc := .down }

def init : Node := ⟨⟨[], none, none, none⟩, .down⟩

end XChainIndexer.Retroactive.Boot
