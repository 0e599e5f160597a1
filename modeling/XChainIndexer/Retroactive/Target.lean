import XChainIndexer.Retroactive.Plans

/-! # The target of a boot

What the comparison of two gate maps by their boundaries says about the rules block by block. Main
result: `boot_target`. The lowest boundary at or below the tip is the lowest applied block whose rules
differ, and a boot serves exactly when there is none, if and only if nothing is applied or no time gate
moved, since the boot has no block times to compare it with, and no threshold of a moved gate lies below
the first block (`moved_gate_mistaken`). -/

namespace XChainIndexer.Retroactive.Target

open Retroactive.Boot Retroactive.Plans List Option

variable {c : Config} {db : Db} {rec cur : GateMap}

/-! ### The rules of the applied blocks -/

def Applied (c : Config) (db : Db) (height : ℕ) : Prop :=
  c.firstBlock ≤ height ∧ height < c.firstBlock + db.blocks.length

/-- Some gate is in force at the block under one map and not under the other. -/
def Differs (c : Config) (rec cur : GateMap) (times : ℕ → ℕ) (height : ℕ) : Prop :=
  ∃ key, active c rec key height (times height) ≠ active c cur key height (times height)

variable {key b : ℕ}

/-- At its boundary a moved gate is in force under the map with the lower threshold only. -/
theorem active_ne_at_boundary (hb : boundary rec cur key = some b)
    (hunit : c.isTime key = false) (time : ℕ) : active c rec key b time ≠ active c cur key b time := by
  unfold boundary at hb
  split_ifs at hb with heq
  unfold active
  rw [hunit]
  cases hr : threshold rec key <;> cases hc : threshold cur key <;>
    simp [hr, hc, List.reduceOption, List.min?] at hb heq ⊢ <;> omega

variable {tip : ℤ}

theorem tip_eq_some_iff :
    db.tip c = some tip ↔ db.blocks ≠ [] ∧ tip = (c.firstBlock + db.blocks.length : ℕ) - 1 := by
  unfold Db.tip
  split_ifs with h
  · simp [h]
  · simp [h, eq_comm]

theorem applied_iff (ht : db.tip c = some tip) (height : ℕ) :
    Applied c db height ↔ c.firstBlock ≤ height ∧ (height : ℤ) ≤ tip := by
  obtain ⟨-, rfl⟩ := tip_eq_some_iff.mp ht
  unfold Applied
  omega

/-- The applied blocks whose rules differ. -/
def differing (c : Config) (db : Db) (rec cur : GateMap) (times : ℕ → ℕ) : Set ℕ :=
  {h | Applied c db h ∧ Differs c rec cur times h}

/-- The boundaries up to the tip. -/
def boundaries (rec cur : GateMap) (tip : ℤ) : Set ℕ :=
  {b | (b : ℤ) ≤ tip ∧ ∃ key, boundary rec cur key = some b}

theorem boundary_mem (hb : boundary rec cur key = some b) :
    threshold rec key ≠ threshold cur key ∧ (threshold rec key = some b ∨ threshold cur key = some b) := by
  unfold boundary at hb
  split_ifs at hb with heq
  refine ⟨heq, ?_⟩
  have hmem := (min?_eq_some_iff.mp hb).1
  simpa [reduceOption, eq_comm] using hmem

theorem mem_gateKeys_of_boundary (hb : boundary rec cur key = some b) : key ∈ gateKeys rec cur := by
  unfold boundary at hb
  split_ifs at hb with heq
  exact (boundary_of_ne heq).1

theorem mem_moved {key : ℕ} : key ∈ (gateKeys rec cur).filter (fun k =>
    (boundary rec cur k).any fun b => (b : ℤ) ≤ tip) ↔ ∃ b : ℕ, b ≤ tip ∧ boundary rec cur key = some b := by
  rw [mem_filter]
  cases hb : boundary rec cur key with
  | none => simp
  | some b => simp [mem_gateKeys_of_boundary hb]

section unmoved

variable (htime : ∀ key, c.isTime key = true → threshold rec key = threshold cur key)
  (hlow : ∀ key b, boundary rec cur key = some b → c.firstBlock ≤ b) {tip : ℤ}

include htime

theorem isTime_of_boundary (hb : boundary rec cur key = some b) : c.isTime key = false := by
  by_contra hunit
  simp [boundary, htime key (by simpa using hunit)] at hb

/-- A block whose rules differ is at or past the boundary of a moved gate. -/
theorem boundary_le_of_differs {times : ℕ → ℕ} {height : ℕ} (hd : Differs c rec cur times height) :
    ∃ key b, boundary rec cur key = some b ∧ b ≤ height := by
  obtain ⟨key, hne⟩ := hd
  have hmoved : threshold rec key ≠ threshold cur key := fun heq => hne (by rw [active, active, heq])
  obtain ⟨-, b, hb, hlr, hlc⟩ := boundary_of_ne hmoved
  refine ⟨key, b, hb, ?_⟩
  by_contra hlt
  have hunit := isTime_of_boundary htime hb
  rw [inactive_of_lt hunit hlr (by omega), inactive_of_lt hunit hlc (by omega)] at hne
  exact hne rfl

/-- The comparison does not throw, and its target is the lowest boundary up to the tip. -/
theorem classify_target (htip : 0 ≤ tip) : ∃ moves, classifyGateMoves c rec cur tip = some moves ∧
    (∀ T, moves.target = some T ↔ IsLeast (boundaries rec cur tip) T) ∧
    (moves.target = none → moves.movable = [] ∧ moves.refused = []) := by
  have hno : ¬ (tip < 0 ∨ (gateKeys rec cur).any fun k =>
      c.isTime k && (boundary rec cur k).isSome) := by
    rintro (hneg | hthrow)
    · omega
    · obtain ⟨key, -, hkey⟩ := any_eq_true.mp hthrow
      obtain ⟨b, hb⟩ := isSome_iff_exists.mp (by simp_all : (boundary rec cur key).isSome)
      simp [isTime_of_boundary htime hb] at hkey
  refine ⟨_, if_neg hno, fun T => ?_, fun hnone => ?_⟩
  · have hmem : ∀ b, b ∈ boundaries rec cur tip ↔
        ∃ key, (∃ b : ℕ, b ≤ tip ∧ boundary rec cur key = some b) ∧ boundary rec cur key = some b := by
      intro b
      constructor
      · rintro ⟨hle, key, hb⟩
        exact ⟨key, ⟨b, hle, hb⟩, hb⟩
      · rintro ⟨key, ⟨b', hle, hb'⟩, hb⟩
        obtain rfl := some.inj (hb'.symm.trans hb)
        exact ⟨hle, key, hb⟩
    simp only [min?_eq_some_iff, mem_filterMap, mem_moved, IsLeast, mem_lowerBounds, hmem]
  · have hstill := filterMap_eq_nil_iff.mp (min?_eq_none_iff.mp hnone)
    have hempty := eq_nil_iff_forall_not_mem.mpr fun key hkey => by
      obtain ⟨b, -, hb⟩ := mem_moved.mp hkey
      cases (hstill key hkey).symm.trans hb
    constructor
    · exact (congrArg _ hempty).trans filter_nil
    · exact (congrArg _ hempty).trans filter_nil

include hlow

/-- The lowest boundary up to the tip is the lowest applied block whose rules differ. -/
theorem isLeast_boundaries_iff (ht : db.tip c = some tip) (times : ℕ → ℕ) (T : ℕ) :
    IsLeast (boundaries rec cur tip) T ↔ IsLeast (differing c db rec cur times) T := by
  have hin : ∀ b ∈ boundaries rec cur tip, b ∈ differing c db rec cur times := by
    rintro b ⟨hle, key, hb⟩
    exact ⟨(applied_iff ht b).mpr ⟨hlow key b hb, hle⟩, key,
      active_ne_at_boundary hb (isTime_of_boundary htime hb) _⟩
  have hbelow : ∀ h ∈ differing c db rec cur times, ∃ b ≤ h, b ∈ boundaries rec cur tip := by
    rintro h ⟨ha, hd⟩
    obtain ⟨key, b, hb, hle⟩ := boundary_le_of_differs htime hd
    have hh := ((applied_iff ht h).mp ha).2
    exact ⟨b, hle, by omega, key, hb⟩
  constructor
  · rintro ⟨hT, hleast⟩
    refine ⟨hin T hT, fun h hh => ?_⟩
    obtain ⟨b, hle, hb⟩ := hbelow h hh
    exact (hleast hb).trans hle
  · rintro ⟨hT, hleast⟩
    obtain ⟨b, hle, hb⟩ := hbelow T hT
    have heq : b = T := le_antisymm hle (hleast (hin b hb))
    exact ⟨heq ▸ hb, fun b' hb' => hleast (hin b' hb')⟩

end unmoved

/-! ### The boot -/

/-- No replay is open, and none waits for its final pass. -/
def NoReplay (db : Db) : Prop :=
  ∀ m, db.marker = some m → isReplayOpen m = false ∧
    ∀ w, db.witness = some w → witnessMatches w m = true → w.phase = .final

/-- The boot goes on to serve: it does not refuse, roll back or resume, and its writes succeed. -/
def Serves (c : Config) (db : Db) (current : GateMap) (go mirrorGap : Bool) : Prop :=
  ∃ plan, runBootReplay c db current go mirrorGap = some plan ∧ plan.2.action = .serve ∧
    (plan.1.foldlM (exec c) db).isSome

theorem runBootReplay_closed (h : NoReplay db) (current : GateMap) (go mirrorGap : Bool) :
    runBootReplay c db current go mirrorGap = bootClosed c db current go mirrorGap := by
  unfold runBootReplay
  cases hm : db.marker with
  | none => rfl
  | some m =>
    obtain ⟨hopen, hfinal⟩ := h m hm
    cases hw : db.witness with
    | none => simp [hopen]
    | some w =>
      have hno : ¬ (witnessMatches w m ∧ (isReplayOpen m ∨ w.phase ≠ .final)) := by
        rintro ⟨hmt, ho | hp⟩
        · simp [hopen] at ho
        · exact hp (hfinal w hw hmt)
      dsimp only
      rw [if_neg hno, hopen]
      rfl

/-- A replay that opens does not serve. -/
theorem openReplay_action (recorded current : GateMap) (target tip : ℕ) (optTip : Option ℤ) :
    (openReplay db recorded current target tip optTip).2.action ≠ .serve := by
  have hphased : ∀ m w, (resumePhasedReplay m w optTip current).2.action ≠ .serve := by
    intro m w
    unfold resumePhasedReplay resumeOpenMarker startFinalReplay
    split_ifs <;> (try split) <;> (try split) <;> simp
  unfold openReplay
  split
  · split_ifs
    · exact hphased _ _
    · exact hphased _ _
  · exact hphased _ _

theorem serves_iff {moves : Moves} (go mirrorGap : Bool) (hboot : db.boot = some rec)
    (hclosed : NoReplay db) (ht : db.tip c = some tip) (hmoves : classifyGateMoves c rec cur tip = some moves)
    (hnone : moves.target = none → moves.movable = [] ∧ moves.refused = []) :
    Serves c db cur go mirrorGap ↔ moves.target = none := by
  unfold Serves
  rw [runBootReplay_closed hclosed, bootClosed, hboot, ht]
  simp only [hmoves]
  constructor
  · rintro ⟨plan, hplan, hserve, -⟩
    cases hT : moves.target with
    | none => rfl
    | some T =>
      rw [hT] at hplan
      dsimp only at hplan
      split_ifs at hplan
      obtain ⟨⟩ := hplan
      exact absurd hserve (openReplay_action _ _ _ _ _)
  · intro hT
    obtain ⟨hmov, href⟩ := hnone hT
    simp only [href, hT, ne_eq, not_true_eq_false, if_false]
    exact ⟨_, rfl, rfl, by simp [exec, bootMoved, hboot, hmoves, hmov, href]⟩

/-- The comparison finds the lowest applied block whose rules differ, and the boot serves exactly when
there is none. -/
def FindsTarget (c : Config) (db : Db) (rec cur : GateMap) (times : ℕ → ℕ) (go mirrorGap : Bool) : Prop :=
  (∀ tip, db.tip c = some tip → ∃ moves, classifyGateMoves c rec cur tip = some moves ∧
    ∀ T, moves.target = some T ↔ IsLeast (differing c db rec cur times) T) ∧
  (Serves c db cur go mirrorGap ↔ differing c db rec cur times = ∅)

/-- No time gate moved, and of a height gate that moved no threshold is below the first block. -/
structure Comparable (c : Config) (rec cur : GateMap) : Prop where
  time : ∀ key, c.isTime key = true → threshold rec key = threshold cur key
  low : ∀ key, threshold rec key ≠ threshold cur key → ∀ v,
    threshold rec key = some v ∨ threshold cur key = some v → c.firstBlock ≤ v

section boot
variable (times : ℕ → ℕ) (go mirrorGap : Bool) (hboot : db.boot = some rec) (hclosed : NoReplay db)
include hboot hclosed

/-- Nothing is applied: the boot serves without a comparison. -/
theorem findsTarget_of_nil (hnil : db.blocks = []) : FindsTarget c db rec cur times go mirrorGap := by
  have ht : db.tip c = none := by simp [Db.tip, hnil]
  have hempty : differing c db rec cur times = ∅ := by
    refine Set.eq_empty_of_forall_notMem fun h hh => ?_
    have := hh.1
    simp [Applied, hnil] at this
    omega
  refine ⟨by simp [ht], iff_of_true ?_ hempty⟩
  unfold Serves
  rw [runBootReplay_closed hclosed, bootClosed, hboot, ht]
  exact ⟨_, rfl, rfl, by simp [exec, bootMoved]⟩

variable (ht : db.tip c = some tip) (htip : 0 ≤ tip)
include ht htip

theorem findsTarget_of_comparable (h : Comparable c rec cur) :
    FindsTarget c db rec cur times go mirrorGap := by
  obtain ⟨htime, hlow⟩ := h
  have hlow : ∀ key b, boundary rec cur key = some b → c.firstBlock ≤ b := fun key b hb =>
    hlow key (boundary_mem hb).1 b (boundary_mem hb).2
  obtain ⟨moves, hmoves, htarget, hnone⟩ := classify_target htime htip
  have hleast := fun T => (htarget T).trans (isLeast_boundaries_iff htime hlow ht times T)
  refine ⟨fun tip' ht' => ?_, ?_⟩
  · obtain rfl := some.inj (ht.symm.trans ht')
    exact ⟨moves, hmoves, hleast⟩
  rw [serves_iff go mirrorGap hboot hclosed ht hmoves hnone]
  constructor
  · intro hT
    by_contra hne
    have hmem := Nat.sInf_mem (Set.nonempty_iff_ne_empty.mpr hne)
    have hmin := (hleast _).mpr ⟨hmem, fun _ => Nat.sInf_le⟩
    rw [hT] at hmin
    cases hmin
  · intro hempty
    refine eq_none_iff_forall_ne_some.mpr fun T hT => ?_
    have hin := ((hleast T).mp hT).1
    simp [hempty] at hin

omit hboot hclosed in
/-- A moved time gate throws, and a threshold below the first block is a target that is not applied. -/
theorem comparable_of_findsTarget (h : FindsTarget c db rec cur times go mirrorGap) :
    Comparable c rec cur := by
  obtain ⟨moves, hmoves, htarget⟩ := h.1 tip ht
  have htime : ∀ key, c.isTime key = true → threshold rec key = threshold cur key := by
    intro key hunit
    by_contra hmoved
    obtain ⟨hkey, b, hb, -⟩ := boundary_of_ne hmoved
    have hthrow : (gateKeys rec cur).any fun k => c.isTime k && (boundary rec cur k).isSome :=
      any_eq_true.mpr ⟨key, hkey, by simp [hunit, hb]⟩
    rw [classifyGateMoves, if_pos (Or.inr hthrow)] at hmoves
    cases hmoves
  refine ⟨htime, fun key hmoved v hv => ?_⟩
  by_contra hlow
  obtain ⟨moves', hmoves', htarget', -⟩ := classify_target htime htip
  obtain rfl := some.inj (hmoves.symm.trans hmoves')
  obtain ⟨-, b, hb, hbr, hbc⟩ := boundary_of_ne hmoved
  have hbv : b ≤ v := hv.elim (hbr v) (hbc v)
  have hfirst : (c.firstBlock : ℤ) ≤ tip := by
    obtain ⟨hne, rfl⟩ := tip_eq_some_iff.mp ht
    have := length_pos_iff.mpr hne
    omega
  -- the lowest boundary is the target, and lies below the first block too
  have hmem : b ∈ boundaries rec cur tip := ⟨by omega, key, hb⟩
  have hinf := Nat.sInf_mem ⟨b, hmem⟩
  have hleast : moves.target = some (sInf (boundaries rec cur tip)) :=
    (htarget' _).mpr ⟨hinf, fun _ => Nat.sInf_le⟩
  have happlied := ((htarget _).mp hleast).1.1.1
  have := Nat.sInf_le hmem
  omega

end boot

/-- **The target of a boot.** With no replay open, the comparison of the recorded map with the build's has
as target the lowest applied block whose rules differ, and the boot serves exactly when no applied
block's rules do, if and only if nothing is applied or no time gate moved and no height gate moved with a
threshold below the first block. -/
theorem boot_target (times : ℕ → ℕ) (go mirrorGap : Bool) (hboot : db.boot = some rec)
    (hclosed : NoReplay db) : FindsTarget c db rec cur times go mirrorGap ↔
      db.blocks = [] ∨ Comparable c rec cur := by
  constructor
  · intro h
    by_cases hnil : db.blocks = []
    · exact .inl hnil
    have ht : db.tip c = some _ := tip_eq_some_iff.mpr ⟨hnil, rfl⟩
    have := length_pos_iff.mpr hnil
    exact .inr (comparable_of_findsTarget times go mirrorGap ht (by omega) h)
  · rintro (hnil | h)
    · exact findsTarget_of_nil times go mirrorGap hboot hclosed hnil
    · by_cases hnil : db.blocks = []
      · exact findsTarget_of_nil times go mirrorGap hboot hclosed hnil
      have ht : db.tip c = some _ := tip_eq_some_iff.mpr ⟨hnil, rfl⟩
      have := length_pos_iff.mpr hnil
      exact findsTarget_of_comparable times go mirrorGap hboot hclosed ht (by omega) h

def oneGate (isTime : Bool) (firstBlock threshold : ℕ) : Config × Db :=
  (⟨fun _ => isTime, fun _ => true, 100, firstBlock⟩,
    ⟨[[(0, some threshold)]], some [(0, some threshold)], none, none⟩)

theorem boot_target_one_gate :
    FindsTarget (oneGate false 0 5).1 (oneGate false 0 5).2 [(0, some 5)] [(0, some 3)] (fun _ => 0) false
      false :=
  (boot_target (fun _ => 0) false false rfl (by simp [NoReplay, oneGate])).mpr
    (.inr ⟨by simp [oneGate], by simp [oneGate]⟩)

/-- A boot refuses over a time gate that moved from 2300 to 2200 though its one block has the time 2100,
and over a height gate that moved from 5 to 3 its target is 3 though the first block has the height 9. -/
theorem moved_gate_mistaken :
    (differing (oneGate true 9 2300).1 (oneGate true 9 2300).2 [(0, some 2300)] [(0, some 2200)]
        (fun _ => 2100) = ∅ ∧
      runBootReplay (oneGate true 9 2300).1 (oneGate true 9 2300).2 [(0, some 2200)] true false = none) ∧
    differing (oneGate false 9 5).1 (oneGate false 9 5).2 [(0, some 5)] [(0, some 3)]
      (fun _ => 2100) = ∅ ∧
    (classifyGateMoves (oneGate false 9 5).1 [(0, some 5)] [(0, some 3)] 9).any (·.target = some 3) := by
  refine ⟨⟨?_, by decide⟩, ?_, by decide⟩
  · refine Set.eq_empty_of_forall_notMem ?_
    rintro h ⟨-, key, hne⟩
    cases key <;> simp [active, oneGate, threshold, lookup] at hne
  · refine Set.eq_empty_of_forall_notMem ?_
    rintro h ⟨⟨hlow, -⟩, key, hne⟩
    have hle : 9 ≤ h := hlow
    cases key with
    | zero =>
      simp [active, oneGate, threshold, lookup] at hne
      omega
    | succ key => simp [active, oneGate, threshold, lookup] at hne

end XChainIndexer.Retroactive.Target
