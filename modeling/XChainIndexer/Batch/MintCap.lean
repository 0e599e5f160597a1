import XChainIndexer.Batch.Commands

/-! # One MINT a token

The cap on MINTs is judged on the tickers as they stand before the batch: MINTs count under the id of their
TICK, and all those whose TICK has no id count under one bucket. When a MINT runs, sub-commands before it
may have interned names, so that a TICK without an id has one by then. It is enough that the table only
grows, and under ids that were not there (`Grown`): a TICK that had an id keeps it, and one that had none
can only get a new id (`getTickerId_grown`). So the id under which a MINT runs determines the bucket that
it was counted under, and as no bucket has two MINTs, no two MINTs of the list run for one token
(`mints_distinct`). The MINTs that a contract emits are not in the list and not counted
(`emitted_mints_repeat`). -/

namespace XChainIndexer.Batch.MintCap

open IndexTables IndexReplay Interning Option Batch.Commands

/-! ### Tickers are appended under new ids -/

/-- Rows were added to the tickers, all of them under ids that no row had. -/
def Grown (n n' : Names) : Prop :=
  ∃ new, n'.tickers = n.tickers ++ new ∧ ∀ row ∈ new, nextId n.tickers ≤ row.id

theorem nextId_le_append (rows new : List IndexRow) : nextId rows ≤ nextId (rows ++ new) := by
  refine Nat.succ_le_succ (foldl_max_le_iff.mpr ⟨Nat.zero_le _, fun x hx => ?_⟩)
  refine (foldl_max_le_iff.mp le_rfl).2 x ?_
  rw [List.map_append]
  exact List.mem_append_left _ hx

theorem Grown.refl (n : Names) : Grown n n := ⟨[], (List.append_nil _).symm, by simp⟩

theorem Grown.trans {a b c : Names} (h : Grown a b) (h' : Grown b c) : Grown a c := by
  obtain ⟨new, hnew, hids⟩ := h
  obtain ⟨new', hnew', hids'⟩ := h'
  refine ⟨new ++ new', by rw [hnew', hnew, List.append_assoc], fun row hrow => ?_⟩
  rcases List.mem_append.mp hrow with hrow | hrow
  · exact hids row hrow
  · rw [hnew] at hids'
    exact (nextId_le_append _ _).trans (hids' row hrow)

theorem Grown.of_interned {n n' : Names} {block : ℕ} {name : Text}
    (h : Interned block name n.tickers n'.tickers) : Grown n n' := by
  rcases h with h | ⟨-, h⟩
  · exact ⟨[], by rw [h, List.append_nil], by simp⟩
  · exact ⟨_, h, by simp⟩

theorem createTickerExact_grown (c : Ctx) (n : Names) (tick : Text) :
    Grown n (createTickerExact c n tick).1 := by
  unfold createTickerExact
  cases exactTickerId n tick with
  | some id => split_ifs <;> exact .refl n
  | none =>
    dsimp only [insertTicker]
    split_ifs <;> first | exact .refl n | exact ⟨_, rfl, by simp⟩

theorem create_grown (c : Ctx) (n : Names) (request : Request) : Grown n (create c n request).1 := by
  cases request with
  | ticker tick => exact .of_interned (createTicker_spec c n tick).2.1
  | tickerExact tick => exact createTickerExact_grown c n tick
  | address address =>
    have htickers := (createAddress_spec c n address).1
    exact ⟨[], by rw [List.append_nil]; exact htickers, by simp⟩

/-! ### What a TICK resolves to later -/

section resolve
variable {c : Ctx} {n n' : Names} {tick : Text} {id : ℕ}

section
variable {rows new : List IndexRow} {p : IndexRow → Bool}

theorem lowestId_append (hnew : ∀ row ∈ new, nextId rows ≤ row.id) (h : lowestId rows p = some id) :
    lowestId (rows ++ new) p = some id := by
  unfold lowestId at h ⊢
  rw [List.min?_eq_some_iff] at h ⊢
  rw [List.filter_append, List.map_append]
  refine ⟨List.mem_append_left _ h.1, fun x hx => ?_⟩
  rcases List.mem_append.mp hx with hx | hx
  · exact h.2 x hx
  · obtain ⟨row, hrow, rfl⟩ := List.mem_map.mp hx
    obtain ⟨row', hrow', rfl⟩ := List.mem_map.mp h.1
    exact ((lt_nextId (List.mem_of_mem_filter hrow')).le).trans (hnew row (List.mem_of_mem_filter hrow))

theorem mem_new_of_lowestId (hnone : lowestId rows p = none) (h : lowestId (rows ++ new) p = some id) :
    ∃ row ∈ new, row.id = id := by
  unfold lowestId at h hnone
  rw [List.min?_eq_none_iff, List.map_eq_nil_iff] at hnone
  rw [List.filter_append, hnone] at h
  obtain ⟨row, hrow, hid⟩ := List.mem_map.mp (List.min?_mem h)
  exact ⟨row, List.mem_of_mem_filter hrow, hid⟩

end

theorem getTickerId_some (hgrown : Grown n n') (h : getTickerId c n tick = some id) :
    getTickerId c n' tick = some id := by
  obtain ⟨new, htickers, hids⟩ := hgrown
  unfold getTickerId at h ⊢
  rw [htickers]
  split at h
  · obtain ⟨row, hrow, rfl⟩ := map_eq_some_iff.mp h
    rw [deterministicId, List.find?_append, hrow]
    rfl
  · exact lowestId_append hids h

theorem getTickerId_none (hgrown : Grown n n') (hnone : getTickerId c n tick = none)
    (h : getTickerId c n' tick = some id) : nextId n.tickers ≤ id := by
  obtain ⟨new, htickers, hids⟩ := hgrown
  unfold getTickerId at h hnone
  rw [htickers] at h
  cases hcaret : caretId tick with
  | some i =>
    simp only [hcaret] at h hnone
    rw [deterministicId, map_eq_none_iff] at hnone
    rw [deterministicId, List.find?_append, hnone] at h
    obtain ⟨row, hrow, rfl⟩ := map_eq_some_iff.mp h
    exact hids row (List.mem_of_find?_eq_some hrow)
  | none =>
    simp only [hcaret] at h hnone
    obtain ⟨row, hrow, rfl⟩ := mem_new_of_lowestId hnone h
    exact hids row hrow

def bucket (n : Names) (id : ℕ) : Option ℕ := if id < nextId n.tickers then some id else none

/-- **The id of a TICK later on determines the bucket** that it was counted under. -/
theorem getTickerId_grown (hgrown : Grown n n') (h : getTickerId c n' tick = some id) :
    getTickerId c n tick = bucket n id := by
  unfold bucket
  cases hget : getTickerId c n tick with
  | none => rw [if_neg (not_lt.mpr (getTickerId_none hgrown hget h))]
  | some i =>
    have hi : i = id := some.inj ((getTickerId_some hgrown hget).symm.trans h)
    obtain ⟨row, hrow, rfl⟩ := mem_of_getTickerId hget
    rw [← hi, if_pos (lt_nextId hrow)]

theorem getTickerId_createTicker (h : (createTicker c n tick).2 = some id) :
    getTickerId c (createTicker c n tick).1 tick = some id := by
  revert h
  unfold createTicker
  cases hget : getTickerId c n tick with
  | some i => split_ifs <;> simp_all
  | none =>
    split_ifs <;> simp_all

end resolve

/-! ### What a valid batch counted -/

theorem firstError_eq_none {error check : Option String} :
    firstError error check = none ↔ error = none ∧ check = none := by
  cases error <;> simp [firstError]

theorem foldl_firstError {α : Type} {check : α → Option String} {l : List α} {error : Option String} :
    l.foldl (fun error x => firstError error (check x)) error = none ↔
      error = none ∧ ∀ x ∈ l, check x = none := by
  induction l generalizing error with
  | nil => simp
  | cons x l ih => rw [List.foldl_cons, ih, firstError_eq_none, List.forall_mem_cons, and_assoc]

section valid
variable {h : Host} {names : Names} {commands : List Text} {command : Text}

theorem isEnabled_of_activation (hvalid : activationError h commands = none)
    (hc : command ∈ commands) : h.isEnabled (scanAction h.gates.normalize command) := by
  have hcheck := (foldl_firstError.mp hvalid).2 command hc
  split_ifs at hcheck with _ henabled
  exact Bool.not_eq_false _ |>.mp henabled

theorem capError_of_caps (hvalid : actionCapError h names commands = none)
    (hc : command ∈ commands) : capError h names commands (tallyAction h command) = none := by
  refine (foldl_firstError.mp hvalid).2 _ ?_
  rw [List.mem_eraseDups]
  exact List.mem_map_of_mem hc

theorem le_foldl_countMint (keys : List (Option ℕ)) (counts : (Option ℕ → ℕ) × ℕ) :
    counts.2 ≤ (keys.foldl countMint counts).2 := by
  induction keys generalizing counts with
  | nil => exact le_rfl
  | cons key keys ih => exact (le_max_left _ _).trans (ih (countMint counts key))

/-- **If no bucket has two MINTs** then no two of them have the same bucket. -/
theorem nodup_of_foldl_countMint {keys : List (Option ℕ)} {counts : (Option ℕ → ℕ) × ℕ}
    (hmax : (keys.foldl countMint counts).2 ≤ 1) : (∀ key ∈ keys, counts.1 key = 0) ∧ keys.Nodup := by
  induction keys generalizing counts with
  | nil => exact ⟨by simp, List.nodup_nil⟩
  | cons key keys ih =>
    obtain ⟨hzero, hnodup⟩ := ih hmax
    have hkey : counts.1 key = 0 := by
      have hle : counts.1 key + 1 ≤ (countMint counts key).2 := le_max_right _ _
      have := (hle.trans (le_foldl_countMint keys _)).trans hmax
      omega
    have hnew : key ∉ keys := fun hmem => by
      have := hzero key hmem
      simp [countMint] at this
    refine ⟨List.forall_mem_cons.mpr ⟨hkey, fun key' hkey' => ?_⟩, List.nodup_cons.mpr ⟨hnew, hnodup⟩⟩
    have hne : key' ≠ key := fun heq => hnew (heq ▸ hkey')
    exact (Function.update_of_ne hne _ _).symm.trans (hzero key' hkey')

theorem length_mintTicks (h : Host) (commands : List Text) :
    (mintTicks h commands).length = (commands.map (tallyAction h)).count mint := by
  rw [mintTicks, List.length_map, List.count, List.countP_map, List.countP_eq_length_filter]
  exact congrArg List.length (List.filter_congr fun command _ => by simp [beq_eq_decide])

theorem lookup_mint (limitsActive : Bool) : (actionLimits limitsActive).lookup mint = some 1 := by
  cases limitsActive <;> decide

theorem lookup_batch (limitsActive : Bool) : (actionLimits limitsActive).lookup batch = some 0 := by
  cases limitsActive <;> decide

/-- **The cap:** no two MINTs of a valid batch have the same bucket, with the limits or without. -/
theorem nodup_mintKeys (hvalid : actionCapError h names commands = none) :
    ((mintTicks h commands).map (mintKey h names)).Nodup := by
  by_cases hmint : ∃ command ∈ commands, tallyAction h command = mint
  · obtain ⟨command, hc, hmint⟩ := hmint
    have hcap := capError_of_caps hvalid hc
    rw [hmint, capError, lookup_mint] at hcap
    dsimp only at hcap
    split_ifs at hcap with hactive hcount hcount
    · exact (nodup_of_foldl_countMint (not_lt.mp hcount)).2
    · have hlen : ((mintTicks h commands).map (mintKey h names)).length ≤ 1 := by
        rw [List.length_map, length_mintTicks]
        exact not_lt.mp hcount
      exact List.nodup_iff_count_le_one.mpr fun key => List.count_le_length.trans hlen
  · push Not at hmint
    have hnil : mintTicks h commands = [] := by
      rw [mintTicks, List.map_eq_nil_iff, List.filter_eq_nil_iff]
      intro command hc hkey
      exact hmint command hc (of_decide_eq_true hkey)
    rw [hnil]
    exact List.nodup_nil

end valid

/-! ### What the dispatch runs -/

variable {action : Text}

theorem foldl_alias {aliases : List (Text × Text)} (hno : action ∉ aliases.map Prod.fst) :
    aliases.foldl (fun action a => if action = a.1 then a.2 else action) action = action := by
  induction aliases with
  | nil => rfl
  | cons a aliases ih =>
    rw [List.map_cons, List.mem_cons, not_or] at hno
    rw [List.foldl_cons, if_neg hno.1, ih hno.2]

theorem dealias_of_notMem (hno : action ∉ actionAliases.map Prod.fst) :
    dealias action = action := foldl_alias hno

theorem dealias_dealias (action : Text) : dealias (dealias action) = dealias action := by
  by_cases halias : action ∈ actionAliases.map Prod.fst
  · revert action
    decide
  · rw [dealias_of_notMem halias, dealias_of_notMem halias]

theorem alias_letters : ∀ action ∈ actionAliases.map Prod.fst, ∀ ch ∈ action, 'A' ≤ ch ∧ ch ≤ 'Z' := by
  have h : (actionAliases.map Prod.fst).all (fun action =>
      action.all fun ch => decide ('A' ≤ ch ∧ ch ≤ 'Z')) = true := by decide
  simpa only [List.all_eq_true, decide_eq_true_eq] using h

section dispatch
variable {h : Host} {command : Text}

theorem dealias_toUpperCase (henabled : h.isEnabled (dealias action)) :
    dealias (h.toUpperCase action) = dealias action := by
  by_cases halias : action ∈ actionAliases.map Prod.fst
  · rw [h.toUpperCase_letters action (alias_letters action halias)]
  · rw [dealias_of_notMem halias] at henabled
    rw [h.isEnabled_upper action henabled]

theorem prepareSubCommand_eq (henabled : h.isEnabled (scanAction h.gates.normalize command)) :
    prepareSubCommand h command = ⟨scanAction h.gates.normalize command,
      scanParams h.toRuntime h.gates.normalize (scanAction h.gates.normalize command) command⟩ := by
  unfold prepareSubCommand scanParams
  cases hnorm : h.gates.normalize with
  | false =>
    rw [hnorm] at henabled
    simp only [scanAction, Bool.false_eq_true, if_false] at henabled ⊢
    rw [h.isEnabled_upper _ henabled]
  | true =>
    rw [hnorm] at henabled
    simp only [scanAction, if_true] at henabled ⊢
    simp only [normalizeSubAction, dealias_toUpperCase henabled, dealias_dealias]
    split_ifs <;> rfl

theorem tallyAction_of_ne (hne : scanAction h.gates.normalize command ≠ issue) :
    tallyAction h command = scanAction h.gates.normalize command := by
  unfold tallyAction classifyLimitAction
  dsimp only
  rw [if_pos hne]
  exact ite_self _

/-- **A MINT that runs was counted**, with the TICK under which it runs. -/
theorem mintTick_eq (henabled : h.isEnabled (scanAction h.gates.normalize command)) {tick : Text}
    (htick : mintTick h (prepareSubCommand h command) = some tick) :
    tallyAction h command = mint ∧ tick ≠ [] ∧
      subCommandTick h.toRuntime h.gates.normalize mint command = tick := by
  rw [prepareSubCommand_eq henabled] at htick
  unfold mintTick at htick
  split_ifs at htick with hmint
  simp only [Bool.and_eq_true, decide_eq_true_eq] at hmint
  obtain ⟨hparam, hne⟩ := filter_eq_some_iff.mp htick
  refine ⟨(tallyAction_of_ne ?_).trans hmint.1, of_decide_eq_true hne, ?_⟩
  · rw [hmint.1]
    decide
  · rw [hmint.1] at hparam
    rw [subCommandTick, hparam]
    rfl

end dispatch

section run
variable {W : Type} {h : Host} {actions : Actions W} {n : Names} {names : Names}

theorem mintToken_spec
    (henabled : h.isEnabled (scanAction h.gates.normalize command)) (hgrown : Grown n names) :
    Grown n (mintToken h names (prepareSubCommand h command)).1 ∧
      ((mintToken h names (prepareSubCommand h command)).2.toList.map (bucket n)).Sublist
        ((mintTicks h [command]).map (mintKey h n)) := by
  unfold mintToken
  cases htick : mintTick h (prepareSubCommand h command) with
  | none => exact ⟨hgrown, List.nil_sublist _⟩
  | some tick =>
    obtain ⟨hmint, hne, hsame⟩ := mintTick_eq henabled htick
    have hcreated : Grown n (createTicker (ctx h false) names tick).1 :=
      hgrown.trans (.of_interned (createTicker_spec _ _ _).2.1)
    have hticks : mintTicks h [command] = [tick] := by simp [mintTicks, hmint, hsame]
    refine ⟨hcreated, ?_⟩
    rw [hticks]
    cases hid : (createTicker (ctx h false) names tick).2 with
    | none => exact List.nil_sublist _
    | some id =>
      have hkey : mintKey h n tick = bucket n id := by
        rw [mintKey, if_neg hne]
        exact getTickerId_grown hcreated (getTickerId_createTicker hid)
      simp [hkey]

variable {s s' : State W}

theorem runAction_grown {world : W} {sub : SubCommand} {r : (Names × W) × Option ℕ}
    (hrun : runAction h actions names world sub = some r) :
    Grown (mintToken h names sub).1 r.1.1 ∧ r.2 = (mintToken h names sub).2 := by
  obtain ⟨after, hexec, rfl⟩ := map_eq_some_iff.mp hrun
  exact ⟨exec_related Grown.trans (fun _ => create_grown _) ⟨.refl _, by simp⟩ hexec, rfl⟩

theorem mintToken_grown (h : Host) (names : Names) (sub : SubCommand) :
    Grown names (mintToken h names sub).1 := by
  unfold mintToken
  split
  · exact .refl names
  · exact .of_interned (createTicker_spec _ _ _).2.1

/-- What contracts emit lets the tickers grow and is no MINT of the list. -/
theorem dispatchEmissions_spec {subs : List SubCommand}
    (hrun : subs.foldlM (dispatchEmission h actions) s = some s') :
    Grown s.names s'.names ∧ s'.minted = s.minted := by
  induction subs generalizing s with
  | nil =>
    rw [← some.inj hrun]
    exact ⟨.refl _, rfl⟩
  | cons sub subs ih =>
    obtain ⟨s₁, hstep, hrun⟩ := bind_eq_some_iff.mp hrun
    obtain ⟨r, hr, rfl⟩ := map_eq_some_iff.mp hstep
    obtain ⟨hgrown, hminted⟩ := ih hrun
    exact ⟨((mintToken_grown h _ _).trans (runAction_grown hr).1).trans hgrown, hminted⟩

/-- **The step.** The tickers go on growing, and a MINT adds its bucket. -/
theorem dispatch_spec
    (henabled : h.isEnabled (scanAction h.gates.normalize command)) (hgrown : Grown n s.names)
    (hstep : dispatch h actions s command = some s') : Grown n s'.names ∧ (s'.minted.map (bucket n)).Sublist
      (s.minted.map (bucket n) ++ (mintTicks h [command]).map (mintKey h n)) := by
  obtain ⟨hcreated, hsub⟩ := mintToken_spec henabled hgrown
  obtain ⟨r, hr, hemits⟩ := bind_eq_some_iff.mp hstep
  obtain ⟨hafter, htoken⟩ := runAction_grown hr
  obtain ⟨hemitted, hminted⟩ := dispatchEmissions_spec hemits
  refine ⟨(hcreated.trans hafter).trans hemitted, ?_⟩
  rw [hminted, List.map_append, htoken]
  exact hsub.append_left _

theorem mintTicks_cons (h : Host) (command : Text) (commands : List Text) :
    mintTicks h (command :: commands) = mintTicks h [command] ++ mintTicks h commands := by
  rw [mintTicks, mintTicks, mintTicks, ← List.map_append, ← List.filter_append]
  rfl

variable {commands : List Text}

/-- **The run.** -/
theorem dispatchSubCommands_spec
    (henabled : ∀ command ∈ commands, h.isEnabled (scanAction h.gates.normalize command))
    (hgrown : Grown n s.names) (hrun : dispatchSubCommands h actions s commands = some s') :
    (s'.minted.map (bucket n)).Sublist
      (s.minted.map (bucket n) ++ (mintTicks h commands).map (mintKey h n)) := by
  induction commands generalizing s with
  | nil =>
    rw [← some.inj hrun]
    exact List.sublist_append_left _ _
  | cons command commands ih =>
    obtain ⟨s₁, hstep, hrun⟩ := bind_eq_some_iff.mp hrun
    rw [List.forall_mem_cons] at henabled
    obtain ⟨hgrown₁, hsub⟩ := dispatch_spec henabled.1 hgrown hstep
    rw [mintTicks_cons, List.map_append, ← List.append_assoc]
    exact (ih henabled.2 hgrown₁ hrun).trans (hsub.append_right _)

end run

theorem action_ne_batch {h : Host}
    (hactivation : activationError h commands = none) (hcaps : actionCapError h names commands = none)
    (hc : command ∈ commands) : (prepareSubCommand h command).action ≠ batch := by
  intro hbatch
  have hscan : scanAction h.gates.normalize command = batch := by
    rw [prepareSubCommand_eq (isEnabled_of_activation hactivation hc)] at hbatch
    exact hbatch
  have htally : tallyAction h command = batch := (tallyAction_of_ne (by rw [hscan]; decide)).trans hscan
  have hcount : 0 < (commands.map (tallyAction h)).count batch :=
    List.count_pos_iff.mpr (htally ▸ List.mem_map_of_mem hc)
  have hcap := capError_of_caps hcaps hc
  have hne : ¬ batch = mint := by decide
  rw [htally, capError, lookup_batch] at hcap
  simp only [hne, decide_false, Bool.and_false, Bool.false_eq_true, if_false, if_pos hcount] at hcap
  cases hcap

/-- **No two MINTs of one token.** Whatever the handlers of the sub-commands do and contracts emit, the
MINTs among the sub-commands that a valid batch runs are of distinct tokens; and no sub-command is a BATCH,
which would carry more of them. -/
theorem mints_distinct {W : Type} (h : Host) (actions : Actions W)
    (names : Names) (world : W) (format : Option ℤ) (txData : Text) (error : Option String) (s : State W)
    (hparse : parse h actions names world format txData error = some (s, none)) :
    s.minted.Nodup ∧ ∀ command ∈ (checkBatch h names format txData error).1,
      (prepareSubCommand h command).action ≠ batch := by
  unfold parse at hparse
  dsimp only at hparse
  split at hparse
  · cases hparse
  · rename_i hvalid
    obtain ⟨s', hrun, hs⟩ := map_eq_some_iff.mp hparse
    obtain rfl : s' = s := congrArg Prod.fst hs
    simp only [checkBatch, firstError_eq_none] at hvalid hrun ⊢
    obtain ⟨⟨⟨⟨-, hactivation⟩, hcaps⟩, -⟩, -⟩ := hvalid
    have hsub := dispatchSubCommands_spec (fun _ => isEnabled_of_activation hactivation) (.refl names) hrun
    exact ⟨((nodup_mintKeys hcaps).sublist hsub).of_map _, fun _ => action_ne_batch hactivation hcaps⟩

/-! ### A batch that issues what it mints -/

theorem map_toUpper_letters (t : Text) (ht : ∀ ch ∈ t, 'A' ≤ ch ∧ ch ≤ 'Z') : t.map Char.toUpper = t := by
  refine (List.map_congr_left fun ch hch => ?_).trans (List.map_id t)
  have hle : ch.val ≤ 90 := (ht ch hch).2
  unfold Char.toUpper
  rw [dif_neg]
  · rfl
  · intro hlower
    exact absurd (UInt32.le_trans hlower.1 hle) (by decide)

def execute : Text := "EXECUTE".toList

/-- A host with the limits active, on which ISSUE, MINT and EXECUTE are enabled. -/
def sampleHost : Host where
  toUpperCase := List.map Char.toUpper
  toUpperCase_letters := map_toUpper_letters
  trim := fun t => rtrim (t.dropWhile (· = ' '))
  isNumeric := fun t => t ≠ [] && t.all Char.isDigit
  readVersion := fun _ => none
  rules := ⟨⟨List.map Char.toLower, List.map Char.toLower, List.map Char.toLower⟩, fun _ => true, 0, 0⟩
  blockIndex := 5
  gates := ⟨true, true, true, true⟩
  isEnabled := fun name => name ∈ [issue, mint, execute]
  isEnabled_upper := by
    intro name hname
    have hmem : name ∈ [issue, mint, execute] := of_decide_eq_true hname
    simp only [List.mem_cons, List.not_mem_nil, or_false] at hmem
    rcases hmem with rfl | rfl | rfl <;> decide
  airdropLegWeightActive := true
  airdropLegCount := fun _ => 1
  isActionAllowed := true
  isGasProvablyUnaffordable := fun _ => false

/-- An ISSUE interns its TICK, and the contract of an EXECUTE emits two MINTs of `BAR`. -/
def sampleActions : Actions Unit where
  handler sub _ _ :=
    if sub.action = issue then .create false (.ticker (sub.params[1]?.getD [])) fun _ => .done ()
    else .done ()
  emits sub _ :=
    if sub.action = execute then List.replicate 2 ⟨mint, ["0", "BAR", "1"].map String.toList⟩ else []

def sampleNames : Names := ⟨[⟨1, "BAR".toList, some 0⟩], []⟩

/-- The new token `FOO` and the old one `^1` are minted, before and after a contract runs. -/
theorem mints_distinct_issued : ∃ s,
    parse sampleHost sampleActions sampleNames () (some 0)
      "BATCH|0|ISSUE|0|FOO;MINT|0|foo|1;EXECUTE|0|4|pay;MINT|0|^1|1".toList none = some (s, none) ∧
      s.minted = [2, 1] ∧ s.minted.Nodup := by
  obtain ⟨⟨s, _⟩, hparse, rfl, hminted⟩ : ∃ res, parse sampleHost sampleActions sampleNames () (some 0)
      "BATCH|0|ISSUE|0|FOO;MINT|0|foo|1;EXECUTE|0|4|pay;MINT|0|^1|1".toList none = some res ∧
        res.2 = none ∧ res.1.minted = [2, 1] := by
    decide +kernel
  exact ⟨s, hparse, hminted, (mints_distinct _ _ _ _ _ _ _ s hparse).1⟩

/-- One EXECUTE runs two MINTs of one token, and a MINT of the list beside them a third. -/
theorem emitted_mints_repeat :
    ((parse sampleHost sampleActions sampleNames () (some 0)
      "BATCH|0|EXECUTE|0|4|pay".toList none).map fun r => (r.1.minted, r.1.emitted, r.2)) =
        some ([], [1, 1], none) ∧
    ((parse sampleHost sampleActions sampleNames () (some 0)
      "BATCH|0|EXECUTE|0|4|pay;MINT|0|BAR|1".toList none).map fun r => (r.1.minted, r.1.emitted, r.2)) =
        some ([1], [1, 1], none) := by
  decide +kernel

/-- The id that `FOO` is about to get is no way to a second MINT. -/
example : (checkBatch sampleHost sampleNames (some 0)
    "BATCH|0|ISSUE|0|FOO;MINT|0|FOO|1;MINT|0|^2|1".toList none).2 = some "invalid: MINT (limit)" := by
  decide +kernel

end XChainIndexer.Batch.MintCap
