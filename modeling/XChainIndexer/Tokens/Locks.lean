import XChainIndexer.Lib.Run
import XChainIndexer.Tokens.Issues

/-! # The locks of a token

A lock protects fields of a token: `LOCK_MAX_SUPPLY`, `LOCK_MAX_MINT` and `LOCK_DESCRIPTION` one each,
`LOCK_CALLBACK` three. Once set to 1 it is final (`lock_is_final`). The rule that refuses an edit tests
the folded lock for its truth value, and a lock stored as `0` is a text that is true: `locks_hold` is
over ISSUEs that never name such a lock with a text that reads 0, and `zero_lock_refuses` is a history
with one that does. -/

namespace XChainIndexer.Tokens.Locks

open IndexTables Lib.Run List Tokens.Numerals Tokens.Issues

variable {js : Js}

/-! ### The fold of a lock -/

/-- A valid ISSUE has set the lock to 1. -/
def WasSet (rows : List Row) (l : Lock) : Prop := ∃ row ∈ rows, row.lock l = some (lockText true)

theorem foldRows_lock_iff (js : Js) (rows : List Row) (l : Lock) :
    (foldRows js rows).lock l = some (lockText true) ↔ WasSet rows l := by
  induction rows using List.reverseRecOn with
  | nil => simp [foldRows, Info.empty, WasSet]
  | append_singleton rows row ih =>
    have hset : WasSet (rows ++ [row]) l ↔ WasSet rows l ∨ row.lock l = some (lockText true) := by
      simp [WasSet, or_and_right, exists_or]
    rw [foldRows_append, hset, ← ih, foldRow]
    by_cases hlocked : (foldRows js rows).lock l = some (lockText true)
    · simp [hlocked]
    · cases hrow : row.lock l <;> simp [hlocked, hrow]

theorem lock_eq_or (js : Js) (row : Row) (data : Info) (l : Lock) :
    (foldRow js data row).lock l = data.lock l ∨ (foldRow js data row).lock l = row.lock l := by
  rw [foldRow]
  cases hrow : row.lock l <;> by_cases h : data.lock l = some (lockText true) <;> simp [h, hrow]

variable {rows : List Row} {l : Lock}

theorem foldRows_lock_isSome (h : ∀ row ∈ rows, row.lock l ≠ some (lockText false))
    (hrows : ∀ row ∈ rows, row.lock l = none ∨ ∃ b, row.lock l = some (lockText b)) :
    ((foldRows js rows).lock l).isSome ↔ WasSet rows l := by
  rw [← foldRows_lock_iff js]
  constructor
  · intro hsome
    induction rows using List.reverseRecOn with
    | nil => simp [foldRows, Info.empty] at hsome
    | append_singleton rows row ih =>
      rw [foldRows_append] at hsome ⊢
      rcases lock_eq_or js row (foldRows js rows) l with heq | heq
      · rw [heq] at hsome ⊢
        exact ih (fun r hr => h r (by simp [hr])) (fun r hr => hrows r (by simp [hr])) hsome
      · rw [heq] at hsome ⊢
        rcases hrows row (by simp) with hnone | ⟨b, hb⟩
        · rw [hnone] at hsome
          cases hsome
        · cases b with
          | false => exact absurd hb (h row (by simp))
          | true => exact hb
  · intro hset
    rw [hset]
    rfl

/-! ### Edits -/

/-- The ISSUE names the field with another text than the effective one. -/
def Edits (info : Info) (i : Issue) (f : Field) : Prop :=
  ∃ t, i.field f = some t ∧ differs f (info.field f) t = true

theorem differs_self (f : Field) (t : Text) : differs f (some t) t = false := by
  cases f <;> simp [differs]

variable {i : Issue} {f : Field}

theorem lockedEdit_fires_iff {info : Info} (hl : f.lock? = some l) :
    (lockedEdit (some info) i f).fires ↔ (info.lock l).isSome ∧ Edits info i f := by
  have hmerged : (merged (some info) i f).any (differs f (info.field f)) ↔ Edits info i f := by
    unfold merged Edits
    cases hw : i.field f with
    | some t => simp
    | none =>
      cases hf : info.field f with
      | none => simp [hf]
      | some t => simp [hf, differs_self]
  simp only [lockedEdit, Option.any_some, hl, Bool.and_eq_true]
  exact and_congr_right fun _ => hmerged

theorem lockedEdit_none (i : Issue) (f : Field) : (lockedEdit none i f).fires = false := rfl

/-! ### The verdict -/

def lockedError (f : Field) : String := "invalid: " ++ f.name ++ " (locked)"

def ruleChecks (js : Js) (g : Gates) (info : Option Info) (supply : ℚ) (i : Issue) : List Check :=
  answered i.earlyError ++ validateFieldFormats js g info i ++ validateOwnership js g info i ++
  validateSupplyFields js g info supply i ++ validateTransferFields info i ++
  validateMintSupplyCaps js g info supply i

/-- The place of a field's check among the locked edits. -/
def editIndex : Field → ℕ
  | .maxSupply => 0
  | .maxMint => 1
  | .description => 3
  | .callbackBlock => 4
  | .callbackTick => 5
  | _ => 6

def checksBefore (js : Js) (g : Gates) (info : Option Info) (supply : ℚ) (i : Issue) (f : Field) :
    List Check :=
  ruleChecks js g info supply i ++ (validateLockedEdits info i).take (editIndex f)

def checksAfter (info : Option Info) (i : Issue) (f : Field) : List Check :=
  (validateLockedEdits info i).drop (editIndex f + 1) ++ answered i.lateError

variable {info : Option Info} {g : Gates} {supply : ℚ}

theorem checks_eq (hl : f.lock? = some l) : checks js g info supply i =
      checksBefore js g info supply i f ++ lockedEdit info i f :: checksAfter info i f := by
  have hedits : validateLockedEdits info i = (validateLockedEdits info i).take (editIndex f) ++
      lockedEdit info i f :: (validateLockedEdits info i).drop (editIndex f + 1) := by
    cases f <;> first | rfl | cases hl
  rw [checks, checksBefore, checksAfter, ← ruleChecks]
  conv_lhs => rw [hedits]
  simp only [append_assoc, cons_append]

/-- The rules that are not part of the model do not report a locked edit. -/
structure Foreign (i : Issue) (f : Field) : Prop where
  early : i.earlyError ≠ some (lockedError f)
  owner : i.ownerError ≠ some (lockedError f)
  transfer : i.transferError ≠ some (lockedError f)
  late : i.lateError ≠ some (lockedError f)

variable {error : String}

theorem answered_error_ne {e : Option String} (h : e ≠ some error) : ∀ b ∈ answered e, b.error ≠ error := by
  cases e with
  | none => simp [answered]
  | some e =>
    intro b hb
    simp only [answered, Option.toList_some, map_cons, map_nil, mem_singleton] at hb
    rw [hb]
    exact fun he => h (congrArg some he)

theorem error_ne_of_not_mem {cs : List Check} (h : error ∉ cs.map Check.error) : ∀ b ∈ cs, b.error ≠ error :=
  fun _ hb he => h (he ▸ mem_map_of_mem hb)

section
variable (g : Gates) (info : Option Info)

/-- The errors of the rules do not depend on what is checked, so they are compared at one ISSUE. -/
theorem formats_error_ne (i : Issue) (f : Field) :
    ∀ b ∈ validateFieldFormats js g info i, b.error ≠ lockedError f := by
  refine error_ne_of_not_mem ?_
  change _ ∉ (validateFieldFormats Js.literals Gates.all none (Issue.bare [])).map Check.error
  cases f <;> decide

theorem ownership_error_ne (hf : Foreign i f) :
    ∀ b ∈ validateOwnership js g info i, b.error ≠ lockedError f := by
  rw [validateOwnership, forall_mem_append]
  refine ⟨answered_error_ne hf.owner, error_ne_of_not_mem ?_⟩
  change _ ∉ Lock.all.map fun l => "invalid: " ++ l.name ++ " (locked)"
  cases f <;> decide

end

theorem transfer_error_ne (info : Option Info) (hf : Foreign i f) :
    ∀ b ∈ validateTransferFields info i, b.error ≠ lockedError f := by
  rw [validateTransferFields, forall_mem_append]
  refine ⟨answered_error_ne hf.transfer, error_ne_of_not_mem ?_⟩
  change _ ∉ ["invalid: MINT_SUPPLY (locked)"]
  cases f <;> decide

theorem rules_error_ne (g : Gates) (info : Option Info) (supply : ℚ) (hf : Foreign i f) :
    ∀ b ∈ ruleChecks js g info supply i, b.error ≠ lockedError f := by
  have hsupply : ∀ b ∈ validateSupplyFields js g info supply i ++
      validateMintSupplyCaps js g info supply i, b.error ≠ lockedError f := by
    refine error_ne_of_not_mem ?_
    change _ ∉ (validateSupplyFields Js.literals Gates.all none 0 (Issue.bare []) ++
      validateMintSupplyCaps Js.literals Gates.all none 0 (Issue.bare [])).map Check.error
    cases f <;> decide
  rw [forall_mem_append] at hsupply
  simp only [ruleChecks, forall_mem_append]
  exact ⟨⟨⟨⟨⟨answered_error_ne hf.early, formats_error_ne g info i f⟩, ownership_error_ne g info hf⟩,
    hsupply.1⟩, transfer_error_ne info hf⟩, hsupply.2⟩

/-- An edit is refused as locked when its check fires and none before it does. -/
theorem verdict_locked_iff (hl : f.lock? = some l) (hf : Foreign i f) :
    verdict js g info supply i = some (lockedError f) ↔
      (∀ b ∈ checksBefore js g info supply i f, b.fires = false) ∧ (lockedEdit info i f).fires := by
  have hedits : ∀ b ∈ (validateLockedEdits info i).take (editIndex f) ++
      (validateLockedEdits info i).drop (editIndex f + 1), b.error ≠ lockedError f := by
    refine error_ne_of_not_mem ?_
    rw [map_append, map_take, map_drop]
    change _ ∉ ((validateLockedEdits none (Issue.bare [])).map Check.error).take (editIndex f) ++
      ((validateLockedEdits none (Issue.bare [])).map Check.error).drop (editIndex f + 1)
    cases f <;> decide
  rw [forall_mem_append] at hedits
  rw [verdict, checks_eq hl]
  refine firstError_eq_some_iff ?_
  simp only [checksBefore, checksAfter, forall_mem_append]
  exact ⟨⟨rules_error_ne g info supply hf, hedits.1⟩, hedits.2, answered_error_ne hf.late⟩

theorem lockedEdit_of_valid (hl : f.lock? = some l) (hv : verdict js g info supply i = none) :
    (lockedEdit info i f).fires = false :=
  firstError_eq_none.mp hv _ (by rw [checks_eq hl]; simp)

/-! ### Histories -/

/-- The rows come from ISSUEs that meet `P`. -/
def Built (js : Js) (P : Issue → Prop) (rows : List Row) : Prop :=
  ∀ row ∈ rows, ∃ i, P i ∧ row = normalizeDataValues js i

variable {tok tok' : Token} {e : Issuance}

theorem step_rows (h : step js tok e = some tok') : tok'.rows = tok.rows ∨
      verdict js e.gates (getTokenInfo js tok.rows) e.supply e.issue = none ∧
        tok'.rows = tok.rows ++ [normalizeDataValues js e.issue] := by
  cases hv : verdict js e.gates (getTokenInfo js tok.rows) e.supply e.issue with
  | some error => exact .inl (by rw [issueToken_of_refused hv h])
  | none =>
    obtain ⟨d, -, rfl⟩ := issueToken_of_valid hv h
    exact .inr ⟨rfl, rfl⟩

variable {P : Issue → Prop}

theorem Built.step (h : Built js P tok.rows) (hp : P e.issue)
    (hs : step js tok e = some tok') : Built js P tok'.rows := by
  rcases step_rows hs with heq | ⟨-, heq⟩
  · rwa [heq]
  · rw [heq, Built, forall_mem_append]
    exact ⟨h, fun row hrow => ⟨e.issue, hp, mem_singleton.mp hrow⟩⟩

theorem built_of_reaches (h : Reaches (step js) (fun _ e => P e.issue) Token.none tok) :
    Built js P tok.rows := by
  have hinit : Built js P Token.none.rows := by simp [Built, Token.none]
  have hstep : ∀ (s : Token) (e : Issuance) (s' : Token), P e.issue → step js s e = some s' →
      Built js P s.rows → Built js P s'.rows := fun _ _ _ hp hs hb => hb.step hp hs
  exact h.invariant hinit hstep

variable {t : Text}

theorem exists_row_of_field (h : (foldRows js rows).field f = some t) :
    ∃ row ∈ rows, row.field f = some t := by
  induction rows using List.reverseRecOn with
  | nil => simp [foldRows, Info.empty] at h
  | append_singleton rows row ih =>
    rw [foldRows_append, foldRow, Option.or_eq_some_iff] at h
    rcases h with h | ⟨-, h⟩
    · exact ⟨row, by simp, h⟩
    · obtain ⟨r, hr, hf⟩ := ih h
      exact ⟨r, by simp [hr], hf⟩

theorem ticker_of_built (h : Built js P rows) (ht : (foldRows js rows).field .callbackTick = some t)
    : js.ticker t = t := by
  obtain ⟨row, hrow, hfield⟩ := exists_row_of_field ht
  obtain ⟨i, -, rfl⟩ := h row hrow
  obtain ⟨u, -, hu⟩ := Option.bind_eq_some_iff.mp hfield
  rw [storedField, Option.some.injEq] at hu
  rw [← hu, js.ticker_ticker]

theorem stored_or_of_not_differs (h : Built js P rows) (hl : f.lock? = some l)
    (ht : differs f ((foldRows js rows).field f) t = false) :
    (storedField js f t).or ((foldRows js rows).field f) = (foldRows js rows).field f := by
  have hundefined : js.isNumeric "undefined".toList = false := by
    rw [Js.isNumeric, js.number_undefined]
    rfl
  cases hf : (foldRows js rows).field f with
  | none => cases f <;> simp_all [differs, storedField, Field.lock?]
  | some u =>
    have hut : u = t := by cases f <;> simpa [differs, hf] using ht
    subst hut
    cases f with
    | description => rfl
    | callbackTick => simp [storedField, ticker_of_built h hf]
    | _ => simp only [storedField]; split_ifs <;> rfl

/-- **A set lock is final.** From any history on, whatever ISSUEs follow, the lock stays set and the
effective values of the fields that it protects stay as they are. -/
theorem lock_is_final (h : Reaches (step js) (fun _ _ => True) Token.none tok)
    (h' : Reaches (step js) (fun _ _ => True) tok tok') (hset : WasSet tok.rows l) :
    (foldRows js tok'.rows).lock l = some (lockText true) ∧
      ∀ f, f.lock? = some l → (foldRows js tok'.rows).field f = (foldRows js tok.rows).field f := by
  rw [foldRows_lock_iff]
  have hinit : Built js (fun _ => True) tok.rows ∧ WasSet tok.rows l ∧ ∀ f, f.lock? = some l →
      (foldRows js tok.rows).field f = (foldRows js tok.rows).field f :=
    ⟨built_of_reaches h, hset, fun _ _ => rfl⟩
  have hstep : ∀ (s : Token) (e : Issuance) (s' : Token), True → step js s e = some s' →
      (Built js (fun _ => True) s.rows ∧ WasSet s.rows l ∧ ∀ f, f.lock? = some l →
        (foldRows js s.rows).field f = (foldRows js tok.rows).field f) →
      Built js (fun _ => True) s'.rows ∧ WasSet s'.rows l ∧ ∀ f, f.lock? = some l →
        (foldRows js s'.rows).field f = (foldRows js tok.rows).field f := by
    rintro s e s' - hs ⟨hb, hw, heq⟩
    rcases step_rows hs with hrows | ⟨hv, hrows⟩
    · rw [hrows]
      exact ⟨hb, hw, heq⟩
    refine ⟨hb.step trivial hs, ?_, fun f hl => ?_⟩
    · obtain ⟨row, hrow, hlock⟩ := hw
      exact ⟨row, by rw [hrows]; simp [hrow], hlock⟩
    have hne : s.rows ≠ [] := by
      obtain ⟨row, hrow, -⟩ := hw
      exact ne_nil_of_mem hrow
    rw [getTokenInfo_of_ne hne] at hv
    have hfires := lockedEdit_of_valid hl hv
    rw [hrows, foldRows_append, ← heq f hl, foldRow]
    cases hw' : e.issue.field f with
    | none => simp [normalizeDataValues, hw']
    | some t =>
      have hlocked : ((foldRows js s.rows).lock l).isSome := by
        rw [(foldRows_lock_iff js s.rows l).mpr hw]
        rfl
      have hdiffers : differs f ((foldRows js s.rows).field f) t = false := by
        by_contra hn
        rw [Bool.not_eq_false] at hn
        rw [(lockedEdit_fires_iff hl).mpr ⟨hlocked, t, hw', hn⟩] at hfires
        cases hfires
      simp only [normalizeDataValues, hw', Option.bind_some]
      exact stored_or_of_not_differs hb hl hdiffers
  exact (h'.invariant hinit hstep).2

/-! ### Refused exactly when the lock was set -/

/-- No lock of a protected field is named with a text that reads 0. -/
def NeverUnlocks (js : Js) (i : Issue) : Prop :=
  ∀ f l, Field.lock? f = some l → ∀ t, i.lock l = some t → lockValue js t ≠ some false

section
variable (h : Built js (NeverUnlocks js) rows) (hl : f.lock? = some l)
include h hl

theorem lock_isSome_iff : ((foldRows js rows).lock l).isSome ↔ WasSet rows l := by
  refine foldRows_lock_isSome (fun row hrow hzero => ?_) fun row hrow => ?_
  · obtain ⟨i, hi, rfl⟩ := h row hrow
    obtain ⟨b, hb, htext⟩ := Option.map_eq_some_iff.mp hzero
    obtain ⟨t, ht, hvalue⟩ := Option.bind_eq_some_iff.mp hb
    cases b with
    | false => exact hi f l hl t ht hvalue
    | true => exact absurd htext (by decide)
  · obtain ⟨i, -, rfl⟩ := h row hrow
    simp only [normalizeDataValues]
    cases (i.lock l).bind (lockValue js) with
    | none => exact .inl rfl
    | some b => exact .inr ⟨b, rfl⟩

theorem lockedEdit_iff (i : Issue) :
    (lockedEdit (getTokenInfo js rows) i f).fires ↔ Edits (foldRows js rows) i f ∧ WasSet rows l := by
  by_cases hrows : rows = []
  · subst hrows
    simp [getTokenInfo, lockedEdit_none, WasSet]
  · rw [getTokenInfo_of_ne hrows, lockedEdit_fires_iff hl, lock_isSome_iff h hl]
    exact and_comm

end

/-- **Edits are refused as locked exactly when the lock was set.** After every history of ISSUEs that
name no lock of a protected field as 0: the verdict on an ISSUE is that a field is locked exactly when
no check before reports anything, the ISSUE edits the field and a valid ISSUE has set the field's lock
to 1; an edit of a locked field is never valid. A set lock stays set, and the effective value of a
field that it protects never changes again. -/
theorem locks_hold (js : Js) (tok : Token)
    (h : Reaches (step js) (fun _ e => NeverUnlocks js e.issue) Token.none tok) :
    (∀ f l, Field.lock? f = some l → ∀ (g : Gates) (supply : ℚ) (i : Issue),
      (Foreign i f →
        (verdict js g (getTokenInfo js tok.rows) supply i = some (lockedError f) ↔
          (∀ b ∈ checksBefore js g (getTokenInfo js tok.rows) supply i f, b.fires = false) ∧
            Edits (foldRows js tok.rows) i f ∧ WasSet tok.rows l)) ∧
      (Edits (foldRows js tok.rows) i f → WasSet tok.rows l →
        verdict js g (getTokenInfo js tok.rows) supply i ≠ none)) ∧
    ∀ tok', Reaches (step js) (fun _ _ => True) tok tok' → ∀ l, WasSet tok.rows l →
      (foldRows js tok'.rows).lock l = some (lockText true) ∧
        ∀ f, Field.lock? f = some l →
          (foldRows js tok'.rows).field f = (foldRows js tok.rows).field f := by
  have hb := built_of_reaches h
  refine ⟨fun f l hl g supply i => ⟨fun hf => ?_, fun hedit hset hv => ?_⟩, fun tok' h' l hset => ?_⟩
  · rw [verdict_locked_iff hl hf, lockedEdit_iff hb hl]
  · have hfires := lockedEdit_of_valid hl hv
    rw [(lockedEdit_iff hb hl i).mpr ⟨hedit, hset⟩] at hfires
    cases hfires
  · exact lock_is_final (h.mono fun _ _ _ => trivial) h' hset

/-- An ISSUE of an indivisible tick that names `MAX_SUPPLY` and perhaps its lock. -/
def capping (cap : ℕ) (lock : Option Text) : Issuance where
  gates := Gates.all
  supply := 0
  issue := { Issue.bare ['o', 'w', 'n'] with
    decimals := some ['0']
    field := fun f => if f = .maxSupply then some (numeral cap) else none
    lock := fun l => if l = .maxSupply then lock else none }

theorem locks_hold_cap_set :
    verdict Js.literals Gates.all
        (getTokenInfo Js.literals [normalizeDataValues Js.literals (capping 100 (some ['1'])).issue]) 0
        (capping 200 none).issue = some "invalid: MAX_SUPPLY (locked)" := by
  obtain ⟨tok, htok⟩ : ∃ tok, step Js.literals Token.none (capping 100 (some ['1'])) = some tok :=
    Option.isSome_iff_exists.mp (by decide +kernel)
  obtain ⟨d, -, rfl⟩ := issueToken_of_valid (by decide +kernel) htok
  have hok : NeverUnlocks Js.literals (capping 100 (some ['1'])).issue := by
    intro f l hl t ht
    obtain ⟨-, rfl⟩ : l = .maxSupply ∧ ['1'] = t := by simpa [capping] using ht
    decide +kernel
  have hreaches : Reaches (step Js.literals) (fun _ e => NeverUnlocks Js.literals e.issue) Token.none _ :=
    Reaches.init.next hok htok
  refine (((locks_hold Js.literals _ hreaches).1 .maxSupply .maxSupply rfl Gates.all 0
    (capping 200 none).issue).1 ⟨nofun, nofun, nofun, nofun⟩).mpr ⟨?_, ?_, ?_⟩
  · dsimp only
    decide +kernel
  · exact ⟨numeral 200, rfl, by dsimp only; decide +kernel⟩
  · exact ⟨_, mem_singleton_self _, by decide +kernel⟩

/-- **A lock of 0 refuses.** An ISSUE that names `LOCK_MAX_SUPPLY` as `0` stores that text, and the next
edit of `MAX_SUPPLY` is refused as locked. -/
theorem zero_lock_refuses :
    (step Js.literals Token.none (capping 100 (some ['0']))).map (fun tok =>
        (tok.rows.map fun row => row.lock .maxSupply,
          verdict Js.literals Gates.all (getTokenInfo Js.literals tok.rows) 0
            (capping 200 none).issue)) =
      some ([some ['0']], some "invalid: MAX_SUPPLY (locked)") := by
  decide +kernel

end XChainIndexer.Tokens.Locks
