import XChainIndexer.Ledger.Records
import XChainIndexer.Lib.Run
import XChainIndexer.Tokens.Issues

/-! # The three decimals of a token

A token's decimals are derived three times from its ISSUEs: `getTokenInfo` folds the rows, the ledger
writer takes `getTokenDecimalPrecision`, and `createToken` stores a column on the token's row. The
first keeps the largest number, the second compares texts, and the third takes the last text named.
They agree (`decimals_agree`) over ISSUEs that name `DECIMALS` by its numeral, never below the value in
effect and never across from 2–9 to 10–18; `precision_compares_texts` is a history outside of that. -/

namespace XChainIndexer.Tokens.Decimals

open IndexTables Lib.Run Bcmath List Option Tokens.Numerals Tokens.Issues Ledger.Records

variable {js : Js}

/-! ### Numerals up to 18 -/

theorem numeral_readings : ∀ n ≤ 18, (numeral n).length ≤ 2 ∧ number (numeral n) = some (n : ℚ) ∧
    parseInt (numeral n) = some (n : ℤ) := by
  decide +kernel

variable {n : ℕ}

theorem number_numeral (h : n ≤ 18) : js.number (numeral n) = some (n : ℚ) := by
  obtain ⟨hlen, hnum, -⟩ := numeral_readings n h
  rw [js.number_short _ hlen, hnum]

theorem parseInt_numeral (h : n ≤ 18) : js.parseInt (numeral n) = some (n : ℤ) := by
  obtain ⟨hlen, hnum, hint⟩ := numeral_readings n h
  rw [js.parseInt_short _ hlen (by rw [hnum]; rfl), hint]

/-- `decimals` in the loop of `getTokenDecimalPrecision` once it stands for `n`. -/
def loopValue (n : ℕ) : Option Text := if n = 0 then none else some (numeral n)

/-- A step of `DECIMALS` that the comparison of texts gets right. -/
def Climbs (n m : ℕ) : Prop := n ≤ m ∧ (n ≤ 1 ∨ m < 10 ∨ 10 ≤ n)

instance (n m : ℕ) : Decidable (Climbs n m) := by unfold Climbs; infer_instance

theorem maxDecimals_loopValue : ∀ n ≤ 18, ∀ m ≤ 18, Climbs n m →
    maxDecimals (loopValue n) (some (numeral m)) = loopValue m := by
  decide +kernel

theorem min_parseInt_loopValue : ∀ n ≤ 18,
    (match loopValue n with
      | none => 0
      | some t => min 18 ((parseInt t).getD 0).toNat) = n := by
  decide +kernel

/-! ### The invariant -/

/-- The rows fold to `n`, and the loop over their column ends at `n`. -/
structure FoldTo (js : Js) (rows : List Row) (n : ℕ) : Prop where
  le : n ≤ 18
  fold : (foldRows js rows).decimals = if rows = [] then none else some (n : ℤ)
  loop : (rows.map Row.decimals).foldl maxDecimals none = loopValue n

theorem foldTo_nil : FoldTo js [] 0 := ⟨by decide, rfl, rfl⟩

variable {rows : List Row}

theorem FoldTo.precision (h : FoldTo js rows n) : Issues.getTokenDecimalPrecision rows = n := by
  rw [Issues.getTokenDecimalPrecision, tokenDecimalPrecision, h.loop]
  exact min_parseInt_loopValue n h.le

variable {m : ℕ}

section
variable (h : FoldTo js rows n)
include h

theorem FoldTo.fold_cases :
    (foldRows js rows).decimals = none ∨ (foldRows js rows).decimals = some (n : ℤ) := by
  rw [h.fold]
  split_ifs
  · exact .inl rfl
  · exact .inr rfl

variable {row : Row}

theorem FoldTo.append_numeral (hrow : row.decimals = some (numeral m)) (hm : m ≤ 18) (hc : Climbs n m) :
    FoldTo js (rows ++ [row]) m := by
  refine ⟨hm, ?_, ?_⟩
  · rw [foldRows_append, if_neg (by simp), foldRow, rowDecimals, hrow]
    simp only [parseInt_numeral hm]
    obtain hd | hd := h.fold_cases
    · rw [hd]
      rfl
    · have hle := hc.1
      rw [hd, foldDecimals, if_neg (by omega)]
  · rw [map_append, foldl_append, h.loop, map_singleton, hrow]
    exact maxDecimals_loopValue n h.le m hm hc

theorem FoldTo.append_absent (hrow : row.decimals = none)
    (hn : rows = [] → n = 0) : FoldTo js (rows ++ [row]) n := by
  refine ⟨h.le, ?_, ?_⟩
  · rw [foldRows_append, if_neg (by simp), foldRow, rowDecimals, hrow, h.fold]
    split_ifs with hrows
    · rw [hn hrows]
      rfl
    · rcases Nat.eq_zero_or_pos n with rfl | hpos
      · rfl
      · rw [foldDecimals, if_pos (by omega)]
  · rw [map_append, foldl_append, h.loop, map_singleton, hrow]
    rfl

end

/-- The three values of a token are one. -/
structure Agrees (js : Js) (tok : Token) (n : ℕ) : Prop extends FoldTo js tok.rows n where
  token : tok.decimals = if tok.rows = [] then none else some (n : ℤ)
  fresh : tok.rows = [] → n = 0

def inEffect (js : Js) (tok : Token) : ℕ := ((foldRows js tok.rows).decimals.getD 0).toNat

/-- `DECIMALS`, if the ISSUE names it, is out of the range the rules accept, or it is a numeral that
climbs from the value in effect. -/
def Steady (js : Js) (tok : Token) (i : Issue) : Prop :=
  ∀ t, i.decimals = some t →
    (∃ v, js.number t = some v ∧ (v < 0 ∨ 18 < v)) ∨
    ∃ m ≤ 18, t = numeral m ∧ Climbs (inEffect js tok) m

variable {tok : Token}

theorem Agrees.inEffect (h : Agrees js tok n) : inEffect js tok = n := by
  rw [Decimals.inEffect, h.fold]
  split_ifs with hrows
  · rw [h.fresh hrows]
    rfl
  · simp

variable {g : Gates} {supply : ℚ} {i : Issue} {t : Text} {info : Option Info}

theorem decimals_in_range (h : verdict js g info supply i = none)
    (ht : i.decimals = some t) {v : ℚ} (hv : js.number t = some v) : ¬(v < 0 ∨ 18 < v) := by
  have hchecks := firstError_eq_none.mp h
    ⟨((mergedDecimals info i).number js).any fun v => decide (v < 0 ∨ 18 < v),
      "invalid: DECIMALS (min/max)"⟩ (by simp [checks, validateSupplyFields])
  have hm : mergedDecimals info i = .text t := by simp only [mergedDecimals, ht]
  simpa [hm, Decimals.number, hv] using hchecks

theorem numeral_in_range (hm : m ≤ 18) : ¬((m : ℚ) < 0 ∨ (18 : ℚ) < m) := by
  rintro (h | h)
  · exact absurd h (by simp)
  · exact absurd h (by exact_mod_cast not_lt.mpr hm)

theorem storedDecimals_numeral (hm : m ≤ 18) : storedDecimals js (numeral m) = some (numeral m) := by
  rw [storedDecimals, number_numeral hm]
  exact if_neg (numeral_in_range hm)

theorem createTokenDecimals_text (hm : m ≤ 18) :
    createTokenDecimals js (.text (numeral m)) = some (m : ℤ) := by
  rw [createTokenDecimals, Issues.Decimals.number, number_numeral hm]
  exact (if_neg (numeral_in_range hm)).trans (parseInt_numeral hm)

theorem createTokenDecimals_folded (hn : n ≤ 18) :
    createTokenDecimals js (.folded (some (n : ℤ))) = some (n : ℤ) := by
  exact if_neg (numeral_in_range hn)

/-- A valid ISSUE of a steady history keeps the three values equal, and does not lower them. -/
theorem Agrees.issue (h : Agrees js tok n) (hok : Steady js tok i)
    (hv : verdict js g (getTokenInfo js tok.rows) supply i = none) {d : ℤ}
    (hd : createTokenDecimals js (mergedDecimals (getTokenInfo js tok.rows) i) = some d) :
    ∃ m, n ≤ m ∧ (∀ t, i.decimals = some t → t = numeral m) ∧
      (mergedDecimals (getTokenInfo js tok.rows) i).scale js = m ∧
      Agrees js ⟨tok.rows ++ [normalizeDataValues js i], some d⟩ m := by
  cases hi : i.decimals with
  | some t =>
    rcases hok t hi with ⟨v, hnum, hrange⟩ | ⟨m, hm, rfl, hclimbs⟩
    · exact absurd hrange (decimals_in_range hv hi hnum)
    · rw [h.inEffect] at hclimbs
      have hrow : (normalizeDataValues js i).decimals = some (numeral m) := by
        simp only [normalizeDataValues, hi]
        exact storedDecimals_numeral hm
      have htoken : d = m := by
        simp only [mergedDecimals, hi, createTokenDecimals_text hm, some.injEq] at hd
        exact hd.symm
      have hscale : (mergedDecimals (getTokenInfo js tok.rows) i).scale js = m := by
        simp [mergedDecimals, hi, Issues.Decimals.scale, Issues.Decimals.parseInt, parseInt_numeral hm]
      refine ⟨m, hclimbs.1, fun t ht => (some.inj ht).symm, hscale,
        h.toFoldTo.append_numeral hrow hm hclimbs, ?_, fun he => absurd he (by simp)⟩
      rw [if_neg (by simp), htoken]
  | none =>
    have hrow : (normalizeDataValues js i).decimals = none := by
      simp only [normalizeDataValues, hi]
      rfl
    have hboth : d = n ∧ (mergedDecimals (getTokenInfo js tok.rows) i).scale js = n := by
      by_cases hrows : tok.rows = []
      · simp only [hrows, getTokenInfo, isEmpty_nil, if_true, mergedDecimals, hi] at hd ⊢
        rw [h.fresh hrows]
        exact ⟨(some.inj hd).symm, rfl⟩
      · simp only [getTokenInfo_of_ne hrows, mergedDecimals, hi, h.fold, if_neg hrows,
          createTokenDecimals_folded h.le, some.injEq] at hd ⊢
        exact ⟨hd.symm, Int.toNat_natCast n⟩
    obtain ⟨htoken, hscale⟩ := hboth
    refine ⟨n, le_rfl, fun _ ht => absurd ht (by simp), hscale, h.toFoldTo.append_absent hrow h.fresh, ?_,
      fun he => absurd he (by simp)⟩
    rw [if_neg (by simp), htoken]

theorem agrees_of_reaches (h : Reaches (step js) (fun tok e => Steady js tok e.issue) Token.none tok) :
    ∃ n, Agrees js tok n := by
  have hstep : ∀ (s : Token) (e : Issuance) (s' : Token), Steady js s e.issue →
      step js s e = some s' → (∃ n, Agrees js s n) → ∃ n, Agrees js s' n := by
    rintro s e s' hok hs ⟨n, hn⟩
    cases hv : verdict js e.gates (getTokenInfo js s.rows) e.supply e.issue with
    | some error =>
      obtain rfl := issueToken_of_refused hv hs
      exact ⟨n, hn⟩
    | none =>
      obtain ⟨d, hd, rfl⟩ := issueToken_of_valid hv hs
      obtain ⟨m, -, -, -, hm⟩ := hn.issue hok hv hd
      exact ⟨m, hm⟩
  exact h.invariant ⟨0, foldTo_nil, rfl, fun _ => rfl⟩ hstep

/-! ### Amounts -/

/-- The ledger row of an amount holds the amount, whichever scale the block writes at. -/
def WrittenUnrounded (js : Js) (tok : Token) (t : Text) : Prop :=
  ∀ (c : BlockCtx) (issues : List IssueRow) (tickId : Option ℕ),
    (issues.filter fun i => some i.tickId = tickId).map IssueRow.decimals =
      tok.rows.map Row.decimals →
    bcadd (js.bcnum t) 0 (ledgerWriteScale c issues tickId) = js.bcnum t

theorem FoldTo.writtenUnrounded (h : FoldTo js tok.rows n) (hfits : Fits n (js.bcnum t)) :
    WrittenUnrounded js tok t := by
  intro c issues tickId hcolumn
  have hscale : n ≤ ledgerWriteScale c issues tickId := by
    rw [ledgerWriteScale, Ledger.Records.getTokenDecimalPrecision, hcolumn]
    split_ifs
    · exact h.le
    · exact h.precision.ge
  exact bcadd_zero hfits h.le hscale

theorem mintSupply_format (h : verdict js g info supply i = none) (ht : i.mintSupply = some t) :
    isValidAmountFormat js g.amountRepresentability (tickDecimals js info i) t := by
  have hcheck := firstError_eq_none.mp h
    (formatCheck js g "MINT_SUPPLY" (tickDecimals js info i) i.mintSupply)
    (by simp [checks, validateFieldFormats])
  simpa [formatCheck, ht] using hcheck

theorem isValidAmountFormat_nan : isValidAmountFormat js true none t = false := by
  simp [isValidAmountFormat, isValidAmountMergeFormat, isRepresentableAmount]

/-- An amount of a valid ISSUE is on the grid of the token that the ISSUE leaves. -/
theorem Agrees.fits_wire (h : Agrees js tok n) (hnm : n ≤ m) (hm : m ≤ 18)
    (hnamed : ∀ t, i.decimals = some t → t = numeral m)
    (ht : isValidAmountFormat js true (tickDecimals js (getTokenInfo js tok.rows) i) t) :
    Fits m (js.bcnum t) ∧ 0 ≤ js.bcnum t := by
  by_cases hrows : tok.rows = []
  · have hnone : getTokenInfo js tok.rows = none := by rw [hrows]; rfl
    cases hi : i.decimals with
    | none =>
      simp only [hnone, tickDecimals, mergedDecimals, hi, Issues.Decimals.parseInt,
        isValidAmountFormat_nan, Bool.false_eq_true] at ht
    | some text =>
      obtain rfl := hnamed text hi
      simp only [hnone, tickDecimals, mergedDecimals, hi, Issues.Decimals.parseInt, parseInt_numeral hm] at ht
      exact fits_of_isValidAmountFormat ht
  · rw [getTokenInfo_of_ne hrows, tickDecimals, h.fold, if_neg hrows] at ht
    obtain ⟨hfits, hnonneg⟩ := fits_of_isValidAmountFormat ht
    exact ⟨hfits.mono hnm, hnonneg⟩

/-- **The three decimals agree.** After every steady history of ISSUEs, whatever the supply and the
rules in force at each, the folded decimals, the ledger's precision and the decimals of the token row
are equal; an amount that passes the format check at the folded decimals is written unrounded, and so
is the `MINT_SUPPLY` of the next ISSUE, which is credited after its row is there. -/
theorem decimals_agree (js : Js) (tok : Token)
    (h : Reaches (step js) (fun tok e => Steady js tok e.issue) Token.none tok) :
    (∀ info, getTokenInfo js tok.rows = some info →
      info.decimals = some (Issues.getTokenDecimalPrecision tok.rows : ℤ) ∧
      tok.decimals = some (Issues.getTokenDecimalPrecision tok.rows : ℤ) ∧
      ∀ t, isValidAmountFormat js true info.decimals t = true → WrittenUnrounded js tok t) ∧
    ∀ e tok', Steady js tok e.issue → e.gates.amountRepresentability = true →
      verdict js e.gates (getTokenInfo js tok.rows) e.supply e.issue = none →
      step js tok e = some tok' →
      ∀ t, e.issue.mintSupply = some t → WrittenUnrounded js tok' t := by
  obtain ⟨n, hn⟩ := agrees_of_reaches h
  refine ⟨fun info hinfo => ?_, fun e tok' hok hactive hv hs t ht => ?_⟩
  · have hrows : tok.rows ≠ [] := by
      rintro hrows
      rw [hrows] at hinfo
      cases hinfo
    rw [getTokenInfo_of_ne hrows] at hinfo
    obtain ⟨⟩ := hinfo
    have hfold : (foldRows js tok.rows).decimals = some (n : ℤ) := by rw [hn.fold, if_neg hrows]
    rw [hn.precision, hfold, hn.token, if_neg hrows]
    exact ⟨rfl, rfl, fun t ht => hn.writtenUnrounded (fits_of_isValidAmountFormat ht).1⟩
  · have hformat := mintSupply_format hv ht
    rw [hactive] at hformat
    obtain ⟨d, hd, rfl⟩ := issueToken_of_valid hv hs
    obtain ⟨m, hnm, hnamed, -, hm⟩ := hn.issue hok hv hd
    exact hm.writtenUnrounded (hn.fits_wire hnm hm.le hnamed hformat).1

/-- An ISSUE of a tick without supply that names only `DECIMALS`. -/
def naming (n : ℕ) : Issuance where
  gates := Gates.all
  supply := 0
  issue := { Issue.bare ['o', 'w', 'n'] with decimals := some (numeral n) }

/-- The token after the ISSUEs that name the decimals given. -/
def named (column : List ℕ) (decimals : ℤ) : Token :=
  ⟨column.map fun n => normalizeDataValues Js.literals (naming n).issue, some decimals⟩

theorem step_naming {d : ℤ}
    (hv : verdict Js.literals Gates.all (getTokenInfo Js.literals tok.rows) 0 (naming n).issue = none)
    (hd : createTokenDecimals Js.literals (.text (numeral n)) = some d) : step Js.literals tok (naming n) =
      some ⟨tok.rows ++ [normalizeDataValues Js.literals (naming n).issue], some d⟩ := by
  have hm : mergedDecimals (getTokenInfo Js.literals tok.rows) (naming n).issue = .text (numeral n) :=
    rfl
  rw [step, issueToken]
  simp only [naming] at hv hm ⊢
  rw [hv, hm, hd]
  rfl

theorem decimals_agree_two_then_eight :
    Issues.getTokenDecimalPrecision (named [2, 8] 8).rows = 8 ∧
      (foldRows Js.literals (named [2, 8] 8).rows).decimals = some 8 ∧
      WrittenUnrounded Js.literals (named [2, 8] 8) ['0', '.', '0', '0', '0', '0', '0', '0', '0', '1'] := by
  have hsteady : ∀ (tok : Token) (n : ℕ), n ≤ 18 → Climbs (inEffect Js.literals tok) n →
      Steady Js.literals tok (naming n).issue := by
    intro tok n hn hc t ht
    exact .inr ⟨n, hn, (some.inj ht).symm, hc⟩
  have hfirst : Reaches (step Js.literals) (fun tok e => Steady Js.literals tok e.issue) Token.none
      (named [2] 2) :=
    Reaches.init.next (hsteady Token.none 2 (by decide) (by decide +kernel))
      (step_naming (by decide +kernel) (by decide +kernel))
  have hsecond : Reaches (step Js.literals) (fun tok e => Steady Js.literals tok e.issue) Token.none
      (named [2, 8] 8) :=
    hfirst.next (hsteady _ 8 (by decide) (by decide +kernel))
      (step_naming (by decide +kernel) (by decide +kernel))
  have hprecision : Issues.getTokenDecimalPrecision (named [2, 8] 8).rows = 8 := by decide +kernel
  obtain ⟨hfold, -, hwritten⟩ := (decimals_agree Js.literals _ hsecond).1 _ rfl
  rw [hprecision] at hfold
  exact ⟨hprecision, hfold, hwritten _ (by decide +kernel)⟩

def billionth : Text := ['0', '.', '0', '0', '0', '0', '0', '0', '0', '0', '1']

/-- **The precision compares texts.** A tick issued with `8` decimals and, while it has no supply,
issued again with `18`: the handlers check amounts against 18 decimals, the ledger writes 8, and an
accepted amount of a billionth is written as zero. -/
theorem precision_compares_texts :
    (run (step Js.literals) Token.none [naming 8, naming 18]).map (fun tok =>
        ((getTokenInfo Js.literals tok.rows).map Info.decimals,
          Issues.getTokenDecimalPrecision tok.rows, tok.decimals)) =
      some (some (some 18), 8, some 18) ∧
    isValidAmountFormat Js.literals true (some 18) billionth = true ∧
    Js.literals.bcnum billionth = 1 / 10 ^ 9 ∧ bcadd (Js.literals.bcnum billionth) 0 8 = 0 := by
  decide +kernel

/-- The token row takes the last text named, and the fold does not go down. -/
example :
    (run (step Js.literals) Token.none [naming 8, naming 2]).map (fun tok =>
        ((getTokenInfo Js.literals tok.rows).map Info.decimals, tok.decimals)) =
      some (some (some 8), some 2) := by
  decide +kernel

end XChainIndexer.Tokens.Decimals
