import XChainIndexer.IndexTables
import XChainIndexer.Bcmath
import XChainIndexer.Lib.Digits

/-! # The numbers that texts denote

A wire field is a text, and the handlers read a number from it in four ways: `isNumeric`, `Number`
and `parseInt` of the language and `bcnum` of `utility/bcmath.js`. `Js` holds these readings. Texts of
at most two characters (all that a `decimals` column holds) and plain decimals are read as the
definitions here say; of the others nothing is assumed.

`isValidAmountFormat` is the amount check of `utility/validation/amount_validation.js` with the
representability rule of `amount_representability_gate.js`: an amount that passes under that rule is
a number of the ledger's grid (`fits_of_isValidAmountMergeFormat`). `tokenDecimalPrecision` is the loop of
`getTokenDecimalPrecision` (`db/issues/index.js`), which compares the stored texts as texts. -/

namespace XChainIndexer.Tokens.Numerals

open IndexTables Lib.Digits Lib.Decimal Bcmath

/-! ### Literals -/

/-- What stands before the first point, and what stands after it if there is one. -/
def splitPoint (t : Text) : Text × Option Text :=
  (t.takeWhile (· ≠ '.'),
    match t.dropWhile (· ≠ '.') with
    | [] => none
    | _ :: frac => some frac)

/-- The value of digits with digits after a point. -/
def pointValue (int frac : Text) : ℚ := decimal int + decimal frac / 10 ^ frac.length

/-- The literals `5`, `5.`, `.5` and `5.5`. -/
def unsigned (t : Text) : Option ℚ :=
  let int := (splitPoint t).1
  let frac := (splitPoint t).2.getD []
  if isDigits (int ++ frac) then some (pointValue int frac) else none

/-- `Number(t)` of a literal with at most a sign before it. -/
def number : Text → Option ℚ
  | '-' :: t => (unsigned t).map Neg.neg
  | '+' :: t => unsigned t
  | t => unsigned t

def leadingDigits (t : Text) : Option ℤ :=
  if t.takeWhile Char.isDigit = [] then none else some (decimal (t.takeWhile Char.isDigit))

/-- `parseInt(t)` of such a literal; `none` is `NaN`. -/
def parseInt : Text → Option ℤ
  | '-' :: t => (leadingDigits t).map Neg.neg
  | '+' :: t => leadingDigits t
  | t => leadingDigits t

/-- `/^[0-9]+(\.[0-9]+)?$/`. -/
def isPlainDecimal (t : Text) : Bool :=
  isDigits (splitPoint t).1 && (splitPoint t).2.all isDigits

def plainValue (t : Text) : ℚ := pointValue (splitPoint t).1 ((splitPoint t).2.getD [])

variable {t : Text}

theorem number_isSome_of_isPlainDecimal (h : isPlainDecimal t) : (number t).isSome := by
  rw [isPlainDecimal, Bool.and_eq_true] at h
  obtain ⟨hint, hfrac⟩ := h
  have hunsigned : (unsigned t).isSome := by
    have hdigits : isDigits ((splitPoint t).1 ++ (splitPoint t).2.getD []) := by
      rw [isDigits, Bool.and_eq_true, decide_eq_true_eq] at hint ⊢
      refine ⟨by simp [hint.1], ?_⟩
      rw [List.all_append, hint.2]
      cases hs : (splitPoint t).2 with
      | none => rfl
      | some frac =>
        rw [hs] at hfrac
        simp only [Option.all_some, isDigits, Bool.and_eq_true] at hfrac
        exact hfrac.2
    simp [unsigned, hdigits]
  -- a plain decimal starts with a digit, so no sign is read
  unfold number
  split
  · simp [splitPoint, isDigits, Char.isDigit] at hint
  · simp [splitPoint, isDigits, Char.isDigit] at hint
  · exact hunsigned

/-- The readings of a text. -/
structure Js where
  /-- `Number(t)`, if `isNumeric` accepts the text. -/
  number : Text → Option ℚ
  parseInt : Text → Option ℤ
  bcnum : Text → ℚ
  /-- `exceedsUnsignedColumn` at the largest `BIGINT UNSIGNED`. -/
  exceedsUnsigned : Text → Bool
  /-- The name of the ticker that a text is interned as. -/
  ticker : Text → Text
  number_undefined : number "undefined".toList = none
  number_short : ∀ t, t.length ≤ 2 → number t = Numerals.number t
  number_plain : ∀ t, isPlainDecimal t → t.length ≤ 250 → (number t).isSome
  parseInt_short : ∀ t, t.length ≤ 2 → (Numerals.number t).isSome →
    parseInt t = Numerals.parseInt t
  bcnum_plain : ∀ t, isPlainDecimal t → plainValue t < 10 ^ 42 → bcnum t = plainValue t
  ticker_ticker : ∀ t, ticker (ticker t) = ticker t

def Js.isNumeric (js : Js) (t : Text) : Bool := (js.number t).isSome

/-- The readings that take nothing but literals. -/
def Js.literals : Js where
  number := Numerals.number
  parseInt := Numerals.parseInt
  bcnum := plainValue
  exceedsUnsigned _ := false
  ticker := id
  number_undefined := by decide
  number_short _ _ := rfl
  number_plain _ h _ := number_isSome_of_isPlainDecimal h
  parseInt_short _ _ _ := rfl
  bcnum_plain _ _ _ := rfl
  ticker_ticker _ := rfl

/-! ### Amounts -/

def amountMaxIntegerDigits : ℕ := 42

/-- `decimals` is what `parseInt` makes of the tick's decimals. -/
def isRepresentableAmount (decimals : Option ℤ) (text : Text) : Bool :=
  isPlainDecimal text &&
    decide (((splitPoint text).1.dropWhile (· = '0')).length ≤ amountMaxIntegerDigits) &&
    match decimals with
    | none => false
    | some d => (splitPoint text).2.all fun sats => decide ((sats.length : ℤ) ≤ d)

/-- `representability`: the flag day of the representability rule has come. -/
def isValidAmountMergeFormat (js : Js) (representability : Bool) (decimals : Option ℤ)
    (amount : Text) : Bool :=
  if representability && !isRepresentableAmount decimals amount then false
  else if amount.head? = some '-' then false
  else match amount.splitOn '.' with
    | [int] => js.isNumeric int
    | [int, sats] =>
      -- An indivisible tick takes no point at all.
      decide (decimals ≠ some 0) && js.isNumeric int &&
        (sats.isEmpty || js.isNumeric sats &&
          match decimals with
          | none => true
          | some d => decide ((sats.length : ℤ) ≤ d))
    | _ => false

def isValidAmountFormat (js : Js) (representability : Bool) (decimals : Option ℤ)
    (amount : Text) : Bool :=
  decide (amount.length ≤ 250) && isValidAmountMergeFormat js representability decimals amount

theorem all_of_isDigits (h : isDigits t) : t.all Char.isDigit := by
  rw [isDigits, Bool.and_eq_true] at h
  exact h.2

theorem decimal_lt_of_significant (h : isDigits t)
    (hl : (t.dropWhile (· = '0')).length ≤ amountMaxIntegerDigits) : decimal t < 10 ^ 42 := by
  have hall : (t.dropWhile (· = '0')).all Char.isDigit := by
    rw [List.all_eq_true]
    intro c hc
    exact List.all_eq_true.mp (all_of_isDigits h) c ((List.dropWhile_sublist _).subset hc)
  rw [← decimal_dropWhile_zero]
  exact (decimal_lt hall).trans_le (Nat.pow_le_pow_right (by decide) hl)

theorem pointValue_nonneg (int frac : Text) : 0 ≤ pointValue int frac := by
  unfold pointValue
  positivity

variable {d : ℕ} {int frac : Text}

theorem onGrid_pointValue (h : frac.length ≤ d) : OnGrid d (pointValue int frac) := by
  refine OnGrid.mono (onGrid_iff.mpr ⟨decimal int * 10 ^ frac.length + decimal frac, ?_⟩) h
  unfold pointValue
  push_cast
  field_simp

theorem pointValue_lt {k : ℕ} (hi : decimal int < 10 ^ k)
    (hf : frac.all Char.isDigit) : pointValue int frac < 10 ^ k := by
  have hfrac : (decimal frac : ℚ) / 10 ^ frac.length < 1 := by
    rw [div_lt_one (by positivity)]
    exact_mod_cast decimal_lt hf
  have hint : (decimal int : ℚ) + 1 ≤ 10 ^ k := by exact_mod_cast hi
  unfold pointValue
  linarith

/-- A representable amount is on the tick's grid and in the ledger's range. -/
theorem fits_of_isRepresentableAmount (h : isRepresentableAmount (some (d : ℤ)) t) :
    isPlainDecimal t ∧ Fits d (plainValue t) ∧ 0 ≤ plainValue t := by
  simp only [isRepresentableAmount, Bool.and_eq_true, decide_eq_true_eq] at h
  obtain ⟨⟨hplain, hlen⟩, hsats⟩ := h
  have hnonneg : 0 ≤ plainValue t := pointValue_nonneg _ _
  have hparts := hplain
  rw [isPlainDecimal, Bool.and_eq_true] at hparts
  have hfrac : ((splitPoint t).2.getD []).all Char.isDigit ∧ ((splitPoint t).2.getD []).length ≤ d := by
    cases hs : (splitPoint t).2 with
    | none => simp
    | some sats =>
      rw [hs] at hparts hsats
      exact ⟨all_of_isDigits hparts.2, by simpa using hsats⟩
  refine ⟨hplain, ⟨onGrid_pointValue hfrac.2, ?_⟩, hnonneg⟩
  rw [abs_of_nonneg hnonneg]
  exact pointValue_lt (decimal_lt_of_significant hparts.1 hlen) hfrac.1

variable {js : Js} {decimals : Option ℤ}

theorem isRepresentableAmount_of_format
    (h : isValidAmountMergeFormat js true decimals t) : isRepresentableAmount decimals t := by
  by_contra hn
  simp [isValidAmountMergeFormat, hn] at h

/-- **An accepted amount is a number of the ledger.** Under the representability rule a text that
passes the format check denotes a number with the tick's decimals that the ledger can hold. -/
theorem fits_of_isValidAmountMergeFormat (h : isValidAmountMergeFormat js true (some (d : ℤ)) t) :
    Fits d (js.bcnum t) ∧ 0 ≤ js.bcnum t := by
  obtain ⟨hplain, hfits⟩ := fits_of_isRepresentableAmount (isRepresentableAmount_of_format h)
  rw [js.bcnum_plain t hplain (abs_lt.mp hfits.1.2).2]
  exact hfits

/-- **Representable amounts.** A ledger row stores exactly the number that a representable text
denotes, and the sum and the difference of two of them are exact at the tick's scale. -/
theorem representable_amounts_exact {s : Text} (hd : d ≤ 18)
    (hs : isRepresentableAmount (some (d : ℤ)) s = true)
    (ht : isRepresentableAmount (some (d : ℤ)) t = true) :
    bcadd (js.bcnum s) 0 d = plainValue s ∧
      bcadd (js.bcnum s) (js.bcnum t) d = plainValue s + plainValue t ∧
      bcsub (js.bcnum s) (js.bcnum t) d = plainValue s - plainValue t := by
  obtain ⟨hplain, hfits, hnn⟩ := fits_of_isRepresentableAmount hs
  obtain ⟨hplain', hfits', hnn'⟩ := fits_of_isRepresentableAmount ht
  have h := (le_abs_self (plainValue s)).trans_lt hfits.2
  have h' := (le_abs_self (plainValue t)).trans_lt hfits'.2
  rw [js.bcnum_plain s hplain h, js.bcnum_plain t hplain' h']
  refine ⟨bcadd_zero hfits hd le_rfl, bcadd_of_onGrid hd hfits.1 hfits'.1 ?_,
    bcsub_of_fits hfits hfits' hd le_rfl⟩
  rw [abs_of_nonneg (by linarith)]
  linarith

theorem representable_amounts_exact_two :
    bcadd (Js.literals.bcnum "007.5".toList) (Js.literals.bcnum "0.25".toList) 2 =
      plainValue "007.5".toList + plainValue "0.25".toList :=
  (representable_amounts_exact (by norm_num) (by decide) (by decide)).2.1

theorem fits_of_isValidAmountFormat (h : isValidAmountFormat js true (some (d : ℤ)) t) :
    Fits d (js.bcnum t) ∧ 0 ≤ js.bcnum t := by
  rw [isValidAmountFormat, Bool.and_eq_true] at h
  exact fits_of_isValidAmountMergeFormat h.2

theorem isNumeric_of_isValidAmountFormat (h : isValidAmountFormat js true decimals t) : js.isNumeric t := by
  rw [isValidAmountFormat, Bool.and_eq_true, decide_eq_true_eq] at h
  have hrep := isRepresentableAmount_of_format h.2
  simp only [isRepresentableAmount, Bool.and_eq_true] at hrep
  exact js.number_plain t hrep.1.1 h.1

/-! ### Decimals -/

def numeral (n : ℕ) : Text := Nat.toDigits 10 n

/-- `row.decimals > decimals`: a number comparison as long as `decimals` is the number zero it starts
from, and then one of texts. -/
def exceeds (t : Text) : Option Text → Bool
  | none => (number t).any fun v => decide (0 < v)
  | some decimals => decide (decimals < t)

def maxDecimals (decimals : Option Text) : Option Text → Option Text
  | none => decimals
  | some t => if exceeds t decimals then some t else decimals

/-- `getTokenDecimalPrecision` over the `decimals` column of a tick's valid ISSUE rows. -/
def tokenDecimalPrecision (column : List (Option Text)) : ℕ :=
  match column.foldl maxDecimals none with
  | none => 0
  | some decimals => min 18 ((parseInt decimals).getD 0).toNat

theorem tokenDecimalPrecision_le (column : List (Option Text)) : tokenDecimalPrecision column ≤ 18 := by
  unfold tokenDecimalPrecision
  split
  · omega
  · exact min_le_left _ _

/-- The comparison of texts is not that of the numbers. -/
example : tokenDecimalPrecision [some (numeral 8), some (numeral 18)] = 8 := by decide +kernel

end XChainIndexer.Tokens.Numerals
