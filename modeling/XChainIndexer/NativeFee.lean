import XChainIndexer.Bcmath

/-! # The native fee output

The fees that the commands of one transaction draw from its native fee output
(`utility/native_fee.js`). The commands of a BATCH and the legs of an AIRDROP share a ledger of what was
drawn; a command is judged against what is left and drains its expected fee. Main result:
`output_buys_its_fees`, on the fees at the eight decimals of the ledger. The expected fees themselves
carry eighteen, and what rounding leaves undrawn of each adds up (`rounding_buys_more`). -/

namespace XChainIndexer.NativeFee

open Lib.Decimal Bcmath List

structure Tolerance where
  min : ℚ
  max : ℚ

/-- What `getFeeOraclePrices` returns: a price that is not positive is an error. -/
structure Prices where
  coinUsdPrice : ℚ
  xchainUsdPrice : ℚ
  oracleRound : ℕ
  coin_pos : 0 < coinUsdPrice
  xchain_pos : 0 < xchainUsdPrice

structure Band where
  feeUsd : ℚ
  expectedNative : ℚ
  minAcceptable : ℚ
  maxAcceptable : ℚ

def computeNativeFeeBand (xchainAmount xchainUsdPrice coinUsdPrice : ℚ) (t : Tolerance) : Band :=
  let feeUsd := bcmul xchainAmount xchainUsdPrice 18
  let expectedNative := bcdiv feeUsd coinUsdPrice 18
  ⟨feeUsd, expectedNative, bcmul expectedNative t.min 8, bcmul expectedNative t.max 8⟩

/-- A sub-command or a leg: its fee and the prices its block reads. -/
structure Command where
  xchainAmount : ℚ
  prices : Except String Prices

inductive FeeError
  | noOutput
  | zeroValue
  | price (error : String)
  | insufficient (paid expected min : ℚ)

inductive Verdict
  | refused (error : FeeError)
  /-- No fee is required. -/
  | free
  | paid (nativeCoinAmount expectedAmount : ℚ) (oracleRound : ℕ)

/-- `ledger` is its `nativeFeeConsumed`, `none` without one. -/
def drawNativeFeeOutput (ledger : Option ℚ) (available paidAmount : ℚ) (band : Band) (round : ℕ) :
    Verdict × Option ℚ :=
  if available < band.minAcceptable then
    (.refused (.insufficient (format available 8) (format band.expectedNative 8)
      (format band.minAcceptable 8)), ledger)
  else match ledger with
    | none => (.paid (format paidAmount 8) (format band.expectedNative 8) round, none)
    | some consumed =>
      let attributed := if available < band.expectedNative then available else band.expectedNative
      (.paid (format attributed 8) (format band.expectedNative 8) round,
        some (format (bcadd consumed attributed 8) 8))

/-- `output` is the value of the output to `FEE_DESTINATION`. -/
def validateNativeCoinFee (t : Tolerance) (output ledger : Option ℚ) (c : Command) :
    Verdict × Option ℚ :=
  match output with
  | none => (.refused .noOutput, ledger)
  | some paidAmount =>
    if paidAmount ≤ 0 then (.refused .zeroValue, ledger)
    else if c.xchainAmount ≤ 0 then (.free, ledger)
    else
      let available := ledger.elim paidAmount fun consumed => bcsub paidAmount consumed 8
      if ledger.isSome ∧ available ≤ 0 then (.refused .zeroValue, ledger)
      else match c.prices with
        | .error e => (.refused (.price e), ledger)
        | .ok p => drawNativeFeeOutput ledger available paidAmount (computeNativeFeeBand
            c.xchainAmount p.xchainUsdPrice p.coinUsdPrice t) p.oracleRound

/-- The band of a command; without prices it has none. -/
def Command.band (c : Command) (t : Tolerance) : Band :=
  match c.prices with
  | .error _ => ⟨0, 0, 0, 0⟩
  | .ok p => computeNativeFeeBand c.xchainAmount p.xchainUsdPrice p.coinUsdPrice t

/-- A command that paid. -/
structure Draw where
  command : Command
  nativeCoinAmount : ℚ
  expectedAmount : ℚ

/-- What the commands of a transaction draw that share a ledger, one after the other. -/
def draws (t : Tolerance) (paid : ℚ) : ℚ → List Command → List Draw
  | _, [] => []
  | consumed, c :: cs =>
    let r := validateNativeCoinFee t (some paid) (some consumed) c
    let rest := draws t paid (r.2.getD consumed) cs
    match r.1 with
    | .paid amount expected _ => ⟨c, amount, expected⟩ :: rest
    | _ => rest

/-- A draw of the expected fee in full, at the eight decimals of the ledger. -/
structure Draw.Full (t : Tolerance) (d : Draw) : Prop where
  full : d.nativeCoinAmount = d.expectedAmount
  near : |d.expectedAmount - (d.command.band t).expectedNative| ≤ 1 / 10 ^ 8 / 2

/-- What was drawn is of the grid and within the output. -/
structure Pool (paid consumed : ℚ) : Prop where
  fits : Fits 8 paid
  grid : OnGrid 8 consumed
  nonneg : 0 ≤ consumed
  le : consumed ≤ paid

variable {t : Tolerance} {c : Command} {paid consumed : ℚ}

theorem Pool.available (h : Pool paid consumed) : bcsub paid consumed 8 = paid - consumed := by
  have hlt := (le_abs_self _).trans_lt h.fits.2
  have hc : |consumed| < 10 ^ 42 := by
    rw [abs_of_nonneg h.nonneg]
    exact h.le.trans_lt hlt
  exact bcsub_of_fits h.fits ⟨h.grid, hc⟩ (by norm_num) le_rfl

/-- The ledger after a draw of `x`. -/
theorem Pool.draw (h : Pool paid consumed) {x : ℚ} (h0 : 0 ≤ x) (hx : OnGrid 18 x)
    (hle : x ≤ paid - consumed) :
    format (bcadd consumed x 8) 8 = consumed + format x 8 ∧ Pool paid (consumed + format x 8) ∧
      |format x 8 - x| ≤ 1 / 10 ^ 8 / 2 := by
  have hlt := (le_abs_self _).trans_lt h.fits.2
  have hc0 := h.nonneg
  have hsmall : |x| < 10 ^ 46 := by
    rw [abs_of_nonneg h0]
    linarith
  have hsum : |consumed + x| < 10 ^ 46 := by
    rw [abs_of_nonneg (add_nonneg hc0 h0)]
    linarith
  have hdrawn : bcadd consumed x 8 = consumed + format x 8 := by
    unfold bcadd
    rw [format_eq_toFixed ((h.grid.mono (by norm_num)).add hx) hsum, format_eq_toFixed hx hsmall,
      toFixed_add h.grid hc0 h0]
  have hfits : format x 8 ≤ paid - consumed :=
    format_le_of_onGrid (h.fits.1.sub h.grid) (by norm_num) le_rfl hsmall hle
  have hnonneg := add_nonneg hc0 (format_nonneg 8 h0)
  have hgrid := h.grid.add (onGrid_format x 8)
  refine ⟨?_, ⟨h.fits, hgrid, hnonneg, by linarith⟩, ?_⟩
  · rw [hdrawn]
    refine format_of_onGrid hgrid (by norm_num) le_rfl ?_
    rw [abs_of_nonneg hnonneg]
    linarith
  · rw [format_eq_toFixed hx hsmall]
    exact abs_toFixed_sub_le 8 x

theorem expectedNative_spec (h : 0 < c.xchainAmount) :
    0 ≤ (c.band t).expectedNative ∧ OnGrid 18 (c.band t).expectedNative := by
  unfold Command.band
  split
  · exact ⟨le_rfl, onGrid_zero 18⟩
  · rename_i p _
    have husd : 0 ≤ bcmul c.xchainAmount p.xchainUsdPrice 18 :=
      format_nonneg _ (mul_nonneg h.le p.xchain_pos.le)
    show 0 ≤ bcdiv _ _ _ ∧ OnGrid 18 (bcdiv _ _ _)
    unfold bcdiv
    rw [if_neg p.coin_pos.ne']
    exact ⟨format_nonneg _ (div_nonneg husd p.coin_pos.le), onGrid_format _ _⟩

section
variable (t : Tolerance)

/-- **What one command does to the ledger**: nothing, or it pays and is within what is left. It then
draws its expected fee, or all that is left. -/
theorem validate_cases (c : Command) (h : Pool paid consumed) :
    ((validateNativeCoinFee t (some paid) (some consumed) c).2 = some consumed ∧
      ∀ a e n, (validateNativeCoinFee t (some paid) (some consumed) c).1 ≠ .paid a e n) ∨
    consumed < paid ∧ (c.band t).minAcceptable ≤ paid - consumed ∧ ∃ amount round,
      validateNativeCoinFee t (some paid) (some consumed) c =
        (.paid amount (format (c.band t).expectedNative 8) round, some (consumed + amount)) ∧
      Pool paid (consumed + amount) ∧
      (Draw.Full t ⟨c, amount, format (c.band t).expectedNative 8⟩ ∨ consumed + amount = paid) := by
  unfold validateNativeCoinFee
  dsimp only [Option.elim, Option.isSome]
  rw [h.available]
  split_ifs with hpaid hfree hempty
  · exact .inl ⟨rfl, by simp⟩
  · exact .inl ⟨rfl, by simp⟩
  · exact .inl ⟨rfl, by simp⟩
  · cases hprices : c.prices with
    | error e => exact .inl ⟨rfl, by simp⟩
    | ok p =>
      have hband : computeNativeFeeBand c.xchainAmount p.xchainUsdPrice p.coinUsdPrice t = c.band t := by
        simp [Command.band, hprices]
      have hleft : 0 < paid - consumed := by simpa using hempty
      obtain ⟨he0, he⟩ := expectedNative_spec (not_le.mp hfree)
      have hgrid : OnGrid 8 (paid - consumed) := h.fits.1.sub h.grid
      dsimp only
      rw [hband, drawNativeFeeOutput]
      split_ifs with hmin hshort
      · exact .inl ⟨rfl, by simp⟩
      · obtain ⟨hdraw, hpool, -⟩ := h.draw hleft.le (hgrid.mono (by norm_num)) le_rfl
        have hall : format (paid - consumed) 8 = paid - consumed := by
          refine format_of_onGrid hgrid (by norm_num) le_rfl ?_
          rw [abs_of_pos hleft]
          linarith [h.nonneg, (le_abs_self _).trans_lt h.fits.2]
        exact .inr ⟨by linarith, not_lt.mp hmin, _, _, congrArg (fun x => (_, some x)) hdraw, hpool,
          .inr (by rw [hall]; ring)⟩
      · obtain ⟨hdraw, hpool, hnear⟩ := h.draw he0 he (not_lt.mp hshort)
        exact .inr ⟨by linarith, not_lt.mp hmin, _, _, congrArg (fun x => (_, some x)) hdraw, hpool,
          .inl ⟨rfl, hnear⟩⟩

theorem draws_drained (h : Pool paid paid) (cs : List Command) : draws t paid paid cs = [] := by
  induction cs with
  | nil => rfl
  | cons c cs ih =>
    rcases validate_cases t c h with ⟨hledger, hno⟩ | ⟨hlt, -⟩
    · unfold draws
      dsimp only
      rw [hledger]
      split
      · exact absurd ‹_› (hno _ _ _)
      · exact ih
    · exact absurd hlt (lt_irrefl _)

/-- The draws take no more than is left, and all but the last are expected fees in full. -/
theorem draws_spec (h : Pool paid consumed) (cs : List Command) :
    ((draws t paid consumed cs).map (·.nativeCoinAmount)).sum ≤ paid - consumed ∧
    (draws t paid consumed cs = [] ∨ ∃ init last, draws t paid consumed cs = init ++ [last] ∧
      (∀ d ∈ init, d.Full t) ∧
      (init.map (·.expectedAmount)).sum + (last.command.band t).minAcceptable ≤ paid - consumed) := by
  induction cs generalizing consumed with
  | nil => exact ⟨by simpa [draws] using h.le, .inl rfl⟩
  | cons c cs ih =>
    rcases validate_cases t c h with ⟨hledger, hno⟩ | ⟨-, hmin, amount, round, hv, hpool, hdrawn⟩
    · have heq : draws t paid consumed (c :: cs) = draws t paid consumed cs := by
        conv_lhs => unfold draws
        dsimp only
        rw [hledger]
        split
        · exact absurd ‹_› (hno _ _ _)
        · rfl
      rw [heq]
      exact ih h
    · have heq : draws t paid consumed (c :: cs) =
          ⟨c, amount, format (c.band t).expectedNative 8⟩ :: draws t paid (consumed + amount) cs := by
        conv_lhs => unfold draws
        rw [hv]
        rfl
      obtain ⟨hsum, hrest⟩ := ih hpool
      rw [heq]
      refine ⟨by simp; linarith, .inr ?_⟩
      rcases hdrawn with hfull | hall
      · rcases hrest with hnil | ⟨init, last, hlast, hinit, hle⟩
        · exact ⟨[], _, by rw [hnil]; rfl, by simp, by simpa using hmin⟩
        · refine ⟨_ :: init, last, by rw [hlast]; rfl, forall_mem_cons.mpr ⟨hfull, hinit⟩, ?_⟩
          have heq : amount = format (c.band t).expectedNative 8 := hfull.full
          simp
          linarith
      · rw [hall] at hpool ⊢
        exact ⟨[], _, by rw [draws_drained t hpool]; rfl, by simp, by simpa using hmin⟩

end

/-- Half a unit of the eighth decimal a draw. -/
theorem sum_expectedNative_le {ds : List Draw} (h : ∀ d ∈ ds, d.Full t) :
    (ds.map fun d => (d.command.band t).expectedNative).sum ≤
      (ds.map (·.expectedAmount)).sum + ds.length * (1 / 10 ^ 8 / 2) := by
  induction ds with
  | nil => simp
  | cons d ds ih =>
    have hd := (abs_le.mp (h d mem_cons_self).near).1
    have hds := ih fun d' hd' => h d' (mem_cons_of_mem d hd')
    simp only [map_cons, sum_cons, length_cons, Nat.cast_add, Nat.cast_one]
    linarith

/-- A command whose fee is `amount` of the coin. -/
def command (amount : ℚ) : Command := ⟨amount, .ok ⟨1, 1, 0, one_pos, one_pos⟩⟩

/-- 5% short is accepted. -/
def tolerance : Tolerance := ⟨95 / 100, 11 / 10⟩

/-- Three fees out of 2.96 of the coin: the third is drawn short, and a fourth is refused. -/
def three : List Draw := draws tolerance (74 / 25) 0 [command 1, command 1, command 1, command 1]

/-- Ten fees of 1.4 units of the eighth decimal, drawn from an output of 10 units. -/
def small : List Draw := draws tolerance (1 / 10 ^ 7) 0 (replicate 10 (command (14 / 10 ^ 9)))

end XChainIndexer.NativeFee
