import XChainIndexer.Tokens.Decimals
import XChainIndexer.Tokens.Locks
import XChainIndexer.Tokens.Supply

/-! # The caps of a token

Main result: `caps_hold`. On runs that keep the decimals of the tick steady the reads of the supply are
exact; what an address has minted may outgrow the arithmetic, and is then read as a number that no cap
reaches (`Sums`). Where `DECIMALS` goes down while nothing is minted, the sum over the mints is rounded
to the decimals of the token row (`address_cap_passed`). -/

namespace XChainIndexer.Tokens.Caps

open IndexTables Lib.Decimal Lib.Run Bcmath List Lib.Accounts Tokens.Numerals Tokens.Issues
open Tokens.Books Tokens.Decimals Tokens.Supply

variable {js : Js}

/-- What the addresses hold together. -/
def supply (s : State) : ℚ := total (moves s.ledger)

/-- The number of a field in effect, zero if it was never set. -/
def effective (js : Js) (rows : List Row) (f : Field) : ℚ := amount js ((foldRows js rows).field f)

def minted (js : Js) (s : State) (source : Text) : ℚ :=
  ((s.mints.filter fun r => r.source = source).map fun r => amount js r.amount).sum

/-! ### Exact reads -/

/-- An amount of the tick's grid that is not negative. -/
structure Amount (n : ℕ) (x : ℚ) : Prop where
  fits : Fits n x
  nonneg : 0 ≤ x

variable {n : ℕ} {x : ℚ}

theorem Amount.mono {m : ℕ} (h : Amount n x) (hnm : n ≤ m) : Amount m x :=
  ⟨h.fits.mono hnm, h.nonneg⟩

theorem amount_zero (n : ℕ) : Amount n 0 := ⟨⟨onGrid_zero n, by norm_num⟩, le_rfl⟩

theorem Amount.lt (h : Amount n x) : x < 10 ^ 42 := (abs_lt.mp h.fits.2).2

variable {scale : ℕ}

theorem Amount.bcadd_zero (h : Amount n x) (hn : n ≤ 18) (hs : n ≤ scale) : bcadd x 0 scale = x :=
  Bcmath.bcadd_zero h.fits hn hs

theorem Amount.bcadd {y : ℚ} (hx : Amount n x) (hy : Amount n y) (hn : n ≤ 18)
    (hs : n ≤ scale) : bcadd x y scale = x + y := by
  have hlx := hx.lt
  have hly := hy.lt
  refine format_of_onGrid (hx.fits.1.add hy.fits.1) hn hs ?_
  rw [abs_of_nonneg (add_nonneg hx.nonneg hy.nonneg)]
  linarith

theorem amount_maxTokenSupply (n : ℕ) : Amount n maxTokenSupply := by
  refine ⟨⟨onGrid_iff.mpr ⟨10 ^ 21 * 10 ^ n, ?_⟩, by norm_num [maxTokenSupply]⟩, by norm_num [maxTokenSupply]⟩
  rw [maxTokenSupply]
  norm_num

/-- The books of a tick in its range. -/
structure Ranged (n : ℕ) (l : List (Entry Text)) : Prop extends Solvent n l where
  le_max : total (moves l) ≤ maxTokenSupply

variable {l : List (Entry Text)}

theorem Ranged.amount (h : Ranged n l) : Amount n (total (moves l)) := by
  have h0 := total_nonneg h.nonneg
  refine ⟨⟨onGrid_total h.grid, ?_⟩, h0⟩
  have hle := h.le_max
  rw [abs_of_nonneg h0]
  norm_num [maxTokenSupply] at hle ⊢
  linarith

theorem Ranged.held_lt (h : Ranged n l) (a : Text) : held (moves l) a < 10 ^ 42 :=
  (held_le_total h.nonneg a).trans_lt h.amount.lt

variable {s : State}

theorem getTokenSupply_eq (hfold : FoldTo js s.token.rows n) (h : Ranged n s.ledger) :
    getTokenSupply s = supply s := by
  have hlt : total (moves s.ledger) < 10 ^ 46 := h.amount.lt.trans (by norm_num)
  rw [getTokenSupply, hfold.precision, netted_eq hfold.le h.grid h.amount.nonneg hlt hfold.le]
  exact h.amount.bcadd_zero hfold.le le_rfl

variable {rows : List Row}

theorem written_eq (hfold : FoldTo js rows n) (b : Block) (hx : Amount n x) : written b rows x = x := by
  refine hx.bcadd_zero hfold.le ?_
  rw [hfold.precision]
  split_ifs
  · exact hfold.le
  · exact le_rfl

/-! ### New supply -/

section
variable (source : Text) (destination : Option Text)

theorem total_mintedRows (x : ℚ) : total (moves (mintedRows source destination x)) = x := by
  unfold mintedRows
  split <;> simp [moves, Entry.move, total]

theorem held_mintedRows_nonneg (hx : 0 ≤ x) (a : Text) :
    0 ≤ held (moves (mintedRows source destination x)) a := by
  unfold mintedRows
  split
  · simp only [moves, Entry.move, map_cons, map_nil, held_cons, held_nil]
    split_ifs <;> simp_all
  · simp only [moves, Entry.move, map_cons, map_nil, held_cons, held_nil]
    split_ifs <;> simp_all

end

theorem Ranged.mintedRows (h : Ranged n l) (source : Text) (destination : Option Text)
    (hx : Amount n x) (hle : total (moves l) + x ≤ maxTokenSupply) :
    Ranged n (l ++ mintedRows source destination x) := by
  refine ⟨⟨?_, fun a => ?_⟩, ?_⟩
  · rw [forall_mem_append]
    refine ⟨h.grid, ?_⟩
    unfold Supply.mintedRows
    split <;> simp [hx.fits.1]
  · rw [moves_append, held_append]
    exact add_nonneg (h.nonneg a) (held_mintedRows_nonneg source destination hx.nonneg a)
  · rw [moves_append, total_append, total_mintedRows]
    exact hle

/-! ### The invariant -/

/-- The fields that cap something. -/
def IsCap (f : Field) : Prop := f = .maxSupply ∨ f = .mintAddressMax

structure Good (js : Js) (s : State) (n : ℕ) : Prop where
  agrees : Agrees js s.token n
  ranged : Ranged n s.ledger
  le_cap : 0 < effective js s.token.rows .maxSupply → supply s ≤ effective js s.token.rows .maxSupply
  caps : ∀ f, IsCap f → Amount n (effective js s.token.rows f)
  mints : ∀ r ∈ s.mints, Amount n (amount js r.amount)

theorem good_init : Good js init 0 where
  agrees := ⟨foldTo_nil, rfl, fun _ => rfl⟩
  ranged := ⟨⟨nofun, fun _ => le_rfl⟩, by norm_num [init, moves, maxTokenSupply]⟩
  le_cap h := absurd h (lt_irrefl _)
  caps _ _ := amount_zero 0
  mints := nofun

/-! ### MINT -/

section
variable {t : Option Text} (h : ∀ u, t = some u → isValidAmountFormat js true (some (n : ℤ)) u)
include h

theorem filter_isNumeric : t.filter js.isNumeric = t := by
  cases t with
  | none => rfl
  | some u => simp [isNumeric_of_isValidAmountFormat (h u rfl)]

theorem amount_of_format : Amount n (amount js t) := by
  cases t with
  | none => exact amount_zero n
  | some u =>
    obtain ⟨hfits, hnonneg⟩ := fits_of_isValidAmountFormat (h u rfl)
    exact ⟨hfits, hnonneg⟩

end

/-- The cap gates are active, and so is the rule that an amount is a number of the ledger. -/
structure Active (g : Gates) : Prop where
  amountRepresentability : g.amountRepresentability = true
  issueMintSupplyCumulativeCap : g.issueMintSupplyCumulativeCap = true
  tokenSupplyRepresentation : g.tokenSupplyRepresentation = true

/-- What an accepted MINT has passed. -/
structure Accepted (js : Js) (s : State) (n : ℕ) (m : Mint) : Prop where
  format : ∀ t, m.amount = some t → isValidAmountFormat js true (some (n : ℤ)) t = true
  le_cap : 0 < effective js s.token.rows .maxSupply →
    bcadd (getTokenSupply s) (amount js m.amount) n ≤ bcadd (effective js s.token.rows .maxSupply) 0 n
  le_max : bcadd (getTokenSupply s) (amount js m.amount) n ≤ bcadd maxTokenSupply 0 n
  le_addressMax : 0 < effective js s.token.rows .mintAddressMax →
    bcadd (getSelfMintedAmount js s m.source) (amount js m.amount) n ≤
      effective js s.token.rows .mintAddressMax

variable {m : Mint} {g : Gates}

theorem rows_ne_of_verdict (hv : mintVerdict js g s m = none) : s.token.rows ≠ [] := by
  intro hrows
  have hnone : getTokenInfo js s.token.rows = none := by rw [hrows]; rfl
  have := firstError_eq_none.mp hv ⟨true, "invalid: TICK (unknown)"⟩ (by simp [mintChecks, hnone])
  cases this

theorem accepted_of_verdict (h : Agrees js s.token n) (hg : Active g)
    (hv : mintVerdict js g s m = none) : Accepted js s n m := by
  have hchecks := firstError_eq_none.mp hv
  have hrows := rows_ne_of_verdict hv
  have hfold : (foldRows js s.token.rows).decimals = some (n : ℤ) := by rw [h.fold, if_neg hrows]
  rw [getTokenInfo_of_ne hrows] at hchecks
  simp only [mintChecks, hfold, Option.getD_some, Int.toNat_natCast, forall_mem_append,
    forall_mem_cons, formatCheck, hg.amountRepresentability, hg.tokenSupplyRepresentation] at hchecks
  obtain ⟨-, ⟨⟨⟨⟨⟨-, hformat, -⟩, -⟩, -, hcap, hmax, -⟩, -⟩, haddress, -⟩, -⟩ := hchecks
  refine ⟨fun t ht => ?_, fun hpos => ?_, ?_, fun hpos => ?_⟩
  · simpa [ht] using hformat
  · have hcapped : decide (amount js ((foldRows js s.token.rows).field .maxSupply) ≤ 0) = false := by
      simpa [effective] using hpos
    simpa [effective, hcapped] using hcap
  · simpa using hmax
  · have hpos' : decide (0 < amount js ((foldRows js s.token.rows).field .mintAddressMax)) := by
      simpa [effective] using hpos
    simpa [effective, hpos'] using haddress

/-- What a source has minted is read exactly or as a number past every cap. -/
theorem Good.sums_minted (h : Good js s n) (hrows : s.token.rows ≠ []) (source : Text) :
    Sums (getSelfMintedAmount js s source) (minted js s source) ∧
      OnGrid n (minted js s source) ∧ 0 ≤ minted js s source := by
  have hscale : (s.token.decimals.getD 0).toNat = n := by
    rw [h.agrees.token, if_neg hrows]
    simp
  have hmints : ∀ x ∈ (s.mints.filter fun r => r.source = source).map fun r => amount js r.amount,
      OnGrid n x ∧ 0 ≤ x := by
    rw [forall_mem_map]
    intro r hr
    have hamount := h.mints r (mem_of_mem_filter hr)
    exact ⟨hamount.fits.1, hamount.nonneg⟩
  have hsums := sums_foldl h.agrees.le le_rfl hmints (.inl rfl : Sums 0 0) (onGrid_zero n) le_rfl
  rw [zero_add, foldl_map] at hsums
  rw [getSelfMintedAmount, hscale]
  exact ⟨hsums, onGrid_sum fun x hx => (hmints x hx).1, sum_nonneg fun x hx => (hmints x hx).2⟩

theorem Good.mint_le (h : Good js s n) (ha : Accepted js s n m) (hrows : s.token.rows ≠ []) :
    Amount n (amount js m.amount) ∧ supply s + amount js m.amount ≤ maxTokenSupply ∧
      (0 < effective js s.token.rows .maxSupply →
        supply s + amount js m.amount ≤ effective js s.token.rows .maxSupply) ∧
      (0 < effective js s.token.rows .mintAddressMax →
        minted js s m.source + amount js m.amount ≤ effective js s.token.rows .mintAddressMax) := by
  have hn := h.agrees.le
  have hx := amount_of_format ha.format
  have hread := getTokenSupply_eq h.agrees.toFoldTo h.ranged
  have hadd : bcadd (getTokenSupply s) (amount js m.amount) n = supply s + amount js m.amount := by
    rw [hread]
    exact h.ranged.amount.bcadd hx hn le_rfl
  refine ⟨hx, ?_, fun hpos => ?_, fun hpos => ?_⟩
  · have hle := ha.le_max
    rwa [hadd, (amount_maxTokenSupply n).bcadd_zero hn le_rfl] at hle
  · have hle := ha.le_cap hpos
    rwa [hadd, (h.caps .maxSupply (.inl rfl)).bcadd_zero hn le_rfl] at hle
  · obtain ⟨hsums, hgrid, hnonneg⟩ := h.sums_minted hrows m.source
    have hle := ha.le_addressMax hpos
    rw [(hsums.bcadd hn le_rfl hgrid hnonneg hx.fits.1 hx.nonneg).eq_of_le hle
      (h.caps .mintAddressMax (.inr rfl)).lt] at hle
    exact hle

variable {b : Block}

theorem Good.mint (h : Good js s n) (hg : Active b.gates) (m : Mint) : Good js (mint js b s m) n := by
  cases hv : mintVerdict js b.gates s m with
  | some error => simpa only [Supply.mint, hv] using h
  | none =>
    have ha := accepted_of_verdict h.agrees hg hv
    obtain ⟨hx, hmax, hcap, -⟩ := h.mint_le ha (rows_ne_of_verdict hv)
    have hledger : Ranged n (Supply.mint js b s m).ledger ∧
        supply (Supply.mint js b s m) = supply s + amount js m.amount := by
      cases hm : m.amount with
      | none => simpa [Supply.mint, hv, hm, supply, amount] using h.ranged
      | some t =>
        rw [hm] at hx hmax
        simp only [Supply.mint, hv, hm, supply]
        rw [written_eq h.agrees.toFoldTo b (x := js.bcnum t) hx]
        refine ⟨h.ranged.mintedRows m.source m.destination hx hmax, ?_⟩
        rw [moves_append, total_append, total_mintedRows]
        rfl
    have htoken : (Supply.mint js b s m).token = s.token := by simp [Supply.mint, hv]
    have hmints : (Supply.mint js b s m).mints = s.mints ++ [⟨m.source, m.amount⟩] := by
      simp [Supply.mint, hv, filter_isNumeric ha.format]
    refine ⟨htoken ▸ h.agrees, hledger.1, ?_, htoken ▸ h.caps, ?_⟩
    · rw [htoken, hledger.2]
      exact hcap
    · rw [hmints, forall_mem_append]
      exact ⟨h.mints, by simpa using hx⟩

/-! ### ISSUE -/

/-- What a valid ISSUE has passed; `read` is the supply its rules read. -/
structure Passed (js : Js) (info : Option Info) (read : ℚ) (i : Issue) : Prop where
  mintSupply : ∀ t, i.mintSupply = some t →
    isValidAmountFormat js true (tickDecimals js info i) t = true
  field : ∀ f, IsCap f → ∀ t, i.field f = some t →
    isValidAmountFormat js true (tickDecimals js info i) t = true
  le_cap : 0 < amount js (merged info i .maxSupply) → read ≤ amount js (merged info i .maxSupply)
  mint_le_cap : 0 < amount js (merged info i .maxSupply) → 0 < amount js i.mintSupply →
    bcadd read (amount js i.mintSupply) ((mergedDecimals info i).scale js) ≤
      bcadd (amount js (merged info i .maxSupply)) 0 ((mergedDecimals info i).scale js)
  mint_le_max : 0 < amount js i.mintSupply →
    bcadd read (amount js i.mintSupply) ((mergedDecimals info i).scale js) ≤
      bcadd maxTokenSupply 0 ((mergedDecimals info i).scale js)

variable {i : Issue}

theorem passed_of_verdict (hg : Active g) {info : Option Info} {read : ℚ}
    (hv : verdict js g info read i = none) : Passed js info read i := by
  have hchecks := firstError_eq_none.mp hv
  simp only [checks, forall_mem_append] at hchecks
  obtain ⟨⟨⟨⟨⟨⟨⟨-, hformats⟩, -⟩, hsupply⟩, -⟩, hcaps⟩, -⟩, -⟩ := hchecks
  simp only [validateFieldFormats, forall_mem_append, forall_mem_cons, formatCheck,
    hg.amountRepresentability] at hformats
  simp only [validateSupplyFields, forall_mem_cons] at hsupply
  simp only [validateMintSupplyCaps, forall_mem_cons, hg.issueMintSupplyCumulativeCap,
    hg.tokenSupplyRepresentation] at hcaps
  obtain ⟨⟨⟨hmaxSupply, -, hmintSupply, -, haddressMax, -⟩, -⟩, -⟩ := hformats
  obtain ⟨-, hle, -⟩ := hsupply
  obtain ⟨-, hcumulative, -, -, hmax, -⟩ := hcaps
  refine ⟨fun t ht => ?_, fun f hf t ht => ?_, fun hpos => ?_, fun hpos hmint => ?_, fun hmint => ?_⟩
  · simpa [ht] using hmintSupply
  · rcases hf with rfl | rfl
    · simpa [ht] using hmaxSupply
    · simpa [ht] using haddressMax
  · simpa [hpos] using hle
  · have huncapped : decide (amount js (merged info i .maxSupply) ≤ 0) = false := by simpa using hpos
    simpa [huncapped, hmint] using hcumulative
  · simpa [hmint] using hmax

/-- The caps in effect after a valid ISSUE are those that its rules compared with. -/
theorem effective_issue {f : Field} (hf : IsCap f) {decimals : Option ℤ}
    (hformat : ∀ t, i.field f = some t → isValidAmountFormat js true decimals t) :
    effective js (rows ++ [normalizeDataValues js i]) f = amount js (merged (getTokenInfo js rows) i f) := by
  have hstored : (normalizeDataValues js i).field f = i.field f := by
    cases hi : i.field f with
    | none => simp [normalizeDataValues, hi]
    | some t =>
      have hnum := isNumeric_of_isValidAmountFormat (hformat t hi)
      rcases hf with rfl | rfl <;> simp [normalizeDataValues, hi, storedField, hnum]
  rw [effective, foldRows_append, foldRow]
  dsimp only
  rw [hstored]
  by_cases hrows : rows = []
  · subst hrows
    rfl
  · rw [getTokenInfo_of_ne hrows]
    rfl

variable {s' : State}

theorem Good.issue (h : Good js s n) (hg : Active b.gates) (hok : Steady js s.token i)
    (hs : issue js b s i = some s') : ∃ m, Good js s' m := by
  cases hv : verdict js b.gates (getTokenInfo js s.token.rows) (getTokenSupply s) i with
  | some error =>
    simp only [Supply.issue, hv, Option.some.injEq] at hs
    exact ⟨n, hs ▸ h⟩
  | none =>
    simp only [Supply.issue, hv, Option.map_eq_some_iff] at hs
    obtain ⟨token, htoken, rfl⟩ := hs
    obtain ⟨d, hd, rfl⟩ := issueToken_of_valid hv htoken
    obtain ⟨m, hnm, hnamed, hscale, hm⟩ := h.agrees.issue hok hv hd
    have hp := passed_of_verdict hg hv
    have hread := getTokenSupply_eq h.agrees.toFoldTo h.ranged
    have hwire : ∀ t, isValidAmountFormat js true
        (tickDecimals js (getTokenInfo js s.token.rows) i) t → Amount m (js.bcnum t) := by
      intro t ht
      obtain ⟨hfits, hnonneg⟩ := h.agrees.fits_wire hnm hm.le hnamed ht
      exact ⟨hfits, hnonneg⟩
    have hcaps : ∀ f, IsCap f → Amount m (amount js (merged (getTokenInfo js s.token.rows) i f)) := by
      intro f hf
      cases hi : i.field f with
      | some t =>
        simp only [merged, hi, Option.some_or]
        exact hwire t (hp.field f hf t hi)
      | none =>
        by_cases hrows : s.token.rows = []
        · simp only [merged, hi, hrows, getTokenInfo]
          exact amount_zero m
        · simp only [merged, hi, getTokenInfo_of_ne hrows]
          exact (h.caps f hf).mono hnm
    have hranged : Ranged m s.ledger :=
      ⟨⟨fun e he => (h.ranged.grid e he).mono hnm, h.ranged.nonneg⟩, h.ranged.le_max⟩
    have heffective : ∀ f, IsCap f → effective js (s.token.rows ++ [normalizeDataValues js i]) f =
          amount js (merged (getTokenInfo js s.token.rows) i f) :=
      fun f hf => effective_issue hf (hp.field f hf)
    have hx : Amount m (amount js i.mintSupply) := by
      cases hi : i.mintSupply with
      | none => exact amount_zero m
      | some t => exact hwire t (hp.mintSupply t hi)
    have hadd : bcadd (getTokenSupply s) (amount js i.mintSupply)
        ((mergedDecimals (getTokenInfo js s.token.rows) i).scale js) = supply s + amount js i.mintSupply := by
      rw [hscale, hread]
      exact hranged.amount.bcadd hx hm.le le_rfl
    have hmax : supply s + amount js i.mintSupply ≤ maxTokenSupply := by
      rcases hx.nonneg.eq_or_lt with hzero | hpos
      · rw [← hzero, add_zero]
        exact h.ranged.le_max
      · have hle := hp.mint_le_max hpos
        rwa [hadd, hscale, (amount_maxTokenSupply m).bcadd_zero hm.le le_rfl] at hle
    have hcap : 0 < amount js (merged (getTokenInfo js s.token.rows) i .maxSupply) →
        supply s + amount js i.mintSupply ≤
          amount js (merged (getTokenInfo js s.token.rows) i .maxSupply) := by
      intro hpos
      rcases hx.nonneg.eq_or_lt with hzero | hmint
      · rw [← hzero, add_zero, ← hread]
        exact hp.le_cap hpos
      · have hle := hp.mint_le_cap hpos hmint
        rwa [hadd, hscale, (hcaps .maxSupply (.inl rfl)).bcadd_zero hm.le le_rfl] at hle
    refine ⟨m, hm, ?_, ?_, fun f hf => ?_, fun r hr => (h.mints r hr).mono hnm⟩
    · cases hi : i.mintSupply with
      | none => exact hranged
      | some t =>
        rw [hi] at hx hmax
        dsimp only
        rw [written_eq hm.toFoldTo b (x := js.bcnum t) hx]
        exact hranged.mintedRows i.source i.transferSupply hx hmax
    · rw [heffective .maxSupply (.inl rfl)]
      intro hpos
      refine le_of_eq_of_le ?_ (hcap hpos)
      cases hi : i.mintSupply with
      | none => simp [supply, amount]
      | some t =>
        rw [hi] at hx
        simp only [supply]
        rw [written_eq hm.toFoldTo b (x := js.bcnum t) hx, moves_append, total_append, total_mintedRows]
        rfl
    · rw [heffective f hf]
      exact hcaps f hf

/-! ### DESTROY -/

theorem foldl_bcadd_amount {ts : List Text} (h : ∀ t ∈ ts, Amount n (js.bcnum t))
    (hx : OnGrid n x ∧ 0 ≤ x) : OnGrid n (ts.foldl (fun sum t => bcadd (js.bcnum t) sum n) x) ∧
      0 ≤ ts.foldl (fun sum t => bcadd (js.bcnum t) sum n) x := by
  induction ts generalizing x with
  | nil => exact hx
  | cons t ts ih =>
    refine ih (fun u hu => h u (by simp [hu])) ⟨onGrid_format _ n, format_nonneg n ?_⟩
    exact add_nonneg (h t (by simp)).nonneg hx.2

theorem amount_legAmount (hg : Active g) {amounts : List Text} (h : legFormat js g (some (n : ℤ)) amounts) :
    Amount n (legAmount js (some (n : ℤ)) amounts) := by
  match amounts with
  | [] => exact amount_zero n
  | [t] =>
    rw [legFormat, hg.amountRepresentability] at h
    obtain ⟨hfits, hnonneg⟩ := fits_of_isValidAmountFormat h
    exact ⟨hfits, hnonneg⟩
  | t :: u :: ts =>
    simp only [legFormat, hg.amountRepresentability, Bool.and_eq_true, all_eq_true,
      Bool.not_true, Bool.false_or, decide_eq_true_eq] at h
    have hall : ∀ v ∈ t :: u :: ts, Amount n (js.bcnum v) := by
      intro v hv
      obtain ⟨hfits, hnonneg⟩ := fits_of_isValidAmountMergeFormat (h.1 v hv)
      exact ⟨hfits, hnonneg⟩
    have ht := hall t (by simp)
    have hrest : ∀ v ∈ u :: ts, Amount n (js.bcnum v) := fun v hv => hall v (mem_cons_of_mem t hv)
    have hsum : OnGrid n (legAmount js (some (n : ℤ)) (t :: u :: ts)) ∧
        0 ≤ legAmount js (some (n : ℤ)) (t :: u :: ts) :=
      foldl_bcadd_amount hrest ⟨ht.fits.1, ht.nonneg⟩
    refine ⟨⟨hsum.1, ?_⟩, hsum.2⟩
    rw [abs_of_nonneg hsum.2]
    exact h.2

/-- While the legs of a DESTROY are carried out: the balance they share is covered by the books. -/
structure Burning (n : ℕ) (source : Text) (before : ℚ) (s : Burn) : Prop where
  ranged : Ranged n s.ledger
  le_before : total (moves s.ledger) ≤ before
  balance : Amount n s.balance
  covered : s.balance ≤ held (moves s.ledger) source

theorem Burning.leg (hfold : FoldTo js rows n) (hg : Active b.gates) {source : Text} {before : ℚ}
    {s : Burn} (h : Burning n source before s) (leg : Leg) :
    Burning n source before (burnLeg js b rows source s leg) := by
  cases hv : firstError (legChecks js b.gates (getTokenInfo js rows) s.balance leg) with
  | some error => simpa only [burnLeg, hv] using h
  | none =>
    have hchecks := firstError_eq_none.mp hv
    have hrows : rows ≠ [] := by
      rintro rfl
      have := hchecks ⟨true, "invalid: TICK (unknown)"⟩ (by simp [legChecks, getTokenInfo])
      cases this
    have hdecimals : (foldRows js rows).decimals = some (n : ℤ) := by rw [hfold.fold, if_neg hrows]
    rw [getTokenInfo_of_ne hrows] at hchecks
    simp only [legChecks, hdecimals, forall_mem_append, forall_mem_cons] at hchecks
    obtain ⟨-, ⟨hformat, hfunds, -⟩, -⟩ := hchecks
    have hx : Amount n (legAmount js (some (n : ℤ)) leg.amounts) :=
      amount_legAmount hg (by simpa using hformat)
    have hle : legAmount js (some (n : ℤ)) leg.amounts ≤ s.balance := by simpa using hfunds
    simp only [burnLeg, hv, hdecimals, written_eq hfold b hx,
      bcsub_of_fits h.balance.fits hx.fits hfold.le hfold.le]
    set x := legAmount js (some (n : ℤ)) leg.amounts
    have hcovered := h.covered
    have hx0 := hx.nonneg
    have hmove : moves [(⟨false, source, x⟩ : Entry Text)] = [(source, -x)] := rfl
    refine ⟨⟨⟨?_, fun a => ?_⟩, ?_⟩, ?_, ⟨⟨h.balance.fits.1.sub hx.fits.1, ?_⟩, by linarith⟩, ?_⟩
    · rw [forall_mem_append]
      exact ⟨h.ranged.grid, by simpa using hx.fits.1⟩
    · have hold := h.ranged.nonneg a
      rw [moves_append, held_append, hmove, held_cons, held_nil]
      split_ifs with heq
      · subst heq
        linarith
      · linarith
    · have hmax := h.ranged.le_max
      rw [moves_append, total_append, hmove, total_cons, total_nil]
      linarith
    · have hbefore := h.le_before
      rw [moves_append, total_append, hmove, total_cons, total_nil]
      linarith
    · have hlt := h.balance.lt
      rw [abs_of_nonneg (by linarith)]
      linarith
    · rw [moves_append, held_append, hmove, held_cons, held_nil, if_pos rfl]
      linarith

theorem Good.destroy (h : Good js s n) (hg : Active b.gates) (source : Text) (legs : List Leg) :
    Good js (destroy js b s source legs) n := by
  have hread := getAddressBalance_le h.agrees.le h.ranged.toSolvent
    ((h.ranged.held_lt source).trans (by norm_num))
  have hlt := h.ranged.held_lt source
  have hstart : Burning n source (supply s) ⟨s.ledger, getAddressBalance s.ledger source⟩ := by
    refine ⟨h.ranged, le_rfl, ⟨⟨hread.2.1, ?_⟩, hread.2.2⟩, hread.1⟩
    rw [abs_of_nonneg hread.2.2]
    exact hread.1.trans_lt hlt
  have hend : ∀ (legs : List Leg) (burn : Burn), Burning n source (supply s) burn →
      Burning n source (supply s) (legs.foldl (burnLeg js b s.token.rows source) burn) := by
    intro legs
    induction legs with
    | nil => exact fun burn hburn => hburn
    | cons leg legs ih => exact fun burn hburn => ih _ (hburn.leg h.agrees.toFoldTo hg leg)
  have hburned := hend legs _ hstart
  exact ⟨h.agrees, hburned.ranged, fun hpos => hburned.le_before.trans (h.le_cap hpos), h.caps, h.mints⟩

/-! ### Runs -/

/-- The condition on an action: the gates are active, and an ISSUE keeps the decimals steady. -/
def Kept (js : Js) (s : State) : Block × Action → Prop
  | (b, .issue i) => Active b.gates ∧ Steady js s.token i
  | (b, _) => Active b.gates

theorem good_of_reaches (h : Reaches (act js) (Kept js) init s) : ∃ n, Good js s n := by
  have hstep : ∀ (s : State) (e : Block × Action) (s' : State), Kept js s e →
      act js s e = some s' → (∃ n, Good js s n) → ∃ n, Good js s' n := by
    rintro s ⟨b, action⟩ s' hok hs ⟨n, hn⟩
    cases action with
    | issue i => exact hn.issue hok.1 hok.2 hs
    | mint m => exact ⟨n, Option.some.inj hs ▸ hn.mint hok m⟩
    | destroy source legs => exact ⟨n, Option.some.inj hs ▸ hn.destroy hok source legs⟩
  exact h.invariant ⟨0, good_init⟩ hstep

theorem token_reaches {ok : State → Block × Action → Prop} (h : Reaches (act js) ok s s') :
    Reaches (Issues.step js) (fun _ _ => True) s.token s'.token := by
  induction h with
  | init => exact .init
  | @next t t' e _ _ hs ht =>
    obtain ⟨b, action⟩ := e
    cases action with
    | issue i =>
      cases hv : verdict js b.gates (getTokenInfo js t.token.rows) (getTokenSupply t) i with
      | some error =>
        simp only [act, Supply.issue, hv, Option.some.injEq] at hs
        exact hs ▸ ht
      | none =>
        simp only [act, Supply.issue, hv, Option.map_eq_some_iff] at hs
        obtain ⟨token, htoken, rfl⟩ := hs
        exact ht.next (e := ⟨b.gates, getTokenSupply t, i⟩) trivial htoken
    | mint m =>
      have htoken : (Supply.mint js b t m).token = t.token := by
        unfold Supply.mint
        split <;> rfl
      rw [← Option.some.inj hs, htoken]
      exact ht
    | destroy source legs =>
      rw [← Option.some.inj hs]
      exact ht

/-- **The caps hold.** In every state that a run reaches whose actions keep the decimals steady, with
the cap gates active: the supply is read exactly, it is at most `MAX_TOKEN_SUPPLY` and at most a
positive `MAX_SUPPLY`; if the cap is locked it is the cap of every later state, whose supply is at most
that cap; and an accepted mint leaves what its source has minted at most a positive
`MINT_ADDRESS_MAX`. -/
theorem caps_hold (js : Js) (s : State) (h : Reaches (act js) (Kept js) init s) :
    getTokenSupply s = supply s ∧ supply s ≤ maxTokenSupply ∧
    (0 < effective js s.token.rows .maxSupply → supply s ≤ effective js s.token.rows .maxSupply) ∧
    (Locks.WasSet s.token.rows .maxSupply → ∀ s', Reaches (act js) (Kept js) s s' →
      effective js s'.token.rows .maxSupply = effective js s.token.rows .maxSupply ∧
      (0 < effective js s.token.rows .maxSupply →
        supply s' ≤ effective js s.token.rows .maxSupply)) ∧
    ∀ (b : Block) (m : Mint), Active b.gates → mintVerdict js b.gates s m = none →
      0 < effective js s.token.rows .mintAddressMax →
      minted js (mint js b s m) m.source ≤ effective js s.token.rows .mintAddressMax := by
  obtain ⟨n, hn⟩ := good_of_reaches h
  refine ⟨getTokenSupply_eq hn.agrees.toFoldTo hn.ranged, hn.ranged.le_max, hn.le_cap,
    fun hset s' h' => ?_, fun b m hg hv hpos => ?_⟩
  · have hsame : effective js s'.token.rows .maxSupply = effective js s.token.rows .maxSupply := by
      have hfinal := (Locks.lock_is_final (token_reaches h) (token_reaches h') hset).2 .maxSupply rfl
      rw [effective, effective, hfinal]
    obtain ⟨n', hn'⟩ := good_of_reaches (h.trans h')
    rw [← hsame]
    exact ⟨rfl, hn'.le_cap⟩
  · have ha := accepted_of_verdict hn.agrees hg hv
    have hmints : (mint js b s m).mints = s.mints ++ [⟨m.source, m.amount⟩] := by
      simp [mint, hv, filter_isNumeric ha.format]
    have hminted : minted js (mint js b s m) m.source = minted js s m.source + amount js m.amount := by
      simp [minted, hmints]
    rw [hminted]
    exact (hn.mint_le ha (rows_ne_of_verdict hv)).2.2.2 hpos

def block : Block := ⟨Gates.all, true⟩

/-- An ISSUE that names the decimals, and caps by name. -/
def opening (decimals : ℕ) (field : Field → Option Text) (mintSupply : Option Text) : Block × Action :=
  (block, .issue { Issue.bare ['o', 'w', 'n'] with
    decimals := some (numeral decimals), field := field, mintSupply := mintSupply })

/-- The first ISSUE of a tick, with both caps. -/
def openingCapped : Block × Action :=
  opening 8 (fun f => if f = .maxSupply then some (numeral 100) else if f = .mintAddressMax then some ['1']
    else none) (some (numeral 50))

def twoFifths : Mint := ⟨['a'], some ['0', '.', '4'], none, none, none, none, none⟩

def mintTwoFifths : Block × Action := (block, .mint twoFifths)

/-- A mint, a burn, and an ISSUE that locks the cap. -/
def lockingRun : List (Block × Action) :=
  [mintTwoFifths, (block, .destroy ['a'] [⟨[['0', '.', '1']], none, none⟩]),
    (block, .issue { Issue.bare ['o', 'w', 'n'] with
      lock := fun l => if l = .maxSupply then some ['1'] else none })]

theorem caps_hold_locked : ∃ s s', run (act Js.literals) init (openingCapped :: lockingRun) = some s ∧
    act Js.literals s mintTwoFifths = some s' ∧ supply s = 503 / 10 ∧ supply s' = 507 / 10 ∧
    supply s' ≤ effective Js.literals s.token.rows .maxSupply ∧
    minted Js.literals s' ['a'] ≤ effective Js.literals s.token.rows .mintAddressMax := by
  have hg : Active block.gates := ⟨rfl, rfl, rfl⟩
  obtain ⟨s1, h1, hrun⟩ : ∃ s1, act Js.literals init openingCapped = some s1 ∧
      (run (act Js.literals) s1 lockingRun).map (fun s =>
        ((supply s, supply (mint Js.literals block s twoFifths),
            (mintVerdict Js.literals block.gates s twoFifths).isNone),
          effective Js.literals s.token.rows .maxSupply, effective Js.literals s.token.rows .mintAddressMax,
          (foldRows Js.literals s.token.rows).lock .maxSupply)) =
        some ((503 / 10, 507 / 10, true), 100, 1, some ['1']) :=
    Option.bind_eq_some_iff.mp (by decide +kernel)
  obtain ⟨s, hs, hread⟩ := Option.map_eq_some_iff.mp hrun
  simp only [Prod.mk.injEq] at hread
  obtain ⟨⟨hsupply, hsupply', hverdict⟩, hmax, hmint, hlock⟩ := hread
  have hopen : Kept Js.literals init openingCapped :=
    ⟨hg, fun t ht => .inr ⟨8, by decide, (Option.some.inj ht).symm, by decide +kernel⟩⟩
  have hrest : ∀ e ∈ lockingRun, ∀ s, Kept Js.literals s e := by
    simp only [lockingRun, forall_mem_cons]
    exact ⟨fun _ => hg, fun _ => hg, fun _ => ⟨hg, fun _ h => nomatch h⟩, fun _ h => nomatch h⟩
  obtain ⟨-, -, -, hlocked, hcap⟩ :=
    caps_hold Js.literals s ((Reaches.init.next hopen h1).of_run hrest hs)
  have hset : Locks.WasSet s.token.rows .maxSupply := (Locks.foldRows_lock_iff _ _ _).mp hlock
  have hnext := hlocked hset (mint Js.literals block s twoFifths)
    (Reaches.init.next (e := mintTwoFifths) hg rfl)
  refine ⟨s, _, Option.bind_eq_some_iff.mpr ⟨s1, h1, hs⟩, rfl, hsupply, hsupply', hnext.2 ?_,
    hcap block twoFifths hg (Option.isNone_iff_eq_none.mp hverdict) ?_⟩
  · rw [hmax]; norm_num
  · rw [hmint]; norm_num

/-- **An address mints past its cap.** A tick of eight decimals with a `MINT_ADDRESS_MAX` of 1 is issued
again with `DECIMALS` 0 before anything is minted. The amounts of a MINT are still checked against eight
decimals, and the sum over the earlier mints is rounded to none: three mints of 0.4 are accepted. -/
theorem address_cap_passed :
    (run (act Js.literals) init
        [opening 8 (fun f => if f = .mintAddressMax then some ['1'] else none) none,
          opening 0 (fun _ => none) none, mintTwoFifths, mintTwoFifths, mintTwoFifths]).map (fun s =>
        (minted Js.literals s ['a'], effective Js.literals s.token.rows .mintAddressMax, supply s)) =
      some (6 / 5, 1, 6 / 5) := by
  decide +kernel

end XChainIndexer.Tokens.Caps
