import XChainIndexer.Bcmath

/-! # The bounty of a SLASH

A burned bond is divided between the submitter's bounty and the treasury (`actions/slash/bounty.js`): a
percentage of the bond, raised to the floor, lowered to the cap and to the bond itself, in that order.
`bounty_treasury_split`: if the configured floor and cap are amounts of eight decimals and the cap is not
negative, the two parts are amounts of the grid that add up to the bond. The configuration is read as it
is, so a floor between two amounts of the grid leaves parts that do not (`floor_off_grid`). -/

namespace XChainIndexer.Slash.Bounty

open Bcmath Lib.Decimal

/-- The SLASH block of a capability, or `CONFIG_SLASH`; an absent block has nothing set. -/
structure Policy where
  /-- `BOUNTY_BPS`, if it is a finite number. -/
  bountyBps : Option ℚ
  bountyFloor : Option ℚ
  bountyCap : Option ℚ
  treasuryAddress : Option ℕ

structure Split where
  bounty : ℚ
  treasury : ℚ
  treasuryAddr : Option ℕ

/-- The percentage of the bond, for basis points from 0 to 10000. -/
def percentage (total bps : ℚ) : ℚ :=
  let bps := if bps < 0 then 0 else if 10000 < bps then 10000 else bps
  if 0 < bps then bcdiv (bcmul total bps 8) 10000 8 else 0

def raise (floor : Option ℚ) (bounty : ℚ) : ℚ :=
  floor.elim bounty fun floor => if bounty < floor then floor else bounty

def lower (cap : Option ℚ) (bounty : ℚ) : ℚ :=
  cap.elim bounty fun cap => if cap < bounty then cap else bounty

def bountyTreasurySplit (cfg : Policy) (burned : ℚ) : Split :=
  if 0 < burned then
    let bounty := raise cfg.bountyFloor (percentage burned (cfg.bountyBps.getD 0))
    let bounty := lower (some burned) (lower cfg.bountyCap bounty)
    ⟨bounty, bcsub burned bounty 8, cfg.treasuryAddress⟩
  else ⟨0, 0, none⟩

/-- An amount that may be paid: not negative, of eight decimals. -/
def Payable (x : ℚ) : Prop := 0 ≤ x ∧ OnGrid 8 x

theorem payable_zero : Payable 0 := ⟨le_rfl, onGrid_zero 8⟩

theorem payable_percentage {total : ℚ} (h : 0 ≤ total) (bps : ℚ) : Payable (percentage total bps) := by
  unfold percentage
  generalize (if bps < 0 then 0 else if 10000 < bps then 10000 else bps) = b
  dsimp only
  split_ifs with hb
  · rw [bcdiv, if_neg (by norm_num)]
    refine ⟨format_nonneg 8 (div_nonneg ?_ (by norm_num)), onGrid_format _ 8⟩
    exact format_nonneg 8 (mul_nonneg h hb.le)
  · exact payable_zero

/-- A floor below the bounty is not read, so only its grid matters. -/
theorem payable_raise {floor : Option ℚ} {x : ℚ} (hf : ∀ y ∈ floor, OnGrid 8 y) (h : Payable x) :
    Payable (raise floor x) := by
  cases floor with
  | none => exact h
  | some y =>
    show Payable (ite _ _ _)
    split_ifs with hlt
    · exact ⟨h.1.trans hlt.le, hf y rfl⟩
    · exact h

theorem lower_spec {cap : Option ℚ} {x : ℚ} (hc : ∀ y ∈ cap, Payable y) (h : Payable x) :
    Payable (lower cap x) ∧ lower cap x ≤ x ∧ ∀ y ∈ cap, lower cap x ≤ y := by
  cases cap with
  | none => exact ⟨h, le_rfl, nofun⟩
  | some y =>
    show Payable (ite _ _ _) ∧ ite _ _ _ ≤ x ∧ ∀ z ∈ some y, ite _ _ _ ≤ z
    simp only [Option.mem_some_iff, forall_eq']
    split_ifs with hlt
    · exact ⟨hc y rfl, hlt.le, le_rfl⟩
    · exact ⟨h, le_rfl, not_lt.mp hlt⟩

/-- **The bounty and the treasury.** With a floor and a cap of eight decimals, the cap not negative, the
bounty and the treasury's part are amounts of the grid that add up to the bond, and the bounty passes
neither the cap nor the bond. -/
theorem bounty_treasury_split (cfg : Policy) {total : ℚ} (htotal : Fits 8 total) (h0 : 0 ≤ total)
    (hfloor : ∀ floor ∈ cfg.bountyFloor, OnGrid 8 floor)
    (hcap : ∀ cap ∈ cfg.bountyCap, 0 ≤ cap ∧ OnGrid 8 cap) :
    let s := bountyTreasurySplit cfg total
    (0 ≤ s.bounty ∧ OnGrid 8 s.bounty) ∧ (0 ≤ s.treasury ∧ OnGrid 8 s.treasury) ∧
      s.bounty + s.treasury = total ∧ s.bounty ≤ total ∧ ∀ cap ∈ cfg.bountyCap, s.bounty ≤ cap := by
  rcases h0.lt_or_eq with hpos | rfl
  · obtain ⟨hcapped, -, hcap'⟩ := lower_spec hcap (payable_raise hfloor
      (payable_percentage h0 (cfg.bountyBps.getD 0)))
    obtain ⟨hpay, hle, hlast⟩ : Payable (lower (some total) _) ∧ _ :=
      lower_spec (fun _ hy => Option.mem_some_iff.mp hy ▸ ⟨h0, htotal.1⟩) hcapped
    have hbound := hlast total rfl
    rw [bountyTreasurySplit, if_pos hpos]
    dsimp only
    rw [bcsub_of_fits htotal ⟨hpay.2, ?_⟩ (by norm_num) le_rfl]
    · exact ⟨hpay, ⟨sub_nonneg.mpr hbound, htotal.1.sub hpay.2⟩, add_sub_cancel _ _, hbound,
        fun cap hc => hle.trans (hcap' cap hc)⟩
    · rw [abs_of_nonneg hpay.1]
      exact hbound.trans_lt ((le_abs_self total).trans_lt htotal.2)
  · exact ⟨payable_zero, payable_zero, add_zero 0, le_rfl, fun cap hc => (hcap cap hc).1⟩

/-- Five percent, at least 50 and at most 1000: a bond below the floor is paid out whole. -/
theorem bounty_treasury_split_small :
    let s := bountyTreasurySplit ⟨some 500, some 50, some 1000, none⟩ 20
    s.bounty = 20 ∧ s.bounty + s.treasury = 20 := by
  have hbond : Fits 8 20 := by decide +kernel
  have h := bounty_treasury_split ⟨some 500, some 50, some 1000, none⟩ hbond (by norm_num)
    (fun _ h => Option.mem_some_iff.mp h ▸ by decide +kernel)
    fun _ h => Option.mem_some_iff.mp h ▸ by decide +kernel
  exact ⟨by decide +kernel, h.2.2.1⟩

/-- **A floor off the grid.** A floor of `5·10⁻⁹` on a bond of 1 leaves the treasury the whole bond;
and a negative cap is paid as it is. -/
theorem floor_off_grid :
    (let s := bountyTreasurySplit ⟨none, some (5 / 10 ^ 9), none, none⟩ 1
     1 < s.bounty + s.treasury) ∧
    (bountyTreasurySplit ⟨none, none, some (-1), none⟩ 1).bounty < 0 :=
  ⟨by decide +kernel, by decide +kernel⟩

end XChainIndexer.Slash.Bounty
