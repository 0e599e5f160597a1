import XChainIndexer.Bcmath

/-! # The staking tables

The rows that hold stake: `stakes` and `contract_stakes`, `unstakes` and `contract_unstakes`,
`delegations` and `contract_delegations`. A table of capability stakes and its contract twin are one
list here, and the slot of a row says which of the two it is in.

A signing key is the number that its 64 hex digits spell. The texts have one length, so the order of
the texts, which the queries sort by, is that of the numbers. A source is its `source_id`. -/

namespace XChainIndexer.Staking.Tables

open Lib.Decimal

/-- What is staked for: the capabilities of a validator, in GAS, or a contract, in a tick. -/
inductive Slot
  | capability
  | contract (target tick : ℕ)
deriving DecidableEq

/-- A row of `stakes` or `contract_stakes` whose status is `valid`. -/
structure Stake where
  index : ℕ
  source : ℕ
  key : ℕ
  slot : Slot
  amount : ℚ
  activation : ℕ
  deactivation : Option ℕ
  block : ℕ
deriving DecidableEq

inductive Status
  | valid
  | pending
  | completed
  | invalid
deriving DecidableEq

/-- A row of `unstakes` or `contract_unstakes`. -/
structure Unstake where
  index : ℕ
  source : ℕ
  key : ℕ
  slot : Slot
  amount : ℚ
  cooldownEnd : ℕ
  status : Status
  block : ℕ
deriving DecidableEq

/-- A row of `delegations` or `contract_delegations` whose status is `valid`. -/
structure Delegation where
  index : ℕ
  source : ℕ
  key : ℕ
  slot : Slot
  activation : ℕ
  deactivation : Option ℕ
  block : ℕ
deriving DecidableEq

/-- `CAST(amount AS DECIMAL(30,8))`. -/
def castAmount (amount : ℚ) : ℚ := toFixed 8 amount

theorem onGrid_castAmount (amount : ℚ) : OnGrid 8 (castAmount amount) := onGrid_toFixed 8 amount

theorem castAmount_of_onGrid {amount : ℚ} (h : OnGrid 8 amount) : castAmount amount = amount :=
  toFixed_of_onGrid h

end XChainIndexer.Staking.Tables
