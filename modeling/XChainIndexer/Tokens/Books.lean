import XChainIndexer.Bcmath
import XChainIndexer.Lib.Accounts

/-! # Sums over the ledger tables

The rows of `credits` and `debits` as one list, an account being whatever the sums are taken by. The
reads of `db/credits/index.js` and `db/database/ledger_checks.js` sum both tables exactly and round
only the difference, so on books that stay in the ledger's range they are exact (`netted_eq`). -/

namespace XChainIndexer.Tokens.Books

open Lib.Decimal Lib.Accounts Bcmath

variable {κ : Type}

/-- A row of `credits` or of `debits`. -/
structure Entry (κ : Type) where
  credit : Bool
  account : κ
  amount : ℚ

/-- What the row adds to its account. -/
def Entry.move (e : Entry κ) : κ × ℚ := (e.account, if e.credit then e.amount else -e.amount)

def moves (l : List (Entry κ)) : List (κ × ℚ) := l.map Entry.move

/-- `SUM(amount)` over one of the tables. -/
def sumOf (credit : Bool) (l : List (Entry κ)) : ℚ :=
  ((l.filter fun e => e.credit = credit).map Entry.amount).sum

@[simp] theorem moves_append (l l' : List (Entry κ)) : moves (l ++ l') = moves l ++ moves l' := by
  simp [moves]

theorem sumOf_sub (l : List (Entry κ)) : sumOf true l - sumOf false l = total (moves l) := by
  induction l with
  | nil => simp [sumOf, moves]
  | cons e l ih =>
    have hc : moves (e :: l) = e.move :: moves l := rfl
    rw [hc, total_cons, ← ih]
    cases hcredit : e.credit <;> simp [sumOf, Entry.move, hcredit] <;> ring

variable {d : ℕ} {l : List (Entry κ)}

theorem onGrid_total (h : ∀ e ∈ l, OnGrid d e.amount) : OnGrid d (total (moves l)) := by
  refine onGrid_sum fun x hx => ?_
  obtain ⟨m, hm, rfl⟩ := List.mem_map.mp hx
  obtain ⟨e, he, rfl⟩ := List.mem_map.mp hm
  unfold Entry.move
  split_ifs
  · exact h e he
  · exact (h e he).neg

theorem netted_eq (hd : d ≤ 18) (h : ∀ e ∈ l, OnGrid d e.amount) (h0 : 0 ≤ total (moves l))
    (hlt : total (moves l) < 10 ^ 46) {scale : ℕ} (hs : d ≤ scale) :
    bcsub (sumOf true l) (sumOf false l) scale = total (moves l) := by
  rw [bcsub, sumOf_sub]
  exact format_of_onGrid (onGrid_total h) hd hs (by rwa [abs_of_nonneg h0])

variable [DecidableEq κ]

def rowsOf (l : List (Entry κ)) (k : κ) : List (Entry κ) := l.filter fun e => e.account = k

/-- `getAddressBalances` at one account: one without a credit is absent and counts as zero. -/
def getAddressBalance (l : List (Entry κ)) (k : κ) : ℚ :=
  if (rowsOf l k).any Entry.credit then
    bcsub (sumOf true (rowsOf l k)) (sumOf false (rowsOf l k)) 18
  else 0

theorem total_rowsOf (l : List (Entry κ)) (k : κ) : total (moves (rowsOf l k)) = held (moves l) k := by
  induction l with
  | nil => rfl
  | cons e l ih =>
    have hc : moves (e :: l) = e.move :: moves l := rfl
    rw [hc, held_cons, ← ih]
    by_cases h : e.account = k <;> simp [rowsOf, h, moves, Entry.move, total_cons]

theorem onGrid_held (h : ∀ e ∈ l, OnGrid d e.amount) (k : κ) : OnGrid d (held (moves l) k) := by
  rw [← total_rowsOf]
  exact onGrid_total fun e he => h e (List.mem_of_mem_filter he)

/-- Books whose rows have at most `d` decimals, on which no account is overdrawn. -/
structure Solvent (d : ℕ) (l : List (Entry κ)) : Prop where
  grid : ∀ e ∈ l, OnGrid d e.amount
  nonneg : ∀ k, 0 ≤ held (moves l) k

section
variable (hd : d ≤ 18) (h : Solvent d l) {k : κ} (hlt : held (moves l) k < 10 ^ 46)
include hd h hlt

/-- The rows of an account that is in the ledger's range are netted exactly. -/
theorem Solvent.netted :
    bcsub (sumOf true (rowsOf l k)) (sumOf false (rowsOf l k)) 18 = held (moves l) k := by
  rw [← total_rowsOf] at hlt ⊢
  have h0 : 0 ≤ total (moves (rowsOf l k)) := by rw [total_rowsOf]; exact h.nonneg k
  exact netted_eq hd (fun e he => h.grid e (List.mem_of_mem_filter he)) h0 hlt hd

theorem getAddressBalance_le : getAddressBalance l k ≤ held (moves l) k ∧ OnGrid d (getAddressBalance l k) ∧
      0 ≤ getAddressBalance l k := by
  unfold getAddressBalance
  split_ifs
  · rw [h.netted hd hlt]
    exact ⟨le_rfl, onGrid_held h.grid k, h.nonneg k⟩
  · exact ⟨h.nonneg k, onGrid_zero d, le_rfl⟩

end

end XChainIndexer.Tokens.Books
