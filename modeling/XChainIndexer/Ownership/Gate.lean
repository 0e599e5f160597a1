import XChainIndexer.Orders.Closed
import XChainIndexer.Ownership.Offers
import XChainIndexer.Ownership.OrderMoves

/-! # The ownership gate is exact

`GateExact` says that `tokens.escrow_action_index` of every token lists the non-terminal ORDERs, SWAPs
and DISPENSERs that give its ownership. It holds in every state of a run whose steps meet `Guarded`
(`gate_exact_of_guarded`). The condition cannot be dropped (`coinpay_expire_frees_live_offer`): an expired
obligation opens the gate of a seller that is still open. -/

namespace XChainIndexer.Ownership.Gate

open Lib.Run Lib.Holder List Orders Orders.Tables Orders.Step Orders.Escrow Orders.Invariant Orders.Fates
open Orders.Closed (crossBlock)
open Ownership.Offers Ownership.OrderGate Ownership.OrderMoves

/-! ### The property -/

/-- `cancelled`, `empty` and `expired`. -/
def shut : DispenserStatus → Bool
  | .opened => false
  | .cancelling => false
  | _ => true

def swapGives (x : Swap) (t : ℕ) : Prop := x.give = .ownership t ∧ closed x.status = false

def dispenserGives (d : Dispenser) (t : ℕ) : Prop := d.tick = t ∧ shut d.status = false

instance (x : Swap) (t : ℕ) : Decidable (swapGives x t) := inferInstanceAs (Decidable (_ ∧ _))

instance (d : Dispenser) (t : ℕ) : Decidable (dispenserGives d t) :=
  inferInstanceAs (Decidable (_ ∧ _))

/-- The indices of the non-terminal offers that give the ownership of `t`. -/
def liveOffers (s : Offers.State) (t : ℕ) : List ℕ :=
  ((s.book.orders.filter fun o => o.give = .ownership t ∧ closed o.status = false).map (·.index)) ++
    ((s.swaps.filter fun x => swapGives x t).map (·.index)) ++
    (s.dispensers.filter fun d => dispenserGives d t).map (·.index)

/-- The gate of every token holds exactly the live offers of its ownership. -/
def GateExact (s : Offers.State) : Prop := ∀ t, liveOffers s t = (s.book.gate t).toList

/-- What an event must meet. An obligation that expires finds its ownership seller parked (see
`OrderGuarded`); a swap that gives ownership is matched while it is open; below the activation of the
settlement bounds the leg of a cross-chain match names what the SWAP or ORDER gives; a SWEEP finds the
offers of ownership it lists alive. -/
def Guarded (s : Offers.State) (rules : Rules) : Offers.Event → Prop
  | .order e => OrderGuarded s.orders rules.toBlock e
  | .swapMatch idx => rules.matchOriginOpen = false → ∀ x, s.findSwap idx = some x →
      x.give.isOwnership = true → x.status = .opened
  | .crossSettle idx leg => rules.settlementBounds = false → ∀ x, s.findSwap idx = some x →
      x.status = .opened → leg.namesOffer x = true
  | .sweep source destination orders swaps dispensers =>
      OrderGuarded s.orders rules.toBlock (.sweep source destination orders) ∧
      (∀ idx ∈ swaps, ∀ x, s.findSwap idx = some x → x.give.isOwnership = true →
        x.status = .opened) ∧
      ∀ idx ∈ dispensers, ∀ d, s.findDispenser idx = some d → shut d.status = false
  | _ => True

instance (s : Offers.State) (rules : Rules) (e : Offers.Event) : Decidable (Guarded s rules e) := by
  cases e <;> dsimp only [Guarded] <;> infer_instance

/-! ### The claims of all offers -/

def otherClaims (s : Offers.State) (t i : ℕ) : Prop :=
  claims (fun x : Swap => x.index) swapGives s.swaps t i ∨
    claims Dispenser.index dispenserGives s.dispensers t i

/-- The gate and the claims of all three tables on it. -/
def offers (s : Offers.State) : Register ℕ ℕ := (register s.book).beside (otherClaims s)

def otherIndices (s : Offers.State) : List ℕ :=
  s.swaps.map (fun x => x.index) ++ s.dispensers.map (·.index)

/-- Swaps and dispensers have indices of their own, all used. -/
structure Apart (s : Offers.State) : Prop where
  nodup : (otherIndices s).Nodup
  lt : ∀ i ∈ otherIndices s, i < s.book.nextIndex
  orders : ∀ i ∈ otherIndices s, s.book.find i = none

structure Inv (s : Offers.State) : Prop where
  orders : OrdersInv s.orders
  apart : Apart s
  held : (offers s).Exact

variable {s s' : Offers.State} {rules : Rules} {x : Swap}

theorem mem_swapIndices (hx : x ∈ s.swaps) : x.index ∈ otherIndices s :=
  mem_append_left _ (mem_map_of_mem hx)

variable {d : Dispenser}

theorem mem_dispenserIndices (hd : d ∈ s.dispensers) : d.index ∈ otherIndices s :=
  mem_append_right _ (mem_map_of_mem hd)

variable {t : ℕ} {i : ℕ}

theorem index_of_otherClaims (h : otherClaims s t i) : i ∈ otherIndices s := by
  rcases h with ⟨x, hx, rfl, _⟩ | ⟨d, hd, rfl, _⟩
  · exact mem_swapIndices hx
  · exact mem_dispenserIndices hd

section
variable (h : Apart s)
include h

theorem Apart.not_order (hi : i ∈ otherIndices s) : ¬ liveOrder s.book t i := by
  rintro ⟨o, ho, _⟩
  rw [h.orders i hi] at ho
  simp at ho

theorem Apart.disjoint (hx : x ∈ s.swaps) (hd : d ∈ s.dispensers) : x.index ≠ d.index := fun he =>
  (disjoint_of_nodup_append h.nodup (mem_map_of_mem hx)) (by
    rw [he]
    exact mem_map_of_mem hd)

theorem Apart.live_swap (hx : x ∈ s.swaps) (t : ℕ) : (offers s).live t x.index ↔ swapGives x t := by
  have hrow : claims (fun x : Swap => x.index) swapGives s.swaps t x.index ↔ swapGives x t :=
    claims_index h.nodup.of_append_left hx
  constructor
  · rintro (ho | hsw | ⟨d, hd, he, _⟩)
    · exact absurd ho (h.not_order (mem_swapIndices hx))
    · exact hrow.mp hsw
    · exact absurd he.symm (h.disjoint hx hd)
  · exact fun hg => Or.inr (Or.inl (hrow.mpr hg))

theorem Apart.live_dispenser (hd : d ∈ s.dispensers) (t : ℕ) :
    (offers s).live t d.index ↔ dispenserGives d t := by
  have hrow : claims Dispenser.index dispenserGives s.dispensers t d.index ↔ dispenserGives d t :=
    claims_index h.nodup.of_append_right hd
  constructor
  · rintro (ho | ⟨x, hx, he, _⟩ | hdi)
    · exact absurd ho (h.not_order (mem_dispenserIndices hd))
    · exact absurd he (h.disjoint hx hd)
    · exact hrow.mp hdi
  · exact fun hg => Or.inr (Or.inr (hrow.mpr hg))

end

/-! ### The property from the invariant -/

theorem mem_liveOffers (hk : Keys s.book) (t i : ℕ) : i ∈ liveOffers s t ↔ (offers s).live t i := by
  have horder : i ∈ (s.book.orders.filter fun o =>
      o.give = .ownership t ∧ closed o.status = false).map (·.index) ↔ liveOrder s.book t i := by
    simp only [mem_map, mem_filter, decide_eq_true_eq]
    constructor
    · rintro ⟨o, ⟨ho, hg⟩, rfl⟩
      exact ⟨o, hk.find ho, hg⟩
    · rintro ⟨o, ho, hg⟩
      exact ⟨o, ⟨(find_some ho).1, hg⟩, (find_some ho).2⟩
  unfold liveOffers
  show _ ↔ liveOrder s.book t i ∨ otherClaims s t i
  unfold otherClaims claims
  grind

theorem nodup_liveOffers (hk : Keys s.book) (h : Apart s) (t : ℕ) : (liveOffers s t).Nodup := by
  have hsub : ((s.swaps.filter fun x => swapGives x t).map (·.index) ++
      (s.dispensers.filter fun d => dispenserGives d t).map (·.index)).Sublist (otherIndices s) :=
    (filter_sublist.map _).append (filter_sublist.map _)
  unfold liveOffers
  rw [append_assoc]
  refine (List.Sublist.nodup (filter_sublist.map _) hk.orders_nodup).append
    (hsub.nodup h.nodup) fun i hi hother => ?_
  obtain ⟨o, ho, rfl⟩ := mem_map.mp hi
  have hnone := h.orders _ (hsub.subset hother)
  rw [hk.find (mem_filter.mp ho).1] at hnone
  simp at hnone

theorem Inv.gateExact (h : Inv s) : GateExact s := fun t =>
  h.held.eq_toList (nodup_liveOffers h.orders.keys h.apart t) (mem_liveOffers h.orders.keys t)

/-! ### Steps that leave the order tables alone -/

section tables

variable {b b' : Book} {o : Order}

/-- Only the ledger rows, the gate and the counter of the book differ. -/
structure SameTables (b b' : Book) : Prop where
  keys : Keys b'
  orders : b'.orders = b.orders
  matched : b'.matched = b.matched
  obligations : b'.obligations = b.obligations
  nextIndex : b.nextIndex ≤ b'.nextIndex

theorem SameTables.refl (hk : Keys b) : SameTables b b := ⟨hk, rfl, rfl, rfl, le_rfl⟩

section
variable (h : SameTables b b')
include h

theorem SameTables.bump : SameTables b b'.bump :=
  ⟨h.keys.bump, h.orders, h.matched, h.obligations, h.nextIndex.trans (Nat.le_succ _)⟩

theorem SameTables.gate (gate : ℕ → Option ℕ) : SameTables b { b' with gate } :=
  ⟨h.keys.of_rewrites (same_frame _ gate le_rfl), h.orders, h.matched, h.obligations, h.nextIndex⟩

section
variable (blk : Block) (ho : o.index < b'.nextIndex)
include ho

theorem SameTables.lock (t : ℕ) (x : ℚ) : SameTables b (lock blk b' o t x) :=
  ⟨h.keys.of_rewrites (same_lock b' blk ho t x), h.orders, h.matched, h.obligations, h.nextIndex⟩

theorem SameTables.giveOut (x : ℚ)
    (d : ℕ → ℕ) (dest : ℕ) : SameTables b (giveOut blk b' o x d dest) where
  keys := h.keys.of_rewrites (same_giveOut b' blk ho x d dest)
  orders := (giveOut_orders ..).trans h.orders
  matched := (giveOut_matched ..).trans h.matched
  obligations := (giveOut_obligations ..).trans h.obligations
  nextIndex := (giveOut_nextIndex ..).symm ▸ h.nextIndex

end

theorem SameTables.find (i : ℕ) : b'.find i = b.find i := by
  unfold Book.find
  rw [h.orders]

theorem SameTables.grows : Grows b b' :=
  ⟨h.nextIndex, fun i _ hnone => (h.find i).trans hnone⟩

theorem SameTables.liveOrder (t i : ℕ) : liveOrder b' t i ↔ liveOrder b t i := by
  unfold OrderGate.liveOrder
  rw [h.find]

theorem SameTables.owners (hok : AllOwnershipOk b) : AllOwnershipOk b' :=
  hok.keep h.matched h.obligations (fun i => (h.find i).trans Option.map_id'.symm)
    fun _ x _ => ⟨SameTerms.refl x, fun _ hc => hc⟩

end

end tables

theorem Apart.of_indices (h : Apart s) (hg : Grows s.book s'.book)
    (hidx : otherIndices s' = otherIndices s) : Apart s' where
  nodup := hidx ▸ h.nodup
  lt := fun i hi => (h.lt i (hidx ▸ hi)).trans_le hg.1
  orders := fun i hi => by
    rw [hidx] at hi
    exact hg.2 i (h.lt i hi).ne (h.orders i hi)

theorem Apart.of_new (h : Apart s) (hk : Keys s.book) (hb : SameTables s.book s'.book)
    (hlt : s.book.nextIndex < s'.book.nextIndex)
    (hidx : (otherIndices s').Perm (s.book.nextIndex :: otherIndices s)) : Apart s' where
  nodup := by
    rw [hidx.nodup_iff, nodup_cons]
    exact ⟨fun hmem => (h.lt _ hmem).ne rfl, h.nodup⟩
  lt := fun i hi => by
    rcases mem_cons.mp (hidx.subset hi) with rfl | hi
    · exact hlt
    · exact (h.lt i hi).trans hlt
  orders := fun i hi => by
    rw [hb.find]
    rcases mem_cons.mp (hidx.subset hi) with rfl | hi
    · exact find_nextIndex hk
    · exact h.orders i hi

/-- The invariant between two passes. -/
structure Quiet (s : Offers.State) : Prop extends Inv s where
  pass : s.orders.pass = none

section
variable (h : Quiet s) (hb : SameTables s.book s'.book) (hpass : s'.orders.pass = s.orders.pass)
include h hb hpass

theorem Quiet.of_tables (hap : Apart s') (hheld : (offers s').Exact) : Quiet s' := by
  have hnone : s'.orders.pass = none := hpass.trans h.pass
  have heq : s'.orders = ⟨s'.book, none⟩ := by rw [← hnone]; rfl
  exact ⟨⟨heq ▸ OrdersInv.closed hb.keys (hb.owners h.orders.owners), hap, hheld⟩, hnone⟩

theorem Quiet.of_same (hgate : s'.book.gate = s.book.gate) (hap : Apart s')
    (hlive : ∀ t i, otherClaims s' t i ↔ otherClaims s t i) : Quiet s' := by
  refine h.of_tables hb hpass hap (Register.Same.exact ⟨?_, fun t i => ?_⟩ h.held)
  · exact congrFun hgate
  · exact or_congr (hb.liveOrder t i) (hlive t i)

end

theorem Quiet.bump (h : Quiet s) : Quiet s.bump :=
  have hb := (SameTables.refl h.orders.keys).bump
  h.of_same hb rfl rfl (h.apart.of_indices hb.grows rfl) fun _ _ => Iff.rfl

theorem Quiet.of_taken (h : Quiet s) (hb : SameTables s.book s'.book)
    (hpass : s'.orders.pass = s.orders.pass) (hlt : s.book.nextIndex < s'.book.nextIndex)
    (hidx : (otherIndices s').Perm (s.book.nextIndex :: otherIndices s)) (hfree : s.book.gate t = none)
    (hgate : ∀ t', s'.book.gate t' = if t' = t then some s.book.nextIndex else s.book.gate t')
    (hlive : ∀ t' i, otherClaims s' t' i ↔
      otherClaims s t' i ∨ (t' = t ∧ i = s.book.nextIndex)) : Quiet s' := by
  refine h.of_tables hb hpass (h.apart.of_new h.orders.keys hb hlt hidx) ?_
  have htake := h.held.take (i := s.book.nextIndex) hfree
  refine Register.Same.exact (r := (offers s).take t s.book.nextIndex) ⟨hgate, fun t' i => ?_⟩ htake
  show liveOrder _ t' i ∨ otherClaims s' t' i ↔ (liveOrder s.book t' i ∨ otherClaims s t' i) ∨ _
  rw [hb.liveOrder, hlive, or_assoc]

/-! ### Swaps -/

section swaps

variable {x : Swap}

def swapRow (sp : OrderSpec) (getChain : Option ℕ) (remaining : Option ℚ) (idx : ℕ) : Swap :=
  { sp.row idx with getChain, remaining }

theorem swaps_createSwapStatus (s : Offers.State) (idx : ℕ) (status : OrderStatus) :
    (createSwapStatus s idx status).swaps = rewriteAt (fun x : Swap => x.index) idx
      (fun x => { x with toOrder := { x.toOrder with status } }) s.swaps := rfl

section
variable (h : Quiet s) (hx : x ∈ s.swaps) (hopen : x.give.isOwnership → closed x.status = false)
  {st : OrderStatus} (hst : closed st)
include h hx hopen hst

theorem Quiet.shutSwap {b' : Book} (hb : SameTables s.book b')
    (hgate : b'.gate = clears s.book.gate x.toOrder) :
    Quiet (createSwapStatus (s.withBook b') x.index st) := by
  have hclaims : ∀ t i, claims (fun x : Swap => x.index) swapGives
      (createSwapStatus (s.withBook b') x.index st).swaps t i ↔
      claims (fun x : Swap => x.index) swapGives s.swaps t i ∧ i ≠ x.index := by
    exact claims_shut (fun _ _ hg => by simp [swapGives, hst] at hg) s.swaps
  have hlive : ∀ t i, (offers (createSwapStatus (s.withBook b') x.index st)).live t i ↔
      (offers s).live t i ∧ i ≠ x.index := by
    intro t i
    have horder : liveOrder s.book t i → i ≠ x.index := by
      rintro hl rfl
      exact h.apart.not_order (mem_swapIndices hx) hl
    have hdisp : claims Dispenser.index dispenserGives s.dispensers t i → i ≠ x.index := by
      rintro ⟨d, hd, rfl, _⟩ he
      exact h.apart.disjoint hx hd he.symm
    have hrow := hclaims t i
    have hsame := hb.liveOrder t i
    show liveOrder b' t i ∨ claims _ _ (createSwapStatus (s.withBook b') x.index st).swaps t i ∨
      claims _ _ s.dispensers t i ↔ (liveOrder s.book t i ∨ claims _ _ s.swaps t i ∨
      claims _ _ s.dispensers t i) ∧ i ≠ x.index
    tauto
  have hap : Apart (createSwapStatus (s.withBook b') x.index st) := by
    refine h.apart.of_indices hb.grows ?_
    unfold otherIndices
    rw [swaps_createSwapStatus, map_index_rewriteAt]
    · rfl
    · exact fun _ => rfl
  refine h.of_tables hb rfl hap ?_
  cases hg : x.give with
  | ownership t =>
    have hgives : swapGives x t := ⟨hg, hopen (by rw [hg]; rfl)⟩
    refine h.held.drops (.of_shut ((h.apart.live_swap hx t).mpr hgives) (fun t' ht' => ?_) (fun t' => ?_)
      hlive)
    · have := ((h.apart.live_swap hx t').mp ht').1
      rw [hg, Side.ownership.injEq] at this
      exact this.symm
    · show b'.gate t' = _
      rw [hgate]
      unfold clears
      rw [hg]
      rfl
  | coin a | token t a =>
    refine Register.Same.exact ⟨fun t' => ?_, fun t' i => (hlive t' i).trans ?_⟩ h.held
    · show b'.gate t' = _
      rw [hgate]
      unfold clears
      rw [hg]
      rfl
    · refine and_iff_left_of_imp fun hl he => ?_
      rw [he, h.apart.live_swap hx, swapGives, hg] at hl
      simp at hl

theorem Quiet.closeSwap (rules : Rules) (amount : ℚ) (dest : ℕ) :
    Quiet (closeSwap rules s x amount dest st) :=
  h.shutSwap hx hopen hst
    ((SameTables.refl h.orders.keys).giveOut _ (h.apart.lt _ (mem_swapIndices hx)) _ _ _)
    (giveOut_gate ..)

end

theorem Quiet.createSwap (h : Quiet s) {sp : OrderSpec} (getChain : Option ℕ) (remaining : Option ℚ)
    (hfree : ∀ t, sp.give = .ownership t → s.book.gate t = none) :
    Quiet (createSwap rules s sp getChain remaining) := by
  have hbump := (SameTables.refl h.orders.keys).bump
  have hidx : ((s.swaps ++ [swapRow sp getChain remaining s.book.nextIndex]).map (fun x => x.index) ++
      s.dispensers.map (·.index)).Perm (s.book.nextIndex :: otherIndices s) := by
    rw [map_append, append_assoc]
    exact perm_middle
  have hclaims : ∀ t i, (claims (fun x : Swap => x.index) swapGives
      (s.swaps ++ [swapRow sp getChain remaining s.book.nextIndex]) t i ∨
      claims Dispenser.index dispenserGives s.dispensers t i) ↔
      otherClaims s t i ∨ (sp.give = .ownership t ∧ i = s.book.nextIndex) := by
    intro t i
    have hnew : swapGives (swapRow sp getChain remaining s.book.nextIndex) t ↔ sp.give = .ownership t :=
      and_iff_left rfl
    rw [claims_append]
    show _ ↔ (_ ∨ _) ∨ (_ ∧ i = (swapRow sp getChain remaining s.book.nextIndex).index)
    tauto
  unfold Offers.createSwap
  cases hg : sp.give with
  | ownership t =>
    refine h.of_taken (hbump.gate _) rfl (Nat.lt_succ_self _) hidx (hfree t hg) (fun _ => rfl) fun t' i => ?_
    refine (hclaims t' i).trans ?_
    rw [hg, Side.ownership.injEq, eq_comm]
  | coin a =>
    refine h.of_same hbump rfl rfl (h.apart.of_new h.orders.keys hbump (Nat.lt_succ_self _) hidx)
      fun t i => (hclaims t i).trans ?_
    rw [hg]
    simp
  | token t a =>
    have hlock := hbump.lock rules.toBlock (o := sp.row s.book.nextIndex) (Nat.lt_succ_self _) t a
    refine h.of_same hlock rfl rfl (h.apart.of_new h.orders.keys hlock (Nat.lt_succ_self _) hidx)
      fun t i => (hclaims t i).trans ?_
    rw [hg]
    simp

theorem Quiet.rewriteSwap (h : Quiet s) {idx : ℕ} {f : Swap → Swap} (hf : ∀ x, (f x).index = x.index)
    (hc : ∀ x t, swapGives (f x) t ↔ swapGives x t) :
    Quiet { s with swaps := rewriteAt (fun x : Swap => x.index) idx f s.swaps } := by
  refine h.of_same (SameTables.refl h.orders.keys) rfl rfl
    (h.apart.of_indices (SameTables.refl h.orders.keys).grows ?_) fun t i => ?_
  · unfold otherIndices
    rw [map_index_rewriteAt hf]
  · unfold otherClaims
    rw [claims_rewriteAt hf fun x _ _ => hc x]

theorem Quiet.editSwap (h : Quiet s) (idx : ℕ) (expiration allowList blockList : Option ℕ) :
    Quiet (editSwap s idx expiration allowList blockList) :=
  h.bump.rewriteSwap (fun _ => rfl) fun _ _ => Iff.rfl

theorem Quiet.recordFill (h : Quiet s) (idx : ℕ) (remaining : ℚ) : Quiet (recordFill s idx remaining) :=
  h.rewriteSwap (fun _ => rfl) fun _ _ => Iff.rfl

theorem findSwapMatch_some {m : Swap} (h : findSwapMatch rules s x = some m) :
    m ∈ s.swaps ∧ m.source ≠ x.source ∧ m.status = .opened := by
  unfold findSwapMatch at h
  split_ifs at h
  have hmem := mem_of_find?_eq_some h
  have hcond := find?_some h
  simp only [isSwapCandidate, Bool.and_eq_true, decide_eq_true_eq] at hcond
  exact ⟨hmem, hcond.1.1.1.1.2, hcond.1.1.1.2⟩

theorem Quiet.swapMatch (h : Quiet s) (hx : x ∈ s.swaps)
    (hopen : rules.matchOriginOpen = false → x.give.isOwnership → x.status = .opened) :
    Quiet (swapMatch rules s x) := by
  unfold Offers.swapMatch
  split_ifs with hclosed
  · exact h
  · have hlive : x.give.isOwnership → closed x.status = false := by
      intro hown
      have hst : x.status = .opened := by
        cases hm : rules.matchOriginOpen with
        | false => exact hopen hm hown
        | true => simpa [hm] using hclosed
      rw [hst]
      rfl
    cases hfind : findSwapMatch rules s x with
    | none => exact h
    | some m =>
      obtain ⟨hmem, hsrc, hmopen⟩ := findSwapMatch_some hfind
      -- the second swap is still there once the first one is closed
      have hne : m.index ≠ x.index := fun he => hsrc (by
        rw [inj_on_of_nodup_map h.apart.nodup.of_append_left hmem hx he])
      have hmem' : m ∈ (Offers.closeSwap rules s.bump x m.get.amount m.getAddress .complete).swaps :=
        mem_map.mpr ⟨m, hmem, if_neg hne⟩
      exact (h.bump.closeSwap hx hlive rfl rules _ _).closeSwap hmem' (fun _ => by rw [hmopen]; rfl)
        rfl rules _ _

variable {leg : CrossLeg}

theorem clears_of_namesOffer (h : leg.namesOffer x) (g : ℕ → Option ℕ) :
    clears g { x.toOrder with give := leg.give } = clears g x.toOrder := by
  unfold CrossLeg.namesOffer at h
  unfold clears
  cases hl : leg.give <;> cases hx : x.give <;> simp_all [Side.tick, Side.isOwnership]

/-- The settlement of an open offer: what its leg names leaves the escrow, and with it the claim on the
gate unless an ORDER stays open. -/
theorem Quiet.settleOffer (h : Quiet s) (hx : x ∈ s.swaps) (hopen : x.status = .opened)
    (hname : leg.namesOffer x) {b' : Book} (hb : SameTables s.book b')
    (hgate : b'.gate = clears s.book.gate { x.toOrder with give := leg.give }) (amount : ℚ) :
    Quiet (settleOffer (s.withBook b') x leg amount) := by
  have hlive : x.give.isOwnership → closed x.status = false := fun _ => by rw [hopen]; rfl
  rw [clears_of_namesOffer hname] at hgate
  unfold Offers.settleOffer
  cases hrest : x.remaining with
  | none => exact h.shutSwap hx hlive rfl hb hgate
  | some left =>
    set left' := Bcmath.bcsub left amount 64
    have hfilled := h.recordFill x.index left'
    dsimp only
    split_ifs with hdone
    · have hx' : { x with remaining := some left' } ∈ (Offers.recordFill s x.index left').swaps :=
        mem_map.mpr ⟨x, hx, if_pos rfl⟩
      exact hfilled.shutSwap hx' hlive rfl hb hgate
    · -- the leg gives no ownership, and neither does the order
      have hsame : clears s.book.gate x.toOrder = s.book.gate := by
        unfold CrossLeg.namesOffer at hname
        simp only [Bool.or_eq_true, Bool.and_eq_true, decide_eq_true_eq, not_or] at hdone hname
        unfold clears
        cases hg : x.give <;> simp_all [Side.isOwnership]
      refine hfilled.of_same hb rfl (hgate.trans hsame) (hfilled.apart.of_indices hb.grows rfl) ?_
      exact fun _ _ => Iff.rfl

theorem Quiet.crossSettle (h : Quiet s) (hx : x ∈ s.swaps)
    (hleg : rules.settlementBounds = false → x.status = .opened → leg.namesOffer x) :
    Quiet (crossSettle rules s x leg) := by
  unfold Offers.crossSettle
  split_ifs with hskip
  · exact h.bump
  · simp only [Bool.or_eq_true, Bool.and_eq_true, decide_eq_true_eq, not_or, not_and, not_not] at hskip
    obtain ⟨⟨hopen, hnames⟩, -⟩ := hskip
    have hname : leg.namesOffer x := by
      cases hb : rules.settlementBounds with
      | false => exact hleg hb hopen
      | true => simpa using hnames hb
    refine h.bump.settleOffer hx hopen hname ((SameTables.refl h.bump.orders.keys).giveOut _ ?_ _ _ _)
      (giveOut_gate ..) _
    exact h.bump.apart.lt _ (mem_swapIndices hx)

theorem Quiet.sweepSwaps (rules : Rules) (dest : ℕ) (swaps : List ℕ) : ∀ s : Offers.State, Quiet s →
    swaps.Nodup → (∀ idx ∈ swaps, ∀ x ∈ s.swaps, x.index = idx → x.give.isOwnership →
      closed x.status = false) → Quiet (swaps.foldl (sweepSwap rules dest) s) := by
  induction swaps with
  | nil => exact fun s h _ _ => h
  | cons idx swaps ih =>
    intro s h hnd hlive
    rw [nodup_cons] at hnd
    rw [foldl_cons]
    unfold sweepSwap
    cases hfind : s.findSwap idx with
    | none => exact ih s h hnd.2 fun j hj => hlive j (mem_cons_of_mem _ hj)
    | some x =>
      have hx : x ∈ s.swaps := mem_of_find?_eq_some hfind
      have hidx : x.index = idx := by simpa using find?_some hfind
      refine ih _ (h.closeSwap hx (hlive idx mem_cons_self x hx hidx) rfl rules _ _) hnd.2 ?_
      intro j hj y hy hyj hown
      obtain ⟨z, hz, rfl⟩ := mem_map.mp hy
      split_ifs at hyj hown ⊢ with hzx
      · exact absurd (hyj.symm.trans (hzx.trans hidx) ▸ hj) hnd.1
      · exact hlive j (mem_cons_of_mem _ hj) z hz hyj hown

end swaps

/-! ### Dispensers -/

section dispensers

variable {d : Dispenser}

theorem dispensers_createDispenserStatus (s : Offers.State) (idx : ℕ) (status : DispenserStatus) :
    (createDispenserStatus s idx status).dispensers =
      rewriteAt Dispenser.index idx (fun d => { d with status }) s.dispensers := rfl

section
variable (h : Quiet s)
include h

theorem Quiet.createDispenser {source getAddress tick expiration : ℕ}
    (hfree : s.book.gate tick = none) : Quiet (createDispenser s source getAddress tick expiration) := by
  have hb := (SameTables.refl h.orders.keys).bump.gate
    (setTokenEscrow s.bump.book tick s.book.nextIndex).gate
  refine h.of_taken hb rfl (Nat.lt_succ_self _) ?_ hfree (fun _ => rfl) fun t i => ?_
  · have : otherIndices (Offers.createDispenser s source getAddress tick expiration) =
        otherIndices s ++ [s.book.nextIndex] := by
      unfold otherIndices
      rw [append_assoc]
      exact congrArg _ map_append
    rw [this]
    exact perm_append_singleton _ _
  · have hrow : ∀ row : Dispenser, dispenserGives { row with tick, status := .opened } t ↔ t = tick :=
      fun row => (and_iff_left rfl).trans eq_comm
    show _ ∨ claims Dispenser.index dispenserGives (s.dispensers ++ [_]) t i ↔ _
    rw [claims_append]
    unfold otherClaims
    rw [hrow ⟨s.book.nextIndex, source, getAddress, tick, expiration, .opened⟩, or_assoc]
    rfl

variable {idx : ℕ}

theorem Quiet.rewriteDispenser {f : Dispenser → Dispenser}
    (ho : s'.orders = s.orders) (hs : s'.swaps = s.swaps)
    (hd : s'.dispensers = rewriteAt Dispenser.index idx f s.dispensers) (hf : ∀ d, (f d).index = d.index)
    (hc : ∀ d ∈ s.dispensers, d.index = idx → ∀ t, dispenserGives (f d) t ↔ dispenserGives d t) :
    Quiet s' := by
  have hbook : s'.book = s.book := congrArg Step.State.book ho
  have hb : SameTables s.book s'.book := hbook.symm ▸ SameTables.refl h.orders.keys
  refine h.of_same hb (by rw [ho]) (by rw [hbook]) (h.apart.of_indices hb.grows ?_) fun t i => ?_
  · unfold otherIndices
    rw [hs, hd, map_index_rewriteAt hf]
  · unfold otherClaims
    rw [hs, hd, claims_rewriteAt hf hc]

theorem Quiet.cancelling (hlive : ∀ d ∈ s.dispensers, d.index = idx → shut d.status = false) :
    Quiet (createDispenserStatus s idx .cancelling) := by
  refine h.rewriteDispenser rfl rfl (dispensers_createDispenserStatus s idx .cancelling) (fun _ => rfl) ?_
  intro d hd hi t
  unfold dispenserGives
  rw [hlive d hd hi]
  rfl

section
variable (hd : d ∈ s.dispensers) (hlive : shut d.status = false)
include hd hlive

variable {st : DispenserStatus}

theorem Quiet.shutDispenser (hst : shut st) :
    Quiet (createDispenserStatus (s.withBook (clearTokenEscrow s.book d.tick)) d.index st) := by
  have hb : SameTables s.book (clearTokenEscrow s.book d.tick) :=
    (SameTables.refl h.orders.keys).gate _
  have hclaims : ∀ t i, claims Dispenser.index dispenserGives
      (createDispenserStatus (s.withBook (clearTokenEscrow s.book d.tick)) d.index st).dispensers t i ↔
      claims Dispenser.index dispenserGives s.dispensers t i ∧ i ≠ d.index := by
    exact claims_shut (fun _ _ hg => by simp [dispenserGives, hst] at hg) s.dispensers
  refine h.of_tables hb rfl (h.apart.of_indices hb.grows ?_) (h.held.drops (.of_shut
    ((h.apart.live_dispenser hd _).mpr ⟨rfl, hlive⟩) (fun t ht => ?_) (fun _ => rfl)
    fun t i => ?_))
  · unfold otherIndices
    rw [dispensers_createDispenserStatus, map_index_rewriteAt]
    · rfl
    · exact fun _ => rfl
  · exact ((h.apart.live_dispenser hd t).mp ht).1.symm
  · have horder : liveOrder s.book t i → i ≠ d.index := by
      rintro hl rfl
      exact h.apart.not_order (mem_dispenserIndices hd) hl
    have hswap : claims (fun x : Swap => x.index) swapGives s.swaps t i → i ≠ d.index := by
      rintro ⟨x, hx, rfl, _⟩
      exact h.apart.disjoint hx hd
    have hrow := hclaims t i
    show liveOrder (clearTokenEscrow s.book d.tick) t i ∨ claims _ _ s.swaps t i ∨
      claims _ _ (createDispenserStatus _ d.index st).dispensers t i ↔
      (liveOrder s.book t i ∨ claims _ _ s.swaps t i ∨ claims _ _ s.dispensers t i) ∧ i ≠ d.index
    tauto

theorem Quiet.closeOwnershipDispenser :
    closeOwnershipDispenser s d = s.withBook (clearTokenEscrow s.book d.tick) := by
  have hheld : s.book.gate d.tick = some d.index :=
    (h.held d.tick d.index).mpr ((h.apart.live_dispenser hd _).mpr ⟨rfl, hlive⟩)
  unfold Offers.closeOwnershipDispenser
  rw [if_pos hheld]

theorem Quiet.dispenserClose (hst : shut st) :
    Quiet (createDispenserStatus (Offers.closeOwnershipDispenser s.bump d) d.index st) := by
  rw [h.bump.closeOwnershipDispenser hd hlive]
  exact h.bump.shutDispenser hd hlive hst

end

end

theorem dispense_eq (s : Offers.State) (d : Dispenser) : dispense s d = createDispenserStatus
      (s.bump.bump.withBook (clearTokenEscrow s.bump.bump.book d.tick)) d.index .empty := by
  unfold dispense Offers.dispenserClose Offers.closeOwnershipDispenser
  dsimp only
  have hfree : (s.bump.withBook (transferTokenOwnership s.bump.book d.tick)).bump.book.gate d.tick =
      none := if_pos rfl
  rw [hfree]
  rfl

theorem Quiet.dispense (h : Quiet s) (hd : d ∈ s.dispensers) (hlive : shut d.status = false) :
    Quiet (dispense s d) := by
  rw [dispense_eq]
  exact h.bump.bump.shutDispenser hd hlive rfl

theorem Quiet.sweepDispensers (dispensers : List ℕ) : ∀ s : Offers.State, Quiet s →
    (∀ idx ∈ dispensers, ∀ d ∈ s.dispensers, d.index = idx → shut d.status = false) →
    Quiet (dispensers.foldl sweepDispenser s) := by
  induction dispensers with
  | nil => exact fun s h _ => h
  | cons idx dispensers ih =>
    intro s h hlive
    refine ih _ (h.cancelling (hlive idx mem_cons_self)) fun j hj d hd hidx => ?_
    obtain ⟨d', hd', rfl⟩ := mem_map.mp hd
    split_ifs at hidx ⊢ with he
    · rfl
    · exact hlive j (mem_cons_of_mem _ hj) d' hd' hidx

end dispensers

/-! ### The step -/

theorem handleSwap_some {ok : Swap → Bool} {f : Swap → Offers.State}
    (h : handleSwap s idx ok f = some s') : ∃ x ∈ s.swaps, s.findSwap idx = some x ∧ ok x ∧ f x = s' := by
  unfold handleSwap at h
  split at h
  · rename_i x hx
    split_ifs at h with hok
    exact ⟨x, mem_of_find?_eq_some hx, hx, hok, Option.some.inj h⟩
  · simp at h

theorem handleDispenser_some {ok : Dispenser → Bool} {f : Dispenser → Offers.State}
    (h : handleDispenser s idx ok f = some s') :
    ∃ d ∈ s.dispensers, s.findDispenser idx = some d ∧ ok d ∧ f d = s' := by
  unfold handleDispenser at h
  split at h
  · rename_i d hd
    split_ifs at h with hok
    exact ⟨d, mem_of_find?_eq_some hd, hd, hok, Option.some.inj h⟩
  · simp at h

variable {o : Step.State}

theorem inv_order {e : Step.Event} (hg : OrderGuarded s.orders rules.toBlock e)
    (h : Step.step s.orders (rules.toBlock, e) = some o) (hi : Inv s) : Inv { s with orders := o } := by
  obtain ⟨hord, hmove⟩ := orderMove_step hg h hi.orders
  refine ⟨hord, hi.apart.of_indices (grows_step h) rfl, ?_⟩
  have hno : ∀ t i, (register s.book).live t i → ¬ otherClaims s t i := fun t i hl hc =>
    hi.apart.not_order (index_of_otherClaims hc) hl
  cases hmove with
  | drops hd => exact hi.held.drops (hd.beside hno)
  | takes t hfree hsame =>
    have htake := hi.held.take (i := s.book.nextIndex) hfree
    refine Register.Same.exact (r := (offers s).take t s.book.nextIndex) ⟨hsame.holder, fun t' i => ?_⟩
      htake
    refine (or_congr (hsame.live t' i) Iff.rfl).trans ?_
    exact or_right_comm

theorem sweepSwaps_dispensers (rules : Rules) (dest : ℕ) (swaps : List ℕ) (s : Offers.State) :
    (swaps.foldl (sweepSwap rules dest) s).dispensers = s.dispensers := by
  induction swaps generalizing s with
  | nil => rfl
  | cons idx swaps ih =>
    rw [foldl_cons, ih]
    unfold sweepSwap
    split <;> rfl

theorem Quiet.sweep (h : Quiet s) {source destination : ℕ} {orders swaps dispensers : List ℕ}
    (hg : Guarded s rules (.sweep source destination orders swaps dispensers))
    (hnd : swaps.Nodup) (hstep : Step.handle rules.toBlock s.book (.sweep source destination orders) =
      some o) : Quiet (sweepOffers rules { s with orders := o } destination swaps dispensers) := by
  obtain ⟨hgo, hgs, hgd⟩ := hg
  have hpass : o.pass = none := by
    simp only [Step.handle] at hstep
    split_ifs at hstep
    rw [← Option.some.inj hstep]
  have horder : Step.step s.orders (rules.toBlock, .sweep source destination orders) = some o := by
    unfold Step.step
    rw [h.pass]
    exact hstep
  have hq : Quiet { s with orders := o } := ⟨inv_order hgo horder h.toInv, hpass⟩
  have hswaps := Quiet.sweepSwaps rules destination swaps _ hq hnd fun idx hidx x hx hxi hown => by
    have hfind : s.findSwap idx = some x :=
      hxi ▸ Lib.Keyed.find?_key h.apart.nodup.of_append_left hx
    rw [hgs idx hidx x hfind hown]
    rfl
  refine Quiet.sweepDispensers dispensers _ hswaps fun idx hidx d hd hdi => hgd idx hidx d ?_
  rw [sweepSwaps_dispensers] at hd
  exact hdi ▸ Lib.Keyed.find?_key h.apart.nodup.of_append_right hd

theorem inv_handle {ev : Offers.Event} (hq : Quiet s) (hg : Guarded s rules ev)
    (h : Offers.handle rules s ev = some s') : Quiet s' := by
  cases ev with
  | order e => simp [Offers.handle] at h
  | createSwap sp getChain =>
    simp only [Offers.handle] at h
    split_ifs at h with hacc
    refine Option.some.inj h ▸ hq.createSwap getChain none fun t ht => ?_
    unfold swapAccepted at hacc
    simp only [Bool.and_eq_true, decide_eq_true_eq, ht] at hacc
    exact hacc.1.2
  | createCrossOrder sp getChain =>
    simp only [Offers.handle] at h
    split_ifs at h with hacc
    refine Option.some.inj h ▸ hq.createSwap (some getChain) (some sp.give.amount) fun t ht => ?_
    unfold crossOrderAccepted at hacc
    simp only [Bool.and_eq_true, decide_eq_true_eq, ht] at hacc
    exact hacc.1.2
  | cancelSwap source idx =>
    obtain ⟨x, hx, _, hok, rfl⟩ := handleSwap_some h
    simp only [Bool.and_eq_true, decide_eq_true_eq] at hok
    exact hq.bump.closeSwap hx (fun _ => by rw [hok.2]; rfl) rfl _ _ _
  | editSwap source idx expiration allowList blockList =>
    obtain ⟨x, _, _, _, rfl⟩ := handleSwap_some h
    exact hq.editSwap _ _ _ _
  | swapMatch idx =>
    obtain ⟨x, hx, hfind, _, rfl⟩ := handleSwap_some h
    exact hq.swapMatch hx fun hm => hg hm x hfind
  | swapExpire idx =>
    obtain ⟨x, hx, _, hok, rfl⟩ := handleSwap_some h
    simp only [Bool.and_eq_true, decide_eq_true_eq] at hok
    exact hq.bump.closeSwap hx (fun _ => by rw [hok.1]; rfl) rfl _ _ _
  | crossSettle idx leg =>
    obtain ⟨x, hx, hfind, _, rfl⟩ := handleSwap_some h
    exact hq.crossSettle hx fun hb => hg hb x hfind
  | createDispenser source getAddress tick expiration =>
    simp only [Offers.handle] at h
    split_ifs at h with hacc
    exact Option.some.inj h ▸ hq.createDispenser hacc.1
  | cancelDispenser source idx =>
    obtain ⟨d, hd, hfind, hok, rfl⟩ := handleDispenser_some h
    simp only [Bool.and_eq_true, decide_eq_true_eq] at hok
    refine hq.bump.cancelling fun d' hd' hi => ?_
    have hd'' : s.findDispenser idx = some d' :=
      hi ▸ Lib.Keyed.find?_key hq.apart.nodup.of_append_right hd'
    rw [hfind, Option.some.injEq] at hd''
    rw [← hd'', hok.2]
    rfl
  | editDispenser source idx expiration =>
    obtain ⟨d, _, _, _, rfl⟩ := handleDispenser_some h
    exact hq.bump.rewriteDispenser rfl rfl rfl (fun _ => rfl) fun _ _ _ _ => Iff.rfl
  | dispense idx =>
    obtain ⟨d, hd, _, hok, rfl⟩ := handleDispenser_some h
    simp only [Bool.or_eq_true, Bool.and_eq_true, decide_eq_true_eq] at hok
    refine hq.dispense hd ?_
    rcases hok with hst | ⟨_, hst⟩ <;> rw [hst] <;> rfl
  | dispenserClose idx =>
    obtain ⟨d, hd, _, hok, rfl⟩ := handleDispenser_some h
    rw [decide_eq_true_eq] at hok
    exact hq.dispenserClose hd (by rw [hok]; rfl) rfl
  | dispenserExpire idx =>
    obtain ⟨d, hd, _, hok, rfl⟩ := handleDispenser_some h
    simp only [Bool.and_eq_true, decide_eq_true_eq] at hok
    exact hq.dispenserClose hd (by rw [hok.1]; rfl) rfl
  | sweep source destination orders swaps dispensers =>
    simp only [Offers.handle] at h
    split_ifs at h with hok
    obtain ⟨o, ho, rfl⟩ := Option.map_eq_some_iff.mp h
    unfold sweepable at hok
    simp only [Bool.and_eq_true, decide_eq_true_eq] at hok
    exact hq.sweep hg hok.1.1.1 ho

/-- **A guarded step keeps the invariant.** -/
theorem inv_step (s : Offers.State) (e : Rules × Offers.Event) (s' : Offers.State)
    (hg : Guarded s e.1 e.2) (h : Offers.step s e = some s') (hi : Inv s) : Inv s' := by
  obtain ⟨rules, ev⟩ := e
  unfold Offers.step at h
  split at h
  · rename_i e' he
    obtain ⟨o, ho, rfl⟩ := Option.map_eq_some_iff.mp h
    subst he
    exact inv_order hg ho hi
  · split at h
    · rename_i hpass
      exact (inv_handle ⟨hi, hpass⟩ hg h).toInv
    · simp at h

theorem inv_init : Inv Offers.init := by
  refine ⟨OrdersInv.closed Steps.keys_init fun i o ho => ?_, ⟨nodup_nil, ?_, ?_⟩, fun t i => ?_⟩
  · simp [Book.find] at ho
  · simp [otherIndices, Offers.init]
  · simp [otherIndices, Offers.init]
  · simp [offers, register, Register.beside, otherClaims, claims, liveOrder, Offers.init,
      Offers.State.book, Step.init, Book.find]

/-- **The gate is exact.** In every state that guarded steps reach, the gate of a token is the index of
the one non-terminal offer of its ownership, and `NULL` when there is none. -/
theorem gate_exact_of_guarded (s : Offers.State)
    (h : Reaches Offers.step (fun s e => Guarded s e.1 e.2) Offers.init s) : GateExact s :=
  (h.invariant inv_init inv_step).gateExact

/-! ### Offers one after the other, and an obligation that expires -/

def rulesAt (time : ℕ) : Rules := { crossBlock time with dispenseCancelling := true }

/-- An offer of the ownership of token 7, and an offer that buys it. -/
def sellSpec : OrderSpec := ⟨1, 1, .ownership 7, .coin 1, 1000, none, none⟩

def buySpec : OrderSpec := ⟨2, 2, .coin 1, .ownership 7, 1000, none, none⟩

/-- Ownership is offered one after the other by an order that is cancelled with its obligation pending
and closed when that expires, by a dispenser that is closed, by a cross-chain swap that is settled below
the activation of the bounds, by a cross-chain order that is swept, and by a swap. -/
def offersRun : List (Rules × Offers.Event) :=
  [(rulesAt 1, .order (.create sellSpec)), (rulesAt 1, .order (.create buySpec)),
    (rulesAt 1, .order (.beginMatch 2)), (rulesAt 1, .order .nextMatch), (rulesAt 1, .order .nextMatch),
    (rulesAt 2, .order (.cancel 1 1)), (rulesAt 200, .order (.coinpayExpire 3)),
    (rulesAt 201, .createDispenser 1 1 7 900), (rulesAt 202, .cancelDispenser 1 6),
    (rulesAt 290, .dispenserClose 6), (rulesAt 291, .createSwap sellSpec (some 2)),
    ({ rulesAt 292 with settlementBounds := false }, .crossSettle 9 ⟨.ownership 7, 5⟩),
    (rulesAt 293, .createCrossOrder sellSpec 2), (rulesAt 294, .sweep 1 9 [] [11] []),
    (rulesAt 295, .createSwap sellSpec (some 2))]

theorem gate_exact_of_guarded_offers : ∃ s, run Offers.step Offers.init offersRun = some s ∧
    GateExact s ∧ s.book.gate 7 = some 13 := by
  obtain ⟨s, hs, hp⟩ : ∃ s, run (fun s e => if Guarded s e.1 e.2 then Offers.step s e else none)
      Offers.init offersRun = some s ∧ s.book.gate 7 = some 13 := by decide +kernel
  exact ⟨s, run_of_checked hs, gate_exact_of_guarded s (Reaches.init.of_checked hs), hp⟩

/-- The buyer of an ownership order does not pay, and the order stays open. -/
def unpaidRun : List (Rules × Offers.Event) :=
  [(rulesAt 1, .order (.create sellSpec)), (rulesAt 1, .order (.beginMatch 1)),
    (rulesAt 1, .order .nextMatch), (rulesAt 2, .order (.create buySpec)),
    (rulesAt 2, .order (.beginMatch 2)), (rulesAt 2, .order .nextMatch),
    (rulesAt 2, .order .nextMatch), (rulesAt 200, .order (.coinpayExpire 3))]

/-- The gate is open although the order still offers the ownership. -/
theorem coinpay_expire_frees_live_offer : ∃ s, run Offers.step Offers.init unpaidRun = some s ∧
    ¬ GateExact s := by
  obtain ⟨s, hs, hp⟩ : ∃ s, run Offers.step Offers.init unpaidRun = some s ∧ liveOffers s 7 = [1] ∧
      s.book.gate 7 = none := by decide +kernel
  refine ⟨s, hs, fun hex => ?_⟩
  have := hex 7
  rw [hp.1, hp.2] at this
  simp at this

end XChainIndexer.Ownership.Gate
