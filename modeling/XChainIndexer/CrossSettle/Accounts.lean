import XChainIndexer.CrossSettle.Proceeds

/-! # The account of an offer

What an offer holds in escrow and what was credited out of it, and which matches moved something.
`Book.touch` and `Settled.release` say what a release keeps: the offer holds what it locked less what
was credited, an open offer holds what it still has to give, and the credits of a match are its
release. -/

namespace XChainIndexer.CrossSettle.Accounts

open Lib.Decimal Lib.SumOver Bcmath List CrossSettle.Legs

def locked (s : State) (idx : ℕ) : ℚ :=
  sumOver Entry.amount (fun e => decide (e.offer = idx) && decide (0 < e.amount)) s.escrows

/-- What the offer still holds. -/
def escrowed (s : State) (idx : ℕ) : ℚ := sumOver Entry.amount (fun e => decide (e.offer = idx)) s.escrows

/-- What was credited out of the offer. -/
def credited (s : State) (idx : ℕ) : ℚ := sumOver Entry.amount (fun e => decide (e.offer = idx)) s.credits

/-- What the match took out of escrow. -/
def taken (s : State) (id : ℕ) : ℚ :=
  -sumOver Entry.amount (fun e => decide (e.settles = some id)) s.escrows

/-- What the match credited. -/
def proceeds (s : State) (id : ℕ) : ℚ :=
  sumOver Entry.amount (fun e => decide (e.settles = some id)) s.credits

/-- The matches that moved something, once for every time they did. -/
def moved (s : State) : List ℕ := s.escrows.filterMap (·.settles) ++ s.transfers.map (·.settles)

/-- The matches with a settlement row. -/
def settled (s : State) : List ℕ := s.settlements.map (·.match_id)

/-- The offer's GIVE side is a balance of the tick. -/
def Gives (o : Offer) (tick : ℕ) : Prop := o.give_tick = some tick ∧ o.give_ownership = false

/-! ### Releases -/

/-- The rows of a release of `x` out of the offer `idx`, for the match `id` if it is a settlement. -/
structure Release (s s' : State) (idx : ℕ) (id : Option ℕ) (x : ℚ) : Prop where
  escrows : ∃ e, s'.escrows = s.escrows ++ [e] ∧ e.offer = idx ∧ e.settles = id ∧ e.amount = -x
  credits : ∃ rows, s'.credits = s.credits ++ rows ∧ (∀ e ∈ rows, e.offer = idx ∧ e.settles = id) ∧
    (rows.map Entry.amount).sum = x
  transfers : s'.transfers = s.transfers
  nonneg : 0 ≤ x

section Release

variable {s s' : State} {idx : ℕ} {id : Option ℕ} {x : ℚ} (h : Release s s' idx id x)
include h

theorem Release.escrowed : escrowed s' idx = escrowed s idx - x := by
  obtain ⟨e, he, ho, -, hx⟩ := h.escrows
  unfold Accounts.escrowed
  rw [he, sumOver_append_of_forall _ (by simp [ho])]
  simp [hx, sub_eq_add_neg]

theorem Release.credited : credited s' idx = credited s idx + x := by
  obtain ⟨rows, hrows, hall, hx⟩ := h.credits
  unfold Accounts.credited
  rw [hrows, sumOver_append_of_forall _ (fun e he => by simp [(hall e he).1]), hx]

theorem Release.locked (j : ℕ) : locked s' j = locked s j := by
  obtain ⟨e, he, -, -, hx⟩ := h.escrows
  unfold Accounts.locked
  rw [he, sumOver_append_of_forall_not]
  simp [hx, h.nonneg]

theorem Release.frame {j : ℕ} (hj : j ≠ idx) :
    Accounts.escrowed s' j = Accounts.escrowed s j ∧ Accounts.credited s' j = Accounts.credited s j := by
  obtain ⟨e, he, ho, -, -⟩ := h.escrows
  obtain ⟨rows, hrows, hall, -⟩ := h.credits
  unfold Accounts.escrowed Accounts.credited
  rw [he, hrows, sumOver_append_of_forall_not _ (by simp [ho, hj.symm]),
    sumOver_append_of_forall_not _ (fun e he => by simp [(hall e he).1, hj.symm])]
  exact ⟨rfl, rfl⟩

theorem Release.rows {e : Entry} (he : e ∈ s'.escrows ++ s'.credits) :
    e ∈ s.escrows ++ s.credits ∨ e.offer = idx := by
  obtain ⟨e', he', ho, -, -⟩ := h.escrows
  obtain ⟨rows, hrows, hall, -⟩ := h.credits
  rw [he', hrows] at he
  simp only [mem_append, mem_singleton] at he ⊢
  rcases he with (he | rfl) | he | he
  · exact .inl (.inl he)
  · exact .inr ho
  · exact .inl (.inr he)
  · exact .inr (hall e he).1

theorem Release.taken (m : ℕ) : taken s' m = taken s m + if id = some m then x else 0 := by
  obtain ⟨e, he, -, hid, hx⟩ := h.escrows
  unfold Accounts.taken
  rw [he]
  split_ifs with hm
  · rw [sumOver_append_of_forall _ (by simp [hid, hm])]
    simp [hx]
    ring
  · rw [sumOver_append_of_forall_not _ (by simp [hid, hm]), add_zero]

theorem Release.proceeds (m : ℕ) : proceeds s' m = proceeds s m + if id = some m then x else 0 := by
  obtain ⟨rows, hrows, hall, hx⟩ := h.credits
  unfold Accounts.proceeds
  rw [hrows]
  split_ifs with hm
  · rw [sumOver_append_of_forall _ (fun e he => by simp [(hall e he).2, hm]), hx]
  · rw [sumOver_append_of_forall_not _ (fun e he => by simp [(hall e he).2, hm]), add_zero]

theorem Release.moved : (moved s').Perm (moved s ++ id.toList) := by
  obtain ⟨e, he, -, hid, -⟩ := h.escrows
  unfold Accounts.moved
  rw [he, h.transfers, filterMap_append]
  have hone : [e].filterMap (·.settles) = id.toList := by
    cases hs : e.settles with
    | none => simp [hs, ← hid]
    | some m => simp [hs, ← hid]
  rw [hone, append_assoc, append_assoc]
  exact List.Perm.append_left _ perm_append_comm

end Release

/-! ### Offers -/

/-- The account of an offer that gives a balance. -/
structure Account (c : Ctx) (s : State) (o : Offer) (tick : ℕ) : Prop where
  amount : Fits (c.decimals tick) o.give_amount
  amount0 : 0 ≤ o.give_amount
  locked_eq : locked s o.action_index = o.give_amount
  total : escrowed s o.action_index + credited s o.action_index = o.give_amount
  held0 : 0 ≤ escrowed s o.action_index
  held : OnGrid (c.decimals tick) (escrowed s o.action_index)
  credited0 : 0 ≤ credited s o.action_index
  held_open : o.status = .open → escrowed s o.action_index = heldBack s o

variable {s : State} {o : Offer} {tick : ℕ} {c : Ctx}

theorem Account.fits (h : Account c s o tick) : Fits (c.decimals tick) (escrowed s o.action_index) := by
  refine ⟨h.held, ?_⟩
  have hlt := h.amount.2
  rw [abs_of_nonneg h.amount0] at hlt
  rw [abs_of_nonneg h.held0]
  have htotal := h.total
  have hcred := h.credited0
  linarith

/-- An offer that gives coin or an ownership has no rows. -/
def Accounted (c : Ctx) (s : State) (o : Offer) : Prop :=
  (∀ tick, Gives o tick → Account c s o tick) ∧
    ((∀ tick, ¬ Gives o tick) → locked s o.action_index = 0 ∧ escrowed s o.action_index = 0 ∧
      credited s o.action_index = 0)

variable {s' : State}

theorem Accounted.congr (h : Accounted c s o) (hl : locked s' o.action_index = locked s o.action_index)
    (he : escrowed s' o.action_index = escrowed s o.action_index)
    (hc : credited s' o.action_index = credited s o.action_index)
    (hback : heldBack s' o = heldBack s o) : Accounted c s' o := by
  refine ⟨fun tick hg => ?_, fun hg => by rw [hl, he, hc]; exact h.2 hg⟩
  have ha := h.1 tick hg
  exact ⟨ha.amount, ha.amount0, hl.trans ha.locked_eq, by rw [he, hc]; exact ha.total,
    he.symm ▸ ha.held0, he.symm ▸ ha.held, hc.symm ▸ ha.credited0,
    fun hopen => by rw [he, hback]; exact ha.held_open hopen⟩

/-- Indices are distinct and below the next one, rows and fills are of offers, and every offer is
accounted for. -/
structure Book (c : Ctx) (s : State) : Prop where
  nodup : (s.offers.map (·.action_index)).Nodup
  lt : ∀ o ∈ s.offers, o.action_index < s.next
  rows : ∀ e ∈ s.escrows ++ s.credits, e.offer ∈ s.offers.map (·.action_index)
  fills : ∀ f ∈ s.fills, f.order ∈ s.offers.map (·.action_index)
  accounted : ∀ o ∈ s.offers, Accounted c s o

/-- `s'` is `s` with `o` changed: `x` less to give back if it is still open. -/
structure Touches (s s' : State) (o : Offer) (x : ℚ) : Prop where
  index : s'.offers.map (·.action_index) = s.offers.map (·.action_index)
  mem : ∀ o' ∈ s'.offers, o' ∈ s.offers ∧ o'.action_index ≠ o.action_index ∨
    ∃ status, o' = { o with status } ∧ (status = .open → heldBack s' o' = heldBack s o - x)
  fills : ∃ fs, s'.fills = s.fills ++ fs ∧ ∀ f ∈ fs, f.order = o.action_index
  next : s.next ≤ s'.next

variable {x : ℚ}

theorem Touches.heldBack_frame (h : Touches s s' o x) {o' : Offer}
    (hne : o'.action_index ≠ o.action_index) : heldBack s' o' = heldBack s o' := by
  obtain ⟨fs, hfs, hall⟩ := h.fills
  have hnone : fs.filter (·.order = o'.action_index) = [] :=
    filter_eq_nil_iff.mpr fun f hf => by simp [hall f hf, hne.symm]
  unfold heldBack remaining
  rw [hfs, filter_append, hnone, append_nil]

/-- The ways an action changes an open offer: it fills it, and it may end it. -/
theorem touches_of_fills {fs : List Fill} (hnd : (s.offers.map (·.action_index)).Nodup)
    (ho : o ∈ s.offers) (hfs : s'.fills = s.fills ++ fs) (hall : ∀ f ∈ fs, f.order = o.action_index)
    (hoffers : s'.offers = s.offers ∧ heldBack s' o = heldBack s o - x ∨
      ∃ status, status ≠ .open ∧ s'.offers = (setStatus s o.action_index status).offers)
    (hnext : s.next ≤ s'.next) : Touches s s' o x := by
  have huniq : ∀ o' ∈ s.offers, o'.action_index = o.action_index → o' = o :=
    fun o' ho' h => inj_on_of_nodup_map hnd ho' ho h
  refine ⟨?_, fun o' ho' => ?_, ⟨fs, hfs, hall⟩, hnext⟩
  · rcases hoffers with ⟨h, -⟩ | ⟨status, -, h⟩
    · rw [h]
    · rw [h, setStatus, map_map]
      refine map_congr_left fun o' _ => ?_
      simp only [Function.comp_apply]
      split_ifs <;> rfl
  · rcases hoffers with ⟨h, hback⟩ | ⟨status, hne, h⟩
    · rw [h] at ho'
      by_cases hi : o'.action_index = o.action_index
      · cases huniq o' ho' hi
        exact .inr ⟨o.status, rfl, fun _ => hback⟩
      · exact .inl ⟨ho', hi⟩
    · rw [h] at ho'
      obtain ⟨o1, ho1, rfl⟩ := mem_map.mp ho'
      split_ifs with hi
      · cases huniq o1 ho1 hi
        exact .inr ⟨status, rfl, fun hs => absurd hs hne⟩
      · exact .inl ⟨ho1, hi⟩

section Book

variable {c : Ctx} {s s' : State} {o : Offer} {x : ℚ} (h : Book c s)
include h

theorem Book.touch (ho : o ∈ s.offers) (ht : Touches s s' o x)
    (hself : ∀ status, (status = .open → heldBack s' o = heldBack s o - x) → Accounted c s' { o with status })
    (hframe : ∀ j ≠ o.action_index, locked s' j = locked s j ∧ escrowed s' j = escrowed s j ∧
      credited s' j = credited s j)
    (hrows : ∀ e ∈ s'.escrows ++ s'.credits, e ∈ s.escrows ++ s.credits ∨ e.offer = o.action_index) :
    Book c s' := by
  have hidx : o.action_index ∈ s.offers.map (·.action_index) := mem_map_of_mem ho
  refine ⟨ht.index ▸ h.nodup, fun o' ho' => ?_, fun e he => ?_, fun f hf => ?_, fun o' ho' => ?_⟩
  · rcases ht.mem o' ho' with ⟨hmem, -⟩ | ⟨status, rfl, -⟩
    · exact (h.lt o' hmem).trans_le ht.next
    · exact (h.lt o ho).trans_le ht.next
  · rw [ht.index]
    rcases hrows e he with hmem | heq
    · exact h.rows e hmem
    · exact heq ▸ hidx
  · rw [ht.index]
    obtain ⟨fs, hfs, hall⟩ := ht.fills
    rw [hfs, mem_append] at hf
    rcases hf with hf | hf
    · exact h.fills f hf
    · exact hall f hf ▸ hidx
  · rcases ht.mem o' ho' with ⟨hmem, hne⟩ | ⟨status, rfl, hback⟩
    · obtain ⟨hl, he, hc⟩ := hframe _ hne
      exact (h.accounted o' hmem).congr hl he hc (ht.heldBack_frame hne)
    · exact hself status hback

/-- **A release out of an open offer** of no more than it has to give back. -/
theorem Book.release {id : Option ℕ} (ho : o ∈ s.offers) (hopen : o.status = .open)
    (ht : Touches s s' o x) (hr : Release s s' o.action_index id x) (hg : Gives o tick)
    (hx : Fits (c.decimals tick) x) (hle : x ≤ heldBack s o) : Book c s' := by
  have ha := (h.accounted o ho).1 tick hg
  refine h.touch ho ht (fun status hback => ⟨fun tick' hg' => ?_, fun hno => (hno tick hg).elim⟩)
    (fun j hj => ⟨hr.locked j, hr.frame hj⟩) fun e he => hr.rows he
  have htick : tick' = tick := Option.some.inj (hg'.1.symm.trans hg.1)
  subst htick
  have hheld := ha.held_open hopen
  exact {
    amount := ha.amount
    amount0 := ha.amount0
    locked_eq := (hr.locked _).trans ha.locked_eq
    total := by
      rw [hr.escrowed, hr.credited, ← ha.total]
      ring
    held0 := by
      rw [hr.escrowed, hheld]
      exact sub_nonneg.mpr hle
    held := by
      rw [hr.escrowed]
      exact ha.held.sub hx.1
    credited0 := by
      rw [hr.credited]
      exact add_nonneg ha.credited0 hr.nonneg
    held_open := fun hst => by
      change escrowed s' o.action_index = heldBack s' o
      rw [hr.escrowed, hheld, hback hst] }

/-- An offer that gives coin or an ownership is filled or ended without rows. -/
theorem Book.unmoved (ho : o ∈ s.offers) (ht : Touches s s' o x) (hg : ∀ tick, ¬ Gives o tick)
    (he : s'.escrows = s.escrows) (hc : s'.credits = s.credits) : Book c s' := by
  have hsame : ∀ j, locked s' j = locked s j ∧ escrowed s' j = escrowed s j ∧
      credited s' j = credited s j := by
    intro j
    unfold locked escrowed credited
    rw [he, hc]
    exact ⟨rfl, rfl, rfl⟩
  refine h.touch ho ht (fun status _ => ⟨fun tick hg' => (hg tick hg').elim, fun _ => ?_⟩)
    (fun j _ => hsame j) fun e hmem => .inl (by rw [← he, ← hc]; exact hmem)
  obtain ⟨hl, he', hc'⟩ := hsame o.action_index
  rw [hl, he', hc']
  exact (h.accounted o ho).2 hg

theorem Book.congr (hoffers : s'.offers = s.offers) (hfills : s'.fills = s.fills)
    (he : s'.escrows = s.escrows) (hc : s'.credits = s.credits) (hnext : s.next ≤ s'.next) : Book c s' := by
  refine ⟨hoffers ▸ h.nodup, fun o ho => (h.lt o (hoffers ▸ ho)).trans_le hnext,
    by rw [he, hc, hoffers]; exact h.rows, by rw [hfills, hoffers]; exact h.fills, fun o ho => ?_⟩
  refine (h.accounted o (hoffers ▸ ho)).congr ?_ ?_ ?_ ?_
  · unfold locked; rw [he]
  · unfold escrowed; rw [he]
  · unfold credited; rw [hc]
  · unfold heldBack remaining; rw [hfills]

theorem Book.fresh : locked s s.next = 0 ∧ escrowed s s.next = 0 ∧ credited s s.next = 0 ∧
    s.fills.filter (·.order = s.next) = [] := by
  have hidx : ∀ i ∈ s.offers.map (·.action_index), i ≠ s.next := fun i hi => by
    obtain ⟨o, ho, rfl⟩ := mem_map.mp hi
    exact (h.lt o ho).ne
  have hrow : ∀ e ∈ s.escrows ++ s.credits, e.offer ≠ s.next := fun e he => hidx _ (h.rows e he)
  refine ⟨sumOver_eq_zero fun e he => ?_, sumOver_eq_zero fun e he => ?_,
    sumOver_eq_zero fun e he => ?_, filter_eq_nil_iff.mpr fun f hf => ?_⟩
  · simp [hrow e (mem_append_left _ he)]
  · simp [hrow e (mem_append_left _ he)]
  · simp [hrow e (mem_append_right _ he)]
  · simpa using hidx _ (h.fills f hf)

end Book

/-! ### New offers -/

/-- The state with a new offer and the rows of its lock. -/
def added (s : State) (o : Offer) (rows : List Entry) : State :=
  { s with escrows := s.escrows ++ rows, next := s.next + 1, offers := s.offers ++ [o] }

section Added

variable {c : Ctx} {s : State} {o : Offer} {rows : List Entry} (h : Book c s)
  (hidx : o.action_index = s.next) (hall : ∀ e ∈ rows, e.offer = o.action_index)
include h hidx hall

theorem Book.add (hself : Accounted c (added s o rows) o) : Book c (added s o rows) := by
  have hlt : ∀ i ∈ s.offers.map (·.action_index), i < s.next := fun i hi => by
    obtain ⟨o', ho', rfl⟩ := mem_map.mp hi
    exact h.lt o' ho'
  have hmap : (added s o rows).offers.map (·.action_index) =
      s.offers.map (·.action_index) ++ [o.action_index] := map_append
  refine ⟨?_, fun o' ho' => ?_, fun e he => ?_, fun f hf => ?_, fun o' ho' => ?_⟩
  · rw [hmap]
    exact nodup_append'.mpr ⟨h.nodup, nodup_singleton _, fun i h1 h2 =>
      (hlt i h1).ne ((mem_singleton.mp h2).trans hidx)⟩
  · rcases mem_append.mp ho' with ho' | ho'
    · exact (h.lt o' ho').trans (Nat.lt_succ_self _)
    · rw [mem_singleton.mp ho', hidx]
      exact Nat.lt_succ_self _
  · rw [hmap, mem_append]
    simp only [added, mem_append] at he
    rcases he with (he | he) | he
    · exact .inl (h.rows e (mem_append_left _ he))
    · exact .inr (mem_singleton.mpr (hall e he))
    · exact .inl (h.rows e (mem_append_right _ he))
  · rw [hmap, mem_append]
    exact .inl (h.fills f hf)
  · rcases mem_append.mp ho' with ho' | ho'
    · have hne : o.action_index ≠ o'.action_index := fun heq => (h.lt o' ho').ne (heq ▸ hidx)
      exact (h.accounted o' ho').congr (sumOver_append_of_forall_not _ fun e he => by simp [hall e he, hne])
        (sumOver_append_of_forall_not _ fun e he => by simp [hall e he, hne]) rfl rfl
    · rw [mem_singleton.mp ho']
      exact hself

theorem Book.accounted_added (hnone : (∀ tick, ¬ Gives o tick) → rows = [])
    (htoken : ∀ tick, Gives o tick → (∃ e, rows = [e] ∧ e.amount = o.give_amount) ∧
      0 < o.give_amount ∧ Fits (c.decimals tick) o.give_amount) : Accounted c (added s o rows) o := by
  obtain ⟨hlocked, hheld, hcred, hfills⟩ := h.fresh
  rw [← hidx] at hlocked hheld hcred hfills
  refine ⟨fun tick hg => ?_, fun hno => ?_⟩
  · obtain ⟨⟨e, rfl, hamount⟩, hpos, hfits⟩ := htoken tick hg
    have hoffer := hall e (by simp)
    have hl : locked (added s o [e]) o.action_index = o.give_amount := by
      refine (sumOver_append_of_forall _ (by simp [hoffer, hamount, hpos])).trans ?_
      rw [show sumOver _ _ s.escrows = 0 from hlocked, map_singleton, sum_singleton, hamount, zero_add]
    have he : escrowed (added s o [e]) o.action_index = o.give_amount := by
      refine (sumOver_append_of_forall _ (by simp [hoffer])).trans ?_
      rw [show sumOver _ _ s.escrows = 0 from hheld, map_singleton, sum_singleton, hamount, zero_add]
    have hback : heldBack (added s o [e]) o = o.give_amount := by
      have hrem : remaining (added s o [e]) o = (o.give_amount, o.get_amount) := by
        unfold remaining
        rw [show (added s o [e]).fills.filter (·.order = o.action_index) = [] from hfills]
        rfl
      unfold heldBack
      rw [hrem]
      cases o.kind <;> rfl
    exact ⟨hfits, hpos.le, hl, (congrArg₂ (· + ·) he hcred).trans (add_zero _), he ▸ hpos.le,
      he.symm ▸ hfits.1, hcred.ge, fun _ => he.trans hback.symm⟩
  · obtain rfl := hnone hno
    exact ⟨(sumOver_append_of_forall_not _ (by simp)).trans hlocked,
      (sumOver_append_of_forall_not _ (by simp)).trans hheld, hcred⟩

end Added

/-! ### Matches -/

/-- A match moves something at most once, and then has its settlement row; its proceeds are what it
took. -/
structure Settled (s : State) : Prop where
  nodup : (settled s).Nodup
  once : (moved s).Nodup
  recorded : ∀ id ∈ moved s, id ∈ settled s
  balanced : ∀ id, proceeds s id = taken s id

section Settled

variable {s s' : State} (h : Settled s)
include h

variable {ids mids : List ℕ}

/-- The general step: the matches `ids`, without a row so far, get their rows, and some of them
move. -/
theorem Settled.extend (hids : settled s' = settled s ++ ids) (hnd : ids.Nodup)
    (hnew : ∀ id ∈ ids, id ∉ settled s) (hmoved : (moved s').Perm (moved s ++ mids))
    (hsub : mids.Sublist ids) (hbal : ∀ id, proceeds s' id - taken s' id = proceeds s id - taken s id) :
    Settled s' where
  nodup := by
    rw [hids]
    exact nodup_append'.mpr ⟨h.nodup, hnd, fun id h1 h2 => hnew id h2 h1⟩
  once := by
    rw [hmoved.nodup_iff]
    exact nodup_append'.mpr ⟨h.once, hsub.nodup hnd,
      fun id h1 h2 => hnew id (hsub.subset h2) (h.recorded id h1)⟩
  recorded := fun id hid => by
    rw [hids, mem_append]
    rcases mem_append.mp (hmoved.subset hid) with h1 | h2
    · exact .inl (h.recorded id h1)
    · exact .inr (hsub.subset h2)
  balanced := fun id => by
    have := hbal id
    rw [h.balanced id, sub_self] at this
    exact sub_eq_zero.mp this

theorem Settled.release {idx : ℕ} {id : Option ℕ} (hr : Release s s' idx id x)
    (hids : settled s' = settled s ++ id.toList) (hnew : ∀ m ∈ id, m ∉ settled s) : Settled s' :=
  h.extend hids (by cases id <;> simp) (by simpa using hnew) hr.moved (List.Sublist.refl _)
    fun m => by rw [hr.proceeds, hr.taken]; ring

theorem Settled.added {o : Offer} {rows : List Entry} (hall : ∀ e ∈ rows, e.settles = none) :
    Settled (added s o rows) := by
  refine h.extend (append_nil _).symm nodup_nil (by simp) ?_ (List.Sublist.refl _) fun id => ?_
  · have hrows : rows.filterMap (·.settles) = [] := filterMap_eq_nil_iff.mpr hall
    unfold moved Accounts.added
    rw [filterMap_append, hrows, append_nil, append_nil]
  · have htaken : taken (Accounts.added s o rows) id = taken s id :=
      congrArg Neg.neg (sumOver_append_of_forall_not _ fun e he => by simp [hall e he])
    rw [htaken]
    rfl

/-- No ledger rows: a settlement that moves nothing, or one that transfers an ownership. -/
theorem Settled.unmoved (hids : settled s' = settled s ++ ids) (hnd : ids.Nodup)
    (hnew : ∀ id ∈ ids, id ∉ settled s) (he : s'.escrows = s.escrows) (hc : s'.credits = s.credits)
    (ht : s'.transfers.map (·.settles) = s.transfers.map (·.settles) ++ mids)
    (hsub : mids.Sublist ids) : Settled s' := by
  refine h.extend hids hnd hnew ?_ hsub fun id => ?_
  · unfold moved
    rw [he, ht, append_assoc]
  · unfold proceeds taken
    rw [he, hc]

end Settled

end XChainIndexer.CrossSettle.Accounts
