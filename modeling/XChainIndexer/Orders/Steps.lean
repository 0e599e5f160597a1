import XChainIndexer.Orders.Pass

/-! # What a step can do

`Stepped` lists the accepted events with what each handler was given and what it left, in the terms
the handlers' lemmas use. `stepped_of_step` says that the step function does nothing else; the
invariants of a run are proved by cases on it. -/

namespace XChainIndexer.Orders.Steps

open Orders.Tables Orders.Match Orders.Step Option Orders.Invariant Orders.Handlers Orders.Pass

inductive Stepped : State → Block × Event → State → Prop
  | create {blk b sp} (hacc : sp.accepted blk b = true) :
      Stepped ⟨b, none⟩ (blk, .create sp) ⟨createOrder blk b sp, none⟩
  | cancel {blk b source idx info} (hinfo : getOrderInfo b idx = some info)
      (hopen : info.order.status = .opened) :
      Stepped ⟨b, none⟩ (blk, .cancel source idx) ⟨cancelOrder blk b info, none⟩
  | edit {blk b source idx expiration allowList blockList o} (hfind : b.find idx = some o)
      (hopen : o.status = .opened) :
      Stepped ⟨b, none⟩ (blk, .edit source idx expiration allowList blockList)
        ⟨editOrder b idx expiration allowList blockList, none⟩
  | beginMatch {blk b idx p} (hbegin : beginMatch blk b idx = some p) :
      Stepped ⟨b, none⟩ (blk, .beginMatch idx) ⟨b, some p⟩
  | coinpay {blk b idx m} (hfind : b.findMatch idx = some m) (hm : m ∈ b.matched)
      (hp : b.pending m = true) :
      Stepped ⟨b, none⟩ (blk, .coinpay idx) ⟨coinpay blk b m, none⟩
  | coinpayExpire {blk b idx m ob} (hfind : b.findMatch idx = some m) (hm : m ∈ b.matched)
      (hp : b.pending m = true) :
      Stepped ⟨b, none⟩ (blk, .coinpayExpire idx) ⟨coinpayExpire blk b m ob, none⟩
  | orderExpire {blk b idx info} (hinfo : getOrderInfo b idx = some info)
      (hopen : info.order.status = .opened) :
      Stepped ⟨b, none⟩ (blk, .orderExpire idx) ⟨orderExpire blk b info, none⟩
  | sweep {blk b source destination orders} (hnd : orders.Nodup)
      (hknown : ∀ idx ∈ orders, ∃ o, b.find idx = some o) :
      Stepped ⟨b, none⟩ (blk, .sweep source destination orders)
        ⟨sweepOrders blk b destination orders, none⟩
  | stop {blk b p} : Stepped ⟨b, some p⟩ (blk, .nextMatch) ⟨b, none⟩
  | skip {blk b p m ms} (hc : p.candidates = m :: ms) :
      Stepped ⟨b, some p⟩ (blk, .nextMatch) ⟨b, some ⟨p.taker, p.remaining, ms⟩⟩
  | fill {blk b p m ms} (hc : p.candidates = m :: ms) (hfin : ¬ p.remaining.finished = true)
      (ha : admits blk p.taker p.remaining m = true) :
      Stepped ⟨b, some p⟩ (blk, .nextMatch)
        ⟨settleFill blk b p.taker p.remaining m (computeFillAmounts blk p.taker p.remaining m),
          some ⟨p.taker, p.remaining.after (computeFillAmounts blk p.taker p.remaining m).giveAmount
            (computeFillAmounts blk p.taker p.remaining m).getAmount, ms⟩⟩

theorem stepped_of_handle {blk : Block} {b : Book} {ev : Event} {s' : State}
    (h : handle blk b ev = some s') : Stepped ⟨b, none⟩ (blk, ev) s' := by
  cases ev with
  | create sp =>
    simp only [handle] at h
    split_ifs at h with hacc
    obtain ⟨⟩ := h
    exact .create hacc
  | cancel source idx =>
    simp only [handle] at h
    split at h
    · rename_i info hinfo
      split_ifs at h with hown
      obtain ⟨⟩ := h
      exact .cancel hinfo hown.2
    · simp at h
  | edit source idx expiration allowList blockList =>
    simp only [handle] at h
    split at h
    · rename_i o hfind
      split_ifs at h with hown
      obtain ⟨⟩ := h
      exact .edit hfind hown.2
    · simp at h
  | beginMatch idx =>
    simp only [handle, map_eq_some_iff] at h
    obtain ⟨p, hp, rfl⟩ := h
    exact .beginMatch hp
  | nextMatch => simp [handle] at h
  | coinpay idx =>
    simp only [handle] at h
    split at h
    · rename_i m ob hm hob
      split_ifs at h with hpend
      obtain ⟨⟩ := h
      obtain ⟨hmem, hidx⟩ := mem_of_findMatch hm
      exact .coinpay hm hmem (pending_of_findObligation hidx hob hpend.1)
    · simp at h
  | coinpayExpire idx =>
    simp only [handle] at h
    split at h
    · rename_i m ob hm hob
      split_ifs at h with hpend
      obtain ⟨⟩ := h
      obtain ⟨hmem, hidx⟩ := mem_of_findMatch hm
      exact .coinpayExpire hm hmem (pending_of_findObligation hidx hob hpend.1)
    · simp at h
  | orderExpire idx =>
    simp only [handle] at h
    split at h
    · rename_i info hinfo
      split_ifs at h with hdue
      obtain ⟨⟩ := h
      exact .orderExpire hinfo hdue.1
    · simp at h
  | sweep source destination orders =>
    simp only [handle] at h
    split_ifs at h with hlist
    obtain ⟨⟩ := h
    refine .sweep hlist.1 fun idx hidx => ?_
    obtain ⟨o, ho, _⟩ := (any_eq_true _ _).mp (hlist.2 idx hidx)
    exact ⟨o, ho⟩

theorem stepped_nextMatch (blk : Block) (b : Book) (p : Pass) :
    Stepped ⟨b, some p⟩ (blk, .nextMatch) ⟨(nextMatch blk b p).1, (nextMatch blk b p).2⟩ := by
  unfold nextMatch
  cases hc : p.candidates with
  | nil => exact .stop
  | cons m ms =>
    dsimp only
    by_cases hfin : (p.remaining.give ≤ 0 || p.remaining.get ≤ 0) = true
    · rw [if_pos hfin]
      exact .stop
    · rw [if_neg hfin]
      unfold fillMatch
      by_cases ha : admits blk p.taker p.remaining m = true
      · rw [if_pos ha]
        exact .fill hc (not_finished hfin) ha
      · rw [if_neg ha]
        exact .skip hc

variable {e : Block × Event} {s s' : State}

/-- **Inversion of the step function.** -/
theorem stepped_of_step (h : step s e = some s') : Stepped s e s' := by
  obtain ⟨blk, ev⟩ := e
  obtain ⟨b, pass⟩ := s
  cases pass with
  | none => exact stepped_of_handle h
  | some p =>
    cases ev with
    | nextMatch =>
      simp only [step, some.injEq] at h
      exact h ▸ stepped_nextMatch blk b p
    | _ => simp [step] at h

/-- A pass that a step leaves fits the book that it leaves. -/
theorem passOk_step (h : Stepped s e s') (hk : Keys s.book)
    (hpass : ∀ p, s.pass = some p → PassOk s.book p) : ∀ q, s'.pass = some q → PassOk s'.book q := by
  intro q hq
  cases h with
  | beginMatch hbegin => exact some.inj hq ▸ passOk_beginMatch hk hbegin
  | skip hc => exact some.inj hq ▸ (hpass _ rfl).skip hc
  | fill hc hfin ha =>
    have hp := hpass _ rfl
    exact some.inj hq ▸ passOk_settleFill hp hc (hp.meets hc hfin ha) hk _
  | _ => simp at hq

theorem keys_init : Keys init.book := by
  constructor <;> simp [init]

end XChainIndexer.Orders.Steps
