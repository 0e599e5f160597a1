import Mathlib.Data.List.Forall2

/-! # Chains of checks

What the success of checks in a row says: each of them succeeded (`map_ok`, `bind_ok`), and of a check of
all elements of a list, that every element passed (`mapM_ok`). -/

namespace XChainIndexer.Lib.Outcome

open List

variable {ε α β : Type} {x : Except ε α} {b : β}

theorem map_ok {f : α → β} (h : x.map f = .ok b) : ∃ a, x = .ok a ∧ f a = b := by
  cases x with
  | error e => cases h
  | ok a => exact ⟨a, rfl, Except.ok.inj h⟩

theorem bind_ok {f : α → Except ε β} (h : x.bind f = .ok b) : ∃ a, x = .ok a ∧ f a = .ok b := by
  cases x with
  | error e => cases h
  | ok a => exact ⟨a, rfl, h⟩

section
variable {α β : Type} {f : α → Option β} {l : List α} {l' : List β} (h : l.mapM f = some l')
include h

/-- Mapping a partial function over a list: the results are those of the elements, one by one. -/
theorem forall₂_of_mapM : List.Forall₂ (fun a b => f a = some b) l l' := by
  induction l generalizing l' with
  | nil =>
    obtain ⟨⟩ := h
    exact .nil
  | cons a l ih =>
    simp only [mapM_cons, Option.bind_eq_bind, Option.bind_eq_some_iff, Option.pure_def,
      Option.some.injEq] at h
    obtain ⟨b, hb, rest, hrest, rfl⟩ := h
    exact .cons hb (ih hrest)

theorem mem_of_mapM : (∀ a ∈ l, ∃ b ∈ l', f a = some b) ∧ ∀ b ∈ l', ∃ a ∈ l, f a = some b := by
  have hall := forall₂_of_mapM h
  clear h
  induction hall with
  | nil => exact ⟨nofun, nofun⟩
  | cons hab _ ih =>
    simp only [mem_cons, exists_eq_or_imp, forall_eq_or_imp]
    exact ⟨⟨.inl hab, fun x hx => .inr (ih.1 x hx)⟩, .inl hab, fun y hy => .inr (ih.2 y hy)⟩

end

section mapM
variable {α β ε : Type} {bad : α → Prop} [DecidablePred bad] {e : α → ε} {g : α → β}
  {check : α → Except ε β} (hcheck : ∀ x, check x = if bad x then .error (e x) else .ok (g x))
include hcheck

variable {l : List α}

/-- Mapping a check over a list: all pass, and the results are those of the elements. -/
theorem mapM_ok {l' : List β} (h : l.mapM check = .ok l') : (∀ x ∈ l, ¬ bad x) ∧ l' = l.map g := by
  induction l generalizing l' with
  | nil =>
    exact ⟨by simp, (Except.ok.inj h).symm⟩
  | cons x l ih =>
    rw [mapM_cons, hcheck] at h
    by_cases hx : bad x
    · rw [if_pos hx] at h
      cases h
    · rw [if_neg hx] at h
      cases hrest : l.mapM check with
      | error err =>
        rw [hrest] at h
        cases h
      | ok rest =>
        rw [hrest] at h
        obtain ⟨hall, rfl⟩ := ih hrest
        exact ⟨forall_mem_cons.mpr ⟨hx, hall⟩, (Except.ok.inj h).symm⟩

theorem mapM_of_forall (h : ∀ x ∈ l, ¬ bad x) : l.mapM check = .ok (l.map g) := by
  induction l with
  | nil => rfl
  | cons x l ih =>
    rw [forall_mem_cons] at h
    rw [mapM_cons, hcheck, if_neg h.1, ih h.2]
    rfl

end mapM

end XChainIndexer.Lib.Outcome
