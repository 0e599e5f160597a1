import Mathlib.Data.List.Nodup
import Mathlib.Order.Nat

/-! # A log of statuses, cut at an index

Items have an index, a kind that never changes and a status that does. Each action takes an index and
logs the status of every item it changed. `Logged` says that the log's latest row of an item has its
status, and `isHeld_iff` reads that off the log the way a query with `MAX(action)` does.

Cutting the log and the items at an index undoes all later actions: they only add rows at or above it
(`cut_log`), and they keep which items below it there are (`KeepsBelow`). -/

namespace XChainIndexer.Lib.StatusLog

open List

/-- The status an action gave an item. -/
structure Row (σ : Type*) where
  action : ℕ
  item : ℕ
  status : σ
deriving DecidableEq

variable {A K σ : Type*}

/-! ### The items below an index -/

/-- The items below `n` are the same, and of the same kinds. -/
def KeepsBelow (index : A → ℕ) (kind : A → K) (n : ℕ) (l l' : List A) : Prop :=
  ∀ i < n, ∀ k, (∃ a ∈ l', index a = i ∧ kind a = k) ↔ ∃ a ∈ l, index a = i ∧ kind a = k

section items

variable {index : A → ℕ} {kind : A → K} {n n' : ℕ} {l l' l'' : List A}

theorem KeepsBelow.refl (l : List A) : KeepsBelow index kind n l l := fun _ _ _ => Iff.rfl

theorem KeepsBelow.trans (h : KeepsBelow index kind n l l') (hn : n ≤ n')
    (h' : KeepsBelow index kind n' l' l'') : KeepsBelow index kind n l l'' := fun i hi k =>
  (h' i (hi.trans_le hn) k).trans (h i hi k)

theorem KeepsBelow.map {f : A → A} (hf : ∀ a, index (f a) = index a ∧ kind (f a) = kind a) :
    KeepsBelow index kind n l (l.map f) := by
  intro i _ k
  constructor
  · rintro ⟨a', ha', hi, hk⟩
    obtain ⟨a, ha, rfl⟩ := mem_map.mp ha'
    exact ⟨a, ha, (hf a).1 ▸ hi, (hf a).2 ▸ hk⟩
  · rintro ⟨a, ha, hi, hk⟩
    exact ⟨f a, mem_map_of_mem ha, (hf a).1.trans hi, (hf a).2.trans hk⟩

theorem KeepsBelow.append {a : A} (ha : n ≤ index a) : KeepsBelow index kind n l (l ++ [a]) := by
  intro i hi k
  constructor
  · rintro ⟨x, hx, hxi, hk⟩
    rcases mem_append.mp hx with hx | hx
    · exact ⟨x, hx, hxi, hk⟩
    · rw [mem_singleton.mp hx] at hxi
      omega
  · rintro ⟨x, hx, hrest⟩
    exact ⟨x, mem_append_left _ hx, hrest⟩

end items

/-! ### The log -/

section log

variable (index : A → ℕ) (status : A → σ)

/-- The rows of an action: one for each item that is new or whose status changed. -/
def written [DecidableEq σ] (action : ℕ) (old new : List A) : List (Row σ) :=
  (new.filter fun a => (old.find? fun x => index x = index a).map status ≠ some (status a)).map
    fun a => ⟨action, index a, status a⟩

/-- The log after a step that took the indices from `next` up to `next'`. One that took none wrote
nothing. -/
def log [DecidableEq σ] (next next' : ℕ) (old new : List A) (rows : List (Row σ)) : List (Row σ) :=
  if next < next' then rows ++ written index status (next' - 1) old new else rows

/-- The latest status of the item is one of the `live` ones. -/
def isHeld (live : σ → Bool) (rows : List (Row σ)) (item : ℕ) : Bool :=
  rows.any fun r => r.item = item && live r.status &&
    rows.all fun x => x.item ≠ item || x.action ≤ r.action

def cut (n : ℕ) (rows : List (Row σ)) : List (Row σ) := rows.filter fun r => r.action < n

/-- Every item has a latest row, with its status. -/
structure Logged (next : ℕ) (l : List A) (rows : List (Row σ)) : Prop where
  lt : ∀ r ∈ rows, r.action < next
  last : ∀ a ∈ l, ∃ r ∈ rows, r.item = index a ∧ r.status = status a ∧
    ∀ x ∈ rows, x.item = index a → x.action < r.action ∨ x = r

variable {index status} {next next' n : ℕ} {old new l : List A} {rows : List (Row σ)}

theorem mem_written [DecidableEq σ] {action : ℕ} {r : Row σ} (h : r ∈ written index status action old new) :
    ∃ a ∈ new, r = ⟨action, index a, status a⟩ ∧
      (old.find? fun x => index x = index a).map status ≠ some (status a) := by
  obtain ⟨a, ha, rfl⟩ := mem_map.mp h
  obtain ⟨hmem, hne⟩ := mem_filter.mp ha
  exact ⟨a, hmem, rfl, of_decide_eq_true hne⟩

/-- Later actions write nothing below the index. -/
theorem cut_log [DecidableEq σ] (hn : n ≤ next) :
    cut n (log index status next next' old new rows) = cut n rows := by
  unfold log
  split_ifs with hlt
  · unfold cut
    rw [filter_append, append_right_eq_self]
    refine filter_eq_nil_iff.mpr fun r hr => ?_
    obtain ⟨a, _, rfl, _⟩ := mem_written hr
    simp only [decide_eq_true_eq]
    omega
  · rfl

theorem Logged.cut_self (h : Logged index status next l rows) : cut next rows = rows :=
  filter_eq_self.mpr fun r hr => decide_eq_true (h.lt r hr)

/-- The latest row of an item tells its status. -/
theorem Logged.isHeld_iff (h : Logged index status next l rows) {a : A} (ha : a ∈ l) (live : σ → Bool) :
    isHeld live rows (index a) = live (status a) := by
  obtain ⟨r, hr, hitem, hstatus, hlast⟩ := h.last a ha
  unfold isHeld
  rw [Bool.eq_iff_iff, any_eq_true]
  simp only [Bool.and_eq_true, all_eq_true, Bool.or_eq_true, decide_eq_true_eq]
  constructor
  · rintro ⟨x, hx, ⟨hxi, hlive⟩, hmax⟩
    rcases hlast x hx hxi with hlt | rfl
    · have := (hmax r hr).resolve_left (not_not.mpr hitem)
      omega
    · rwa [← hstatus]
  · intro hlive
    refine ⟨r, hr, ⟨hitem, hstatus ▸ hlive⟩, fun x hx => ?_⟩
    by_cases hxi : x.item = index a
    · rcases hlast x hx hxi with hlt | rfl
      · exact .inr hlt.le
      · exact .inr le_rfl
    · exact .inl hxi

/-- A row of a new action is the latest of its item. -/
theorem isHeld_append (hlt : ∀ r ∈ rows, r.action < next) (live : σ → Bool) (item i : ℕ) (st : σ) :
    isHeld live (rows ++ [⟨next, item, st⟩]) i = if i = item then live st else isHeld live rows i := by
  unfold isHeld
  split_ifs with hi
  · grind
  · grind

/-- A step that takes no index changes no item; one that does logs what it changed. -/
theorem Logged.log [DecidableEq σ] (h : Logged index status next old rows) (hle : next ≤ next')
    (hnd : (new.map index).Nodup) (hsame : next' = next → new = old) :
    Logged index status next' new (log index status next next' old new rows) := by
  unfold StatusLog.log
  split_ifs with hlt
  swap
  · have heq : next' = next := by omega
    rw [hsame heq, heq]
    exact h
  constructor
  · intro r hr
    rcases mem_append.mp hr with hr | hr
    · exact (h.lt r hr).trans hlt
    · obtain ⟨a, _, rfl, _⟩ := mem_written hr
      show next' - 1 < next'
      omega
  · intro a ha
    by_cases hold : (old.find? fun x => index x = index a).map status = some (status a)
    · -- the item kept its status: its row is still the latest
      obtain ⟨x, hx, hxs⟩ := Option.map_eq_some_iff.mp hold
      have hxi : index x = index a := by simpa using find?_some hx
      obtain ⟨r, hr, hitem, hstatus, hlast⟩ := h.last x (mem_of_find?_eq_some hx)
      refine ⟨r, mem_append_left _ hr, hitem.trans hxi, hstatus.trans hxs, fun y hy hyi => ?_⟩
      rcases mem_append.mp hy with hy | hy
      · exact hlast y hy (hyi.trans hxi.symm)
      · obtain ⟨b, hb, rfl, hne⟩ := mem_written hy
        rw [inj_on_of_nodup_map hnd hb ha hyi] at hne
        exact absurd hold hne
    · refine ⟨⟨next' - 1, index a, status a⟩, mem_append_right _ ?_, rfl, rfl, fun y hy hyi => ?_⟩
      · exact mem_map.mpr ⟨a, mem_filter.mpr ⟨ha, decide_eq_true hold⟩, rfl⟩
      · rcases mem_append.mp hy with hy | hy
        · have := h.lt y hy
          exact .inl (show y.action < next' - 1 by omega)
        · obtain ⟨b, hb, rfl, _⟩ := mem_written hy
          rw [inj_on_of_nodup_map hnd hb ha hyi]
          exact .inr rfl

end log

end XChainIndexer.Lib.StatusLog
