import Mathlib.Data.List.Basic
import Mathlib.Data.List.Pairwise

/-! # Savepoints of a transaction

A transaction is the data as it stands with a stack of named savepoints, the newest first.
`ROLLBACK TO` takes the data of a savepoint back and forgets the later ones. Two rules carry an
invariant through the operations: a property of the data that every write keeps holds of the current
data and of all that is saved (`Tx.All`), and data that only grows along the writes has grown from
every savepoint on (`Tx.Grown`). -/

namespace XChainIndexer.Lib.Savepoint

open List

structure Tx (N D : Type*) where
  cur : D
  saves : List (N × D)

variable {N D : Type*}

def Tx.write (tx : Tx N D) (d : D) : Tx N D := { tx with cur := d }

/-- The property holds of the data and of all that is saved. -/
def Tx.All (P : D → Prop) (tx : Tx N D) : Prop := P tx.cur ∧ ∀ s ∈ tx.saves, P s.2

/-- The data has grown from each savepoint to the next and to what it is now. -/
def Tx.Grown (R : D → D → Prop) (tx : Tx N D) : Prop :=
  (tx.cur :: tx.saves.map Prod.snd).Pairwise fun newer older => R older newer

section operations

variable [DecidableEq N]

/-- `SAVEPOINT name`; an older one of that name is forgotten. -/
def Tx.savepoint (tx : Tx N D) (name : N) : Tx N D :=
  { tx with saves := (name, tx.cur) :: tx.saves.filter fun s => s.1 ≠ name }

/-- The savepoint `name` and those before it. -/
def Tx.upTo (tx : Tx N D) (name : N) : List (N × D) := tx.saves.dropWhile fun s => s.1 ≠ name

/-- `ROLLBACK TO SAVEPOINT name`, an error without such a savepoint. -/
def Tx.rollbackTo (tx : Tx N D) (name : N) : Option (Tx N D) :=
  match tx.upTo name with
  | [] => none
  | s :: older => some ⟨s.2, s :: older⟩

/-- `RELEASE SAVEPOINT name`. -/
def Tx.release (tx : Tx N D) (name : N) : Option (Tx N D) :=
  match tx.upTo name with
  | [] => none
  | _ :: older => some ⟨tx.cur, older⟩

end operations

variable {P : D → Prop} {R : D → D → Prop} {tx tx' : Tx N D} {name : N}

theorem Tx.Grown.of_save (h : tx.Grown R) {s : N × D} (hs : s ∈ tx.saves) : R s.2 tx.cur :=
  (pairwise_cons.mp h).1 s.2 (mem_map_of_mem hs)

theorem Tx.All.write (h : tx.All P) {d : D} (hd : P d) : (tx.write d).All P := ⟨hd, h.2⟩

theorem Tx.Grown.write (htrans : ∀ {a b c}, R a b → R b c → R a c) (h : tx.Grown R) {d : D}
    (hd : R tx.cur d) : (tx.write d).Grown R := by
  obtain ⟨hcur, hsaves⟩ := pairwise_cons.mp h
  exact pairwise_cons.mpr ⟨fun a ha => htrans (hcur a ha) hd, hsaves⟩

variable [DecidableEq N]

theorem Tx.upTo_sublist (tx : Tx N D) (name : N) : (tx.upTo name).Sublist tx.saves :=
  dropWhile_sublist _

theorem Tx.rollbackTo_some (hr : tx.rollbackTo name = some tx') :
    ∃ s older, (s :: older).Sublist tx.saves ∧ tx' = ⟨s.2, s :: older⟩ := by
  unfold Tx.rollbackTo at hr
  split at hr
  · simp at hr
  · rename_i s older hup
    exact ⟨s, older, hup ▸ tx.upTo_sublist name, (Option.some.inj hr).symm⟩

theorem Tx.release_some (hr : tx.release name = some tx') :
    ∃ older, older.Sublist tx.saves ∧ tx' = ⟨tx.cur, older⟩ := by
  unfold Tx.release at hr
  split at hr
  · simp at hr
  · rename_i s older hup
    exact ⟨older, (sublist_cons_self s older).trans (hup ▸ tx.upTo_sublist name), (Option.some.inj hr).symm⟩

theorem Tx.All.savepoint (h : tx.All P) (name : N) : (tx.savepoint name).All P := by
  refine ⟨h.1, fun s hs => ?_⟩
  rcases mem_cons.mp hs with rfl | hs
  · exact h.1
  · exact h.2 s (mem_of_mem_filter hs)

theorem Tx.All.rollbackTo (h : tx.All P) (hr : tx.rollbackTo name = some tx') : tx'.All P := by
  obtain ⟨s, older, hsub, rfl⟩ := Tx.rollbackTo_some hr
  exact ⟨h.2 s (hsub.subset mem_cons_self), fun x hx => h.2 x (hsub.subset hx)⟩

theorem Tx.All.release (h : tx.All P) (hr : tx.release name = some tx') : tx'.All P := by
  obtain ⟨older, hsub, rfl⟩ := Tx.release_some hr
  exact ⟨h.1, fun x hx => h.2 x (hsub.subset hx)⟩

theorem Tx.Grown.savepoint (hrefl : ∀ a, R a a) (h : tx.Grown R) (name : N) :
    (tx.savepoint name).Grown R := by
  have hsub : ((tx.cur :: (tx.saves.filter fun s => s.1 ≠ name).map Prod.snd)).Sublist
      (tx.cur :: tx.saves.map Prod.snd) := (filter_sublist.map _).cons_cons _
  have hrest := List.Pairwise.sublist hsub h
  refine pairwise_cons.mpr ⟨fun a ha => ?_, hrest⟩
  rcases mem_cons.mp ha with rfl | ha
  · exact hrefl _
  · exact (pairwise_cons.mp hrest).1 a ha

theorem Tx.Grown.rollbackTo (hrefl : ∀ a, R a a) (h : tx.Grown R)
    (hr : tx.rollbackTo name = some tx') : tx'.Grown R := by
  obtain ⟨s, older, hsub, rfl⟩ := Tx.rollbackTo_some hr
  have hrest := List.Pairwise.sublist (hsub.map Prod.snd) (pairwise_cons.mp h).2
  refine pairwise_cons.mpr ⟨fun a ha => ?_, hrest⟩
  rcases mem_cons.mp ha with rfl | ha
  · exact hrefl _
  · exact (pairwise_cons.mp hrest).1 a ha

theorem Tx.Grown.release (h : tx.Grown R) (hr : tx.release name = some tx') : tx'.Grown R := by
  obtain ⟨older, hsub, rfl⟩ := Tx.release_some hr
  exact List.Pairwise.sublist ((hsub.map Prod.snd).cons_cons tx.cur) h

theorem Tx.release_cur (hr : tx.release name = some tx') : tx'.cur = tx.cur := by
  obtain ⟨older, -, rfl⟩ := Tx.release_some hr
  rfl

theorem Tx.rollbackTo_head (hr : tx.rollbackTo name = some tx') :
    ∃ s, (tx.upTo name).head? = some s ∧ tx'.cur = s.2 := by
  unfold Tx.rollbackTo at hr
  split at hr
  · simp at hr
  · rename_i s older hup
    rw [Option.some.injEq] at hr
    exact ⟨s, by rw [hup]; rfl, by rw [← hr]⟩

theorem Tx.rollbackTo_mem (hr : tx.rollbackTo name = some tx') : ∃ s ∈ tx.saves, tx'.cur = s.2 := by
  obtain ⟨s, hs, hcur⟩ := Tx.rollbackTo_head hr
  exact ⟨s, (tx.upTo_sublist name).subset (mem_of_head? hs), hcur⟩

end XChainIndexer.Lib.Savepoint
