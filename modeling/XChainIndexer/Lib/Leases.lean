import Mathlib.Tactic

/-! # Leases

A lease gives a key to an owner from a height on, up to a height that may be set later. `Exclusive b ls`
says that leases of one key to different owners are apart: one had stopped, by `b`, when the other
began. It is kept when leases are given an end (`Exclusive.ended`) and when a key is leased to an owner
while nobody else holds it (`Exclusive.granted`), and it gives what leases are for: at no height does
a key have two owners (`Exclusive.owner_eq`). -/

namespace XChainIndexer.Lib.Leases

structure Lease (κ ω : Type) where
  key : κ
  owner : ω
  start : ℕ
  stop : Option ℕ

variable {κ ω : Type} {x x' x'' y y' l : Lease κ ω} {ls ls' : List (Lease κ ω)} {b b' e h : ℕ}

def ActiveAt (l : Lease κ ω) (h : ℕ) : Prop := l.start ≤ h ∧ ∀ d ∈ l.stop, h < d

/-- The lease has stopped by `b`. -/
def StoppedBy (l : Lease κ ω) (b : ℕ) : Prop := ∃ d ∈ l.stop, d ≤ b

/-- `x'` is `x`, perhaps with the end `e` where it had none. -/
structure Ends (e : ℕ) (x x' : Lease κ ω) : Prop where
  key : x'.key = x.key
  owner : x'.owner = x.owner
  start : x'.start = x.start
  stop : x'.stop = x.stop ∨ x.stop = none ∧ x'.stop = some e

/-- `x` had stopped, by `b`, when `y` began. -/
def Before (b : ℕ) (x y : Lease κ ω) : Prop := ∃ d ∈ x.stop, d ≤ b ∧ d ≤ y.start

/-- Leases of a key to different owners are apart. -/
def Exclusive (b : ℕ) (ls : List (Lease κ ω)) : Prop :=
  ∀ x ∈ ls, ∀ y ∈ ls, x.key = y.key → x.owner ≠ y.owner → Before b x y ∨ Before b y x

theorem Ends.refl (e : ℕ) (x : Lease κ ω) : Ends e x x := ⟨rfl, rfl, rfl, .inl rfl⟩

theorem Ends.trans (hx : Ends e x x') (hx' : Ends e x' x'') : Ends e x x'' := by
  refine ⟨hx'.key.trans hx.key, hx'.owner.trans hx.owner, hx'.start.trans hx.start, ?_⟩
  rcases hx.stop with hsame | ⟨hnone, hsome⟩
  · rw [← hsame]
    exact hx'.stop
  · rcases hx'.stop with hsame' | ⟨hnone', -⟩
    · exact .inr ⟨hnone, hsame'.trans hsome⟩
    · rw [hsome] at hnone'
      cases hnone'

/-- An end to come changes nothing before it. -/
theorem Ends.activeAt_iff (hx : Ends e x x') (hh : h < e) : ActiveAt x' h ↔ ActiveAt x h := by
  unfold ActiveAt
  rw [hx.start]
  rcases hx.stop with hsame | ⟨hnone, hsome⟩
  · rw [hsame]
  · simp [hnone, hsome, hh]

section
variable (hxy : Before b x y)
include hxy

theorem Before.mono (hb : b ≤ b') : Before b' x y := by
  obtain ⟨d, hd, hdb, hdy⟩ := hxy
  exact ⟨d, hd, hdb.trans hb, hdy⟩

theorem Before.stoppedBy : StoppedBy x b := by
  obtain ⟨d, hd, hdb, -⟩ := hxy
  exact ⟨d, hd, hdb⟩

/-- A lease that has stopped keeps its end. -/
theorem Before.ends (hx : Ends e x x') (hy : Ends e y y') : Before b x' y' := by
  obtain ⟨d, hd, hdb, hdy⟩ := hxy
  have hstop : x'.stop = x.stop := by
    rcases hx.stop with hsame | ⟨hnone, -⟩
    · exact hsame
    · rw [hnone] at hd
      cases hd
  exact ⟨d, hstop ▸ hd, hdb, hy.start ▸ hdy⟩

theorem Before.not_active (hx : ActiveAt x h) (hy : ActiveAt y h) : False := by
  obtain ⟨d, hd, -, hdy⟩ := hxy
  have hlt := hx.2 d hd
  have hle := hy.1
  omega

end

theorem Exclusive.nil : Exclusive b ([] : List (Lease κ ω)) := by simp [Exclusive]

section
variable (hex : Exclusive b ls)
include hex

theorem Exclusive.mono (hb : b ≤ b') : Exclusive b' ls :=
  fun x hx y hy hkey howner => (hex x hx y hy hkey howner).imp (·.mono hb) (·.mono hb)

section
variable (hx : x ∈ ls) (hy : y ∈ ls) (hkey : x.key = y.key)
include hx hy hkey

/-- The leases of a key that have not stopped are of one owner. -/
theorem Exclusive.owner_eq_of_not_stopped (hxs : ¬StoppedBy x b) (hys : ¬StoppedBy y b) : x.owner = y.owner := by
  by_contra howner
  rcases hex x hx y hy hkey howner with hxy | hyx
  · exact hxs hxy.stoppedBy
  · exact hys hyx.stoppedBy

/-- **At most one owner at a height.** -/
theorem Exclusive.owner_eq (hxa : ActiveAt x h) (hya : ActiveAt y h) : x.owner = y.owner := by
  by_contra howner
  rcases hex x hx y hy hkey howner with hxy | hyx
  · exact hxy.not_active hxa hya
  · exact hyx.not_active hya hxa

end

/-- Leases may be given an end. -/
theorem Exclusive.ended (hends : ∀ x' ∈ ls', ∃ x ∈ ls, Ends e x x') : Exclusive b ls' := by
  intro x' hx' y' hy' hkey howner
  obtain ⟨x, hx, hxe⟩ := hends x' hx'
  obtain ⟨y, hy, hye⟩ := hends y' hy'
  rw [hxe.key, hye.key] at hkey
  rw [hxe.owner, hye.owner] at howner
  exact (hex x hx y hy hkey howner).imp (·.ends hxe hye) (·.ends hye hxe)

/-- A key that nobody else holds may be leased, from now on. -/
theorem Exclusive.granted (hstart : b ≤ l.start)
    (hfree : ∀ x ∈ ls, x.key = l.key → ¬StoppedBy x b → x.owner = l.owner)
    (hends : ∀ x' ∈ ls', x' = l ∨ ∃ x ∈ ls, Ends e x x') : Exclusive b ls' := by
  -- whoever else had the key has stopped by now, and so before the new lease begins
  have hbefore : ∀ x' x, x ∈ ls → Ends e x x' → x'.key = l.key → x'.owner ≠ l.owner → Before b x' l := by
    intro x' x hx hxe hkey howner
    rw [hxe.key] at hkey
    rw [hxe.owner] at howner
    by_contra hnot
    refine howner (hfree x hx hkey fun ⟨d, hd, hdb⟩ => hnot ?_)
    exact Before.ends ⟨d, hd, hdb, hdb.trans hstart⟩ hxe (Ends.refl e l)
  intro x' hx' y' hy' hkey howner
  rcases hends x' hx' with rfl | ⟨x, hx, hxe⟩
  · rcases hends y' hy' with rfl | ⟨y, hy, hye⟩
    · exact absurd rfl howner
    · exact .inr (hbefore y' y hy hye hkey.symm howner.symm)
  · rcases hends y' hy' with rfl | ⟨y, hy, hye⟩
    · exact .inl (hbefore x' x hx hxe hkey howner)
    · rw [hxe.key, hye.key] at hkey
      rw [hxe.owner, hye.owner] at howner
      exact (hex x hx y hy hkey howner).imp (·.ends hxe hye) (·.ends hye hxe)

end

end XChainIndexer.Lib.Leases
