import Mathlib.Tactic

/-! # Runs of a partial step function

`run step s es` carries the events `es` out from `s`, `none` as soon as one is refused. `Reaches`
is the set of states reached by events that all meet a condition on the state before them;
`Reaches.invariant` is the induction rule every safety result uses. -/

namespace XChainIndexer.Lib.Run

open List Option

variable {σ ε : Type} {step : σ → ε → Option σ} {ok : σ → ε → Prop}

/-- The state after the events, if none is refused. -/
def run (step : σ → ε → Option σ) : σ → List ε → Option σ
  | s, [] => some s
  | s, e :: es => (step s e).bind fun s' => run step s' es

theorem run_append (step : σ → ε → Option σ) (s : σ) (es es' : List ε) :
    run step s (es ++ es') = (run step s es).bind fun s' => run step s' es' := by
  induction es generalizing s with
  | nil => rfl
  | cons e es ih => simp only [cons_append, run, ih, bind_assoc]

/-- The states reached from `init` by accepted events that meet `ok`. -/
inductive Reaches (step : σ → ε → Option σ) (ok : σ → ε → Prop) (init : σ) : σ → Prop
  | init : Reaches step ok init init
  | next {s s' : σ} {e : ε} :
      Reaches step ok init s → ok s e → step s e = some s' → Reaches step ok init s'

/-- A property of what a run ends in can be computed. -/
instance decidableExistsSome {P : σ → Prop} [DecidablePred P] (o : Option σ) :
    Decidable (∃ s, o = some s ∧ P s) :=
  decidable_of_iff (o.any (fun s => decide (P s)) = true) (by simp [Option.any_eq_true])

instance decidableForallSome {P : σ → Prop} [DecidablePred P] (o : Option σ) :
    Decidable (∀ s, o = some s → P s) :=
  decidable_of_iff (o.all (fun s => decide (P s)) = true) (by simp [Option.all_eq_true])

variable {init s : σ}

/-- **The invariant rule.** What holds initially and is kept by every event that meets the
condition holds in every state reached. -/
theorem Reaches.invariant {Inv : σ → Prop} (h : Reaches step ok init s) (h0 : Inv init)
    (hstep : ∀ s e s', ok s e → step s e = some s' → Inv s → Inv s') : Inv s := by
  induction h with
  | init => exact h0
  | next _ hok hs ih => exact hstep _ _ _ hok hs ih

theorem Reaches.mono {ok' : σ → ε → Prop} (h : Reaches step ok init s)
    (hok : ∀ s e, ok s e → ok' s e) : Reaches step ok' init s := by
  induction h with
  | init => exact .init
  | next _ he hs ih => exact ih.next (hok _ _ he) hs

variable {s' : σ}

theorem Reaches.trans (h : Reaches step ok init s) (h' : Reaches step ok s s') : Reaches step ok init s' := by
  induction h' with
  | init => exact h
  | next _ he hs ih => exact ih.next he hs

variable {es : List ε}

theorem Reaches.of_run (h : Reaches step ok init s) (hok : ∀ e ∈ es, ∀ s, ok s e)
    (hr : run step s es = some s') : Reaches step ok init s' := by
  induction es generalizing s with
  | nil =>
    rw [run, some.injEq] at hr
    exact hr ▸ h
  | cons e es ih =>
    rw [run, bind_eq_some_iff] at hr
    obtain ⟨s1, h1, h2⟩ := hr
    exact ih (h.next (hok e (by simp) s) h1) (fun e' he' => hok e' (by simp [he'])) h2

/-- A run with a check at every step is a run. -/
theorem run_of_checked {ok : σ → ε → Prop} [∀ s e, Decidable (ok s e)]
    (hr : run (fun s e => if ok s e then step s e else none) s es = some s') : run step s es = some s' := by
  induction es generalizing s with
  | nil => exact hr
  | cons e es ih =>
    rw [run, bind_eq_some_iff] at hr ⊢
    obtain ⟨s1, h1, h2⟩ := hr
    split_ifs at h1
    exact ⟨s1, h1, ih h2⟩

/-- A run with a check at every step that gives the condition on its events. -/
theorem Reaches.of_run_checked {check : σ → ε → Prop} [∀ s e, Decidable (check s e)]
    (h : Reaches step ok init s) (hok : ∀ e ∈ es, ∀ s, check s e → ok s e)
    (hr : run (fun s e => if check s e then step s e else none) s es = some s') :
    Reaches step ok init s' := by
  induction es generalizing s with
  | nil =>
    rw [run, some.injEq] at hr
    exact hr ▸ h
  | cons e es ih =>
    rw [run, bind_eq_some_iff] at hr
    obtain ⟨s1, h1, h2⟩ := hr
    split_ifs at h1 with hcheck
    exact ih (h.next (hok e (by simp) s hcheck) h1) (fun e' he' => hok e' (by simp [he'])) h2

/-- A run on which the condition was checked at every step. -/
theorem Reaches.of_checked [∀ s e, Decidable (ok s e)] (h : Reaches step ok init s)
    (hr : run (fun s e => if ok s e then step s e else none) s es = some s') : Reaches step ok init s' :=
  h.of_run_checked (fun _ _ _ hcheck => hcheck) hr

/-! ### Rolling back -/

/-- An event, or a rollback of everything from an index on. -/
inductive Move (ε : Type)
  | event (e : ε)
  | rollback (first : ℕ)

/-- A step of a system whose events take the indices from `next` on. -/
def replay (step : σ → ε → Option σ) (next : σ → ℕ) (undo : ℕ → σ → σ) (start : ℕ) (s : σ) :
    Move ε → Option σ
  | .event e => step s e
  | .rollback first => if start ≤ first ∧ first ≤ next s then some (undo first s) else none

/-- The events that no later rollback undoes. -/
def surviving (start : ℕ) (ms : List (Move ε)) : List ε :=
  ms.foldl (fun kept m => match m with
    | .event e => kept ++ [e]
    | .rollback first => kept.take (first - start)) []

/-- Undoing what was not done yet changes nothing, and a later event leaves nothing behind. -/
structure Undoes (step : σ → ε → Option σ) (next : σ → ℕ) (undo : ℕ → σ → σ) (Inv : σ → Prop) :
    Prop where
  one : ∀ {s e s'}, step s e = some s' → next s' = next s + 1
  kept : ∀ {s e s'}, step s e = some s' → Inv s → Inv s'
  self : ∀ {s}, Inv s → undo (next s) s = s
  later : ∀ {s e s' n}, step s e = some s' → Inv s → n ≤ next s → undo n s' = undo n s

section undo

variable {next : σ → ℕ} {undo : ℕ → σ → σ} {Inv : σ → Prop} {init s : σ}

section
variable (h : Undoes step next undo Inv) (h0 : Inv init)
include h h0

theorem Undoes.run_take {es : List ε}
    (hr : run step init es = some s) : Inv s ∧ next s = next init + es.length ∧
      ∀ n, next init ≤ n → n ≤ next s → run step init (es.take (n - next init)) = some (undo n s) := by
  induction es using List.reverseRecOn generalizing s with
  | nil =>
    obtain rfl : init = s := some.inj hr
    refine ⟨h0, rfl, fun n hn hn' => ?_⟩
    obtain rfl : n = next init := le_antisymm hn' hn
    rw [take_nil, h.self h0]
    rfl
  | append_singleton es e ih =>
    rw [run_append, bind_eq_some_iff] at hr
    obtain ⟨s', hs', he⟩ := hr
    obtain ⟨s'', hstep, hend⟩ := bind_eq_some_iff.mp he
    obtain rfl : s'' = s := some.inj hend
    obtain ⟨hi, hlen, htake⟩ := ih hs'
    have hone := h.one hstep
    refine ⟨h.kept hstep hi, by rw [length_append, length_singleton]; omega, fun n hn hn' => ?_⟩
    by_cases hlast : n = next s''
    · rw [hlast, h.self (h.kept hstep hi), take_of_length_le, run_append, hs']
      · exact he
      · rw [length_append, length_singleton]
        omega
    · rw [h.later hstep hi (by omega), take_append_of_le_length (by omega)]
      exact htake n hn (by omega)

/-- **Rolling back and going on** is the same as a run of the events that survive. -/
theorem Undoes.run_surviving {ms : List (Move ε)}
    (hr : run (replay step next undo (next init)) init ms = some s) :
    run step init (surviving (next init) ms) = some s := by
  induction ms using List.reverseRecOn generalizing s with
  | nil => exact hr
  | append_singleton ms m ih =>
    rw [run_append, bind_eq_some_iff] at hr
    obtain ⟨s', hs', hm⟩ := hr
    have hkept := ih hs'
    unfold surviving at hkept ⊢
    rw [foldl_append]
    cases m with
    | event e =>
      rw [foldl_cons, foldl_nil, run_append, hkept]
      exact hm
    | rollback first =>
      obtain ⟨s'', hstep, hend⟩ := bind_eq_some_iff.mp hm
      obtain rfl : s'' = s := some.inj hend
      simp only [replay] at hstep
      split_ifs at hstep with hfirst
      rw [← some.inj hstep]
      exact (h.run_take h0 hkept).2.2 first hfirst.1 hfirst.2

end

end undo

end XChainIndexer.Lib.Run
