import Mathlib.Data.List.Basic

/-! Runs of a labelled step function, under a rule on the steps.

A system is a partial step function on its states: `step s e = some s'` when the
event `e` can happen in `s` and leaves `s'`. A *rule* is asked of every step, on
the state before it and the event; the rule that asks nothing (`Free`) gives all
runs. `Reach` is what such runs reach, and `Reach.invariant` is the induction
that turns what one step preserves into what every run preserves. `play` runs a
given list of events, so that a run can be shown by computing it. -/
namespace AnarchoRedis.Base

variable {σ ε : Type}

/-- What a run from `s₀` reaches when every step of it meets the rule. -/
inductive Reach (step : σ → ε → Option σ) (Rule : σ → ε → Prop) (s₀ : σ) : σ → Prop where
  | start : Reach step Rule s₀ s₀
  | next {s s' : σ} {e : ε} : Reach step Rule s₀ s → Rule s e → step s e = some s' → Reach step Rule s₀ s'

/-- The rule that asks nothing. -/
def Free (_ : σ) (_ : ε) : Prop := True

section
variable {step : σ → ε → Option σ} {Rule : σ → ε → Prop} {s₀ s t : σ}

/-- **What every ruled step preserves, every ruled run preserves.** -/
theorem Reach.invariant (Inv : σ → Prop) (h₀ : Inv s₀)
    (hstep : ∀ s e s', Inv s → Rule s e → step s e = some s' → Inv s')
    (h : Reach step Rule s₀ s) : Inv s := by
  induction h with
  | start => exact h₀
  | next _ hr hs ih => exact hstep _ _ _ ih hr hs

theorem Reach.trans (h : Reach step Rule s₀ s) (h' : Reach step Rule s t) : Reach step Rule s₀ t := by
  induction h' with
  | start => exact h
  | next _ hr hs ih => exact .next ih hr hs

/-- A system refines another when each of its steps is a run of the other, seen
through `f`. -/
theorem Reach.refines {τ δ : Type} {step' : τ → δ → Option τ} {Rule' : τ → δ → Prop} (f : σ → τ)
    (hstep : ∀ s e s', step s e = some s' → Reach step' Rule' (f s) (f s'))
    (h : Reach step Rule s₀ s) : Reach step' Rule' (f s₀) (f s) := by
  induction h with
  | start => exact .start
  | next _ _ hs ih => exact ih.trans (hstep _ _ _ hs)

end

/-- The events in order, as long as each is possible and passes a check. -/
def play (step : σ → ε → Option σ) (check : σ → ε → Bool) : σ → List ε → Option σ
  | s, [] => some s
  | s, e :: rest => if check s e then (step s e).bind fun s' => play step check s' rest else none

/-- A played list is a run, under any rule the check implies. -/
theorem reach_of_play {step : σ → ε → Option σ} {check : σ → ε → Bool} {Rule : σ → ε → Prop} {s₀ s : σ}
    (hcheck : ∀ s e, check s e = true → Rule s e) (events : List ε)
    (h : play step check s₀ events = some s) : Reach step Rule s₀ s := by
  induction events generalizing s₀ with
  | nil =>
    cases h
    exact .start
  | cons e rest ih =>
    simp only [play] at h
    split at h
    · rename_i hc
      obtain ⟨s', hs, hrest⟩ := Option.bind_eq_some_iff.mp h
      exact (Reach.next .start (hcheck _ _ hc) hs).trans (ih hrest)
    · cases h

/-- A run that can be played, and what is found to hold at its end. -/
theorem exists_reach_of_play (step : σ → ε → Option σ) (check : σ → ε → Bool) {Rule : σ → ε → Prop}
    (hcheck : ∀ s e, check s e = true → Rule s e) (s₀ : σ) (events : List ε) (found : σ → Bool)
    (h : (play step check s₀ events).any found = true) : ∃ s, Reach step Rule s₀ s ∧ found s = true := by
  obtain ⟨s, hs, hf⟩ := (Option.any_eq_true _ _).mp h
  exact ⟨s, reach_of_play hcheck events hs, hf⟩

/-- A run that can be played, one that can be played after it, and what is found to
hold of their ends. -/
theorem exists_reach_of_play_then (step : σ → ε → Option σ) (check : σ → ε → Bool) {Rule : σ → ε → Prop}
    (hcheck : ∀ s e, check s e = true → Rule s e) (s₀ : σ) (events later : List ε) (found : σ → σ → Bool)
    (h : (play step check s₀ events).any (fun s => (play step check s later).any (found s)) = true) :
    ∃ s t, Reach step Rule s₀ s ∧ Reach step Rule s t ∧ found s t = true := by
  obtain ⟨s, hs, hlater⟩ := exists_reach_of_play step check hcheck s₀ events _ h
  obtain ⟨t, ht, hf⟩ := exists_reach_of_play step check hcheck s later (found s) hlater
  exact ⟨s, t, hs, ht, hf⟩

end AnarchoRedis.Base
