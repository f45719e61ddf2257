import Mathlib.Data.List.Basic
import AnarchoRedis.Base.Runs

/-! Data behind a mutex.

Every operation locks, takes its steps on the data one by one, and unlocks. Any number
of threads run such operations in any interleaving; steps that crash have no result. What
is to be shown of the data while the lock is free, and at any time, is shown of each
operation by itself (`Section`), and then holds in every run (`Critical.invariant`): who
looks at the data without the lock sees it between two steps, who takes the lock sees it
between two operations. -/
namespace AnarchoRedis.Base.Critical

section
variable {G Op σ : Type}

structure State (G Op σ : Type) where
  data : σ
  /-- Who holds the lock, for which operation, and the steps it has left. -/
  holder : Option (G × Op × List (σ → Option σ)) := none
  /-- The operations that are done, in order. -/
  done : List Op := []
  crashed : Bool := false

inductive Event (G Op : Type) where
  | lock (g : G) (op : Op)
  /-- The holder of the lock takes its next step. -/
  | step
  | unlock
  deriving DecidableEq

def step (code : Op → List (σ → Option σ)) (s : State G Op σ) : Event G Op → Option (State G Op σ)
  | .lock g op =>
    match s.holder with
    | none => some {s with holder := some (g, op, code op)}
    | some _ => none
  | .step =>
    match s.holder with
    | some (g, op, f :: rest) =>
      match f s.data with
      | some data => some {s with data := data, holder := some (g, op, rest)}
      | none => some {s with crashed := true, holder := some (g, op, [])}
    | _ => none
  | .unlock =>
    match s.holder with
    | some (_, op, []) => if s.crashed then none else some {s with holder := none, done := s.done ++ [op]}
    | _ => none

/-- From here the steps lead to `Free`, and all the time through `Always`. -/
def Section (Always Free : σ → Prop) : List (σ → Option σ) → σ → Prop
  | [], d => Free d
  | f :: rest, d => ∃ d', f d = some d' ∧ Always d' ∧ Section Always Free rest d'

/-- What holds of the data at any time, and while the lock is free. -/
structure Kept (Always : σ → Prop) (Free : List Op → σ → Prop) (s : State G Op σ) : Prop where
  running : s.crashed = false
  always : Always s.data
  free : s.holder = none → Free s.done s.data
  /-- Whoever holds the lock will leave the data as it should be. -/
  inside : ∀ g op rest, s.holder = some (g, op, rest) → Section Always (Free (s.done ++ [op])) rest s.data

/-- **What each operation does by itself holds of all of them together.** -/
theorem invariant {code : Op → List (σ → Option σ)} {Always : σ → Prop} {Free : List Op → σ → Prop} {d : σ}
    (h₀ : Always d ∧ Free [] d)
    (hop : ∀ op done d, Always d → Free done d → Section Always (Free (done ++ [op])) (code op) d)
    {s : State G Op σ} (h : Reach (step code) Base.Free {data := d} s) : Kept Always Free s := by
  refine h.invariant (Kept Always Free) ⟨rfl, h₀.1, fun _ => h₀.2, fun _ _ _ hh => by cases hh⟩ ?_
  intro s e s' hs _ hstep
  cases e with
  | lock g op =>
    simp only [step] at hstep
    split at hstep
    · rename_i hfree
      cases hstep
      refine ⟨hs.running, hs.always, fun hh => (by cases hh), fun _ _ _ hh => ?_⟩
      cases hh
      exact hop op s.done s.data hs.always (hs.free hfree)
    · cases hstep
  | step =>
    simp only [step] at hstep
    split at hstep
    · rename_i g op f rest hheld
      obtain ⟨d', hd, halways, hrest⟩ := hs.inside g op (f :: rest) hheld
      rw [hd] at hstep
      cases hstep
      refine ⟨hs.running, halways, fun hh => (by cases hh), fun _ _ _ hh => ?_⟩
      cases hh
      exact hrest
    · cases hstep
  | unlock =>
    simp only [step] at hstep
    split at hstep
    · rename_i g op hheld
      rw [hs.running, if_neg Bool.false_ne_true] at hstep
      cases hstep
      exact ⟨rfl, hs.always, fun _ => hs.inside g op [] hheld, fun _ _ _ hh => by cases hh⟩
    · cases hstep

end

end AnarchoRedis.Base.Critical
