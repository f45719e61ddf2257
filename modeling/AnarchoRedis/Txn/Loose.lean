import AnarchoRedis.Txn.Coded

/-! The transactor over any lock store.

The lock store decides when a proxy goes on and nothing else. `looseStep` takes the steps
of the system and lets anything happen to the locked keys at any time between them. The
system over the set of locked keys is an instance (`loose_of_reach`), and the one over
the store that `NewTransactor` makes refines it, for all that concerns the proxies, the
leader, its stream, the subscriptions and the log (`coded_refines`): what holds in every
loose run holds of both. -/
namespace AnarchoRedis.Txn
open Base

namespace Subscriptions

inductive LooseEvent (C : Type) where
  | step (e : Event C)
  /-- Anything happens to the lock store. -/
  | locks (locked : Bytes → Bool)

section
variable {C : Type} [DecidableEq C] {s s' : State C}

/-- The same, with other keys locked. -/
def State.withLocks (s : State C) (locked : Bytes → Bool) : State C := {s with txn := {s.txn with locked := locked}}

def looseStep (s : State C) : LooseEvent C → Option (State C)
  | .step e => step s e
  | .locks locked => some (s.withLocks locked)

/-- What a step can do to the proxies and the leader: a step of them, or nothing but that
keys are locked or unlocked and the database is selected anew. -/
theorem txn_step {e : LooseEvent C} (h : looseStep s e = some s') :
    (∃ e', Txn.Moves s.txn e' s'.txn) ∨
      ∃ locked streamDb, s'.txn = {s.txn with locked := locked, streamDb := streamDb} := by
  cases e with
  | locks locked =>
    cases h
    exact .inr ⟨locked, s.txn.streamDb, rfl⟩
  | step e =>
    cases step_moves h with
    | txn _ hmoves => exact .inl ⟨_, hmoves⟩
    | subscribe => exact .inr ⟨s.txn.locked, _, rfl⟩
    | unlock => exact .inr ⟨_, s.txn.streamDb, rfl⟩
    | append | skip | stop => exact .inr ⟨s.txn.locked, s.txn.streamDb, rfl⟩

/-! ### Runs of the parts -/

/-- **The set of locked keys is a lock store.** -/
theorem loose_of_reach {Rule : State C → Event C → Prop} (h : Reach step Rule s s') : Reach looseStep Free s s' :=
  h.refines id fun s e s' hs => .next .start trivial (show looseStep s (.step e) = some s' from hs)

theorem loose_locks (s : State C) (locked : Bytes → Bool) : Reach looseStep Free s (s.withLocks locked) :=
  .next .start trivial (show looseStep s (.locks locked) = _ from rfl)

/-- A step, with the lock store as it was after it. -/
theorem loose_apart {e : Event C} (h : step s e = some s') : Reach looseStep Free s (s'.withLocks s.txn.locked) :=
  (Reach.next .start trivial (show looseStep s (.step e) = some s' from h)).trans (loose_locks s' s.txn.locked)

/-- A proxy goes on, whatever is locked. -/
theorem loose_pass {i : C} {r : Request} {left : List Bytes} (hp : s.txn.proxies i = .awaiting r left) :
    Reach looseStep Free s {s with txn := s.txn.setProxy i (.awaiting r [])} := by
  have hopen := loose_locks s fun _ => false
  have hseen := loose_of_reach (@reach_seen C _ (s.withLocks fun _ => false) Free i r left
    (fun _ _ => trivial) hp fun _ _ => rfl)
  exact (hopen.trans hseen).trans (loose_locks _ s.txn.locked)

end

end Subscriptions

/-! ### The store that is made -/

section
open Subscriptions (looseStep loose_apart loose_pass)
variable {C : Type} [DecidableEq C]

namespace Coded

/-- One step over the store that is made: none, one or several of a loose run. -/
theorem loose_step {shows : Localstate.Shows} {s s' : State C} {e : Event C} (h : step shows s e = some s') :
    Reach looseStep Free s.system s'.system := by
  cases e with
  | tick d =>
    cases h
    exact .start
  | system e =>
    simp only [step] at h
    split at h
    · cases h
    · obtain ⟨system, hsystem, rfl⟩ := Option.map_eq_some_iff.mp h
      exact .next .start trivial (show looseStep s.system (.step e) = some system from hsystem)
  | lock i =>
    simp only [step] at h
    split at h
    · rename_i r hp
      cases h
      split
      · rename_i hw
        have hlock : Subscriptions.step s.system (.txn (.lock i)) =
            some {s.system with txn := {s.system.txn.setProxy i (.awaiting r r.cmd.keys) with
              locked := lockKeys r.cmd.keys s.system.txn.locked}} := by
          simp [Subscriptions.step, Subscriptions.replicates, Txn.step, hp, hw]
        exact loose_apart hlock
      · rename_i hw
        have hlock : Subscriptions.step s.system (.txn (.lock i)) =
            some {s.system with txn := s.system.txn.setProxy i (.awaiting r r.cmd.keys)} := by
          simp [Subscriptions.step, Subscriptions.replicates, Txn.step, hp, hw]
        exact loose_apart hlock
    · cases h
  | look i fails =>
    simp only [step] at h
    split at h
    · rename_i hp _
      split at h
      · cases h
        exact loose_pass hp
      · cases h
        exact .start
    · cases h
  | hear i kv =>
    simp only [step] at h
    split at h
    · rename_i hp _
      split at h
      · cases h
        exact loose_pass hp
      · cases h
        exact .start
    · cases h
  | unlock i =>
    simp only [step] at h
    split at h
    · rename_i next d hi
      cases h
      have hunlock : Subscriptions.step s.system (.unlock i) =
          some {s.system.setSubscription i (.running next none) with
            txn := {s.system.txn with locked := unlockKeys d.cmd.keys s.system.txn.locked}} := by
        simp only [Subscriptions.step, hi]
      exact loose_apart hunlock
    · cases h

end Coded

/-- **The transactor over the store that is made is a transactor over some store**: every
run of it, seen without clock, records and wait sets, is a loose run. -/
theorem coded_refines {shows : Localstate.Shows} {s s' : Coded.State C} (h : Reach (Coded.step shows) Free s s') :
    Reach looseStep Free s.system s'.system :=
  h.refines Coded.State.system fun _ _ _ hs => Coded.loose_step hs

end

end AnarchoRedis.Txn
