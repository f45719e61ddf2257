import AnarchoRedis.Localstate.Expiry
import AnarchoRedis.Txn.Subscriptions

/-! The transactor with the lock store that `NewTransactor` makes.

In `Txn.Subscriptions` the lock store is what it is meant to be, the set of locked keys.
Here `proxy` and `handleMessages` call `LockKeys`, `AwaitUnlocked` and `UnlockKeys` as they
are, on records that the database stops showing when their time has run out, and a clock
goes on beside them. `Cmd` and `Keys` are still taken to give the name, the arguments and
the keys. In no interleaving does anyone ever wait for updates: whoever gets to
`AwaitUnlocked` can answer its client with the next two steps, whatever is in the
transaction log (`answers_at_once`). -/
namespace AnarchoRedis.Txn.Coded
open Base Protocol Localstate

structure State (C : Type) where
  /-- The parties, whose set of locked keys is not used. -/
  system : Subscriptions.State C
  now : Int := 0
  /-- The calls of `LockKeys` and `UnlockKeys`. -/
  calls : List At := []
  /-- The wait sets of those who have subscribed to the store in `AwaitUnlocked`. -/
  waits : C → Option (List Bytes) := fun _ => none

def initial (C : Type) : State C := {system := Subscriptions.initial C}

inductive Event (C : Type) where
  | tick (d : Nat)
  /-- A step that does not touch the lock store. -/
  | system (e : Subscriptions.Event C)
  | lock (i : C)
  /-- The first look of `AwaitUnlocked`, with the reads that fail. -/
  | look (i : C) (fails : Bytes → Option Unit)
  /-- A batch of updates for a subscription. -/
  | hear (i : C) (kv : List Update)
  | unlock (i : C)

/-- The event concerns the lock store. -/
def onStore {C : Type} : Subscriptions.Event C → Bool
  | .txn (.lock _) | .txn (.see _ _) | .unlock _ => true
  | _ => false

section
variable {C : Type} (shows : Shows)

/-- What the first look of `AwaitUnlocked` leaves to wait for; its error is dropped. -/
def found (s : State C) (fails : Bytes → Option Unit) (keys : List Bytes) : List Bytes :=
  match view (get ((stored s.calls).visible shows newLockTTL s.now) fails) keys with
  | .error _ => []
  | .ok waitFor => waitFor

variable [DecidableEq C]

def State.setProxy (s : State C) (i : C) (p : Proxy) : State C :=
  {s with system := {s.system with txn := s.system.txn.setProxy i p}}

/-- All keys are seen unlocked. -/
def State.pass (s : State C) (i : C) (r : Request) : State C :=
  {s.setProxy i (.awaiting r []) with waits := Function.update s.waits i none}

def step (s : State C) : Event C → Option (State C)
  | .tick d => some {s with now := s.now + d}
  | .system e => if onStore e then none else (Subscriptions.step s.system e).map fun system => {s with system := system}
  | .lock i =>
    match s.system.txn.proxies i with
    | .selected r =>
      let s' := s.setProxy i (.awaiting r r.cmd.keys)
      some (if r.cmd.isWrite then {s' with calls := s.calls ++ [⟨s.now, .lock r.cmd.keys⟩]} else s')
    | _ => none
  | .look i fails =>
    match s.system.txn.proxies i, s.waits i with
    | .awaiting r _, none =>
      match found shows s fails r.cmd.keys with
      | [] => some (s.pass i r)
      | key :: keys => some {s with waits := Function.update s.waits i (some (key :: keys))}
    | _, _ => none
  | .hear i kv =>
    match s.system.txn.proxies i, s.waits i with
    | .awaiting r _, some waitFor =>
      match callback waitFor kv with
      | [] => some (s.pass i r)
      | key :: keys => some {s with waits := Function.update s.waits i (some (key :: keys))}
    | _, _ => none
  | .unlock i =>
    match s.system.subscriptions i with
    | .running next (some e) =>
      some {s with
        system := s.system.setSubscription i (.running next none)
        calls := s.calls ++ [⟨s.now, .unlock e.cmd.keys⟩]}
    | _ => none

/-! ### Nobody waits -/

variable {shows} {s s' : State C} {e : Event C}

/-- No call was made later than now, and nobody waits. -/
structure Idle (s : State C) : Prop where
  past : ∀ c ∈ s.calls, c.time ≤ s.now
  waits : ∀ i, s.waits i = none

omit [DecidableEq C] in
theorem Idle.found (hends : shows.Ends) (h : Idle s) (fails : Bytes → Option Unit) (keys : List Bytes) :
    found shows s fails keys = [] := by
  rcases view_of_none (visible_eq_none hends h.past) fails keys with hview | ⟨err, hview⟩
  · simp only [Coded.found, hview]
  · simp only [Coded.found, hview]

omit [DecidableEq C] in
theorem Idle.called (h : Idle s) (call : Call) : ∀ c ∈ s.calls ++ [⟨s.now, call⟩], c.time ≤ s.now := by
  intro c hc
  rcases List.mem_append.mp hc with hold | hnew
  · exact h.past c hold
  · obtain rfl := List.mem_singleton.mp hnew
    exact Int.le_refl _

theorem Idle.pass (h : Idle s) (i : C) (r : Request) : Idle (s.pass i r) where
  past := h.past
  waits j := by
    show Function.update s.waits i none j = none
    by_cases hj : j = i
    · rw [hj, Function.update_self]
    · rw [Function.update_of_ne hj]
      exact h.waits j

theorem idle_step (hends : shows.Ends) (h : Idle s) (hstep : step shows s e = some s') : Idle s' := by
  cases e with
  | tick d =>
    cases hstep
    refine ⟨fun c hc => Int.le_trans (h.past c hc) ?_, h.waits⟩
    exact Int.le_add_of_nonneg_right (Int.natCast_nonneg d)
  | system e =>
    simp only [step] at hstep
    split at hstep
    · cases hstep
    · obtain ⟨system, -, rfl⟩ := Option.map_eq_some_iff.mp hstep
      exact ⟨h.past, h.waits⟩
  | lock i =>
    simp only [step] at hstep
    split at hstep
    · cases hstep
      split
      · exact ⟨h.called _, h.waits⟩
      · exact ⟨h.past, h.waits⟩
    · cases hstep
  | look i fails =>
    simp only [step] at hstep
    split at hstep
    · rename_i r _ _ _
      rw [h.found hends] at hstep
      cases hstep
      exact h.pass i r
    · cases hstep
  | hear i kv =>
    simp only [step, h.waits i] at hstep
    split at hstep
    · rename_i hsome
      cases hsome
    · cases hstep
  | unlock i =>
    simp only [step] at hstep
    split at hstep
    · cases hstep
      exact ⟨h.called _, h.waits⟩
    · cases hstep

theorem idle_reach (hends : shows.Ends) (h : Reach (step shows) Free (initial C) s) : Idle s := by
  refine h.invariant Idle ⟨fun _ hc => ?_, fun _ => rfl⟩ fun _ _ _ hs _ => idle_step hends hs
  cases hc

/-- **Nobody waits for the transaction log.** In every run of all proxies, the leader and
the replication goroutines nobody waits for updates; and a request in `AwaitUnlocked` can
be answered with the next two steps of its proxy, with the log as it is. -/
theorem answers_at_once (hends : shows.Ends) (h : Reach (step shows) Free (initial C) s) :
    (∀ i, s.waits i = none) ∧
      ∀ i r left fails, s.system.txn.proxies i = .awaiting r left →
        ∃ s₁ s₂, step shows s (.look i fails) = some s₁ ∧ step shows s₁ (.system (.txn (.deliver i))) = some s₂ ∧
          s₂.system.txn.delivered = s.system.txn.delivered ++ [r] ∧ s₂.system.log = s.system.log := by
  have hs := idle_reach hends h
  refine ⟨hs.waits, fun i r left fails hi => ?_⟩
  have hlook : step shows s (.look i fails) = some (s.pass i r) := by
    simp only [step, hi, hs.waits i, hs.found hends]
  have hready : (s.pass i r).system.txn.proxies i = .awaiting r [] := Function.update_self ..
  refine ⟨_, {(s.pass i r) with system := {s.system with txn := {(s.pass i r).system.txn.setProxy i .reading with
    delivered := s.system.txn.delivered ++ [r]}}}, hlook, ?_, rfl, rfl⟩
  simp only [step, onStore, Subscriptions.step, Subscriptions.replicates, Bool.false_eq_true, if_false, Txn.step, hready,
    Option.map_some]
  rfl

end

/-- A write that the log does not have yet is answered. -/
theorem answers_at_once_unlogged : ∃ s₁ s₂ s₃ : State Unit, ∃ r,
    step inSeconds s₁ (.look () fun _ => none) = some s₂ ∧
      step inSeconds s₂ (.system (.txn (.deliver ()))) = some s₃ ∧
      r.cmd.isWrite = true ∧ r ∈ s₃.system.txn.delivered ∧ s₃.system.log = [] := by
  obtain ⟨s, hs, hfound⟩ := exists_reach_of_play (step inSeconds) (fun _ _ => true) (fun _ _ _ => trivial)
    (initial Unit)
    ([.read () (setCommand "k" "v"), .forward (), .execute () true, .reply (), .select ()].map
      (fun e => Event.system (.txn e)) ++ [.lock ()])
    (fun s => s.system.txn.proxies () == .awaiting ⟨0, setCommand "k" "v"⟩ [ascii "k"] && s.system.log == [])
    (by decide)
  rw [Bool.and_eq_true, beq_iff_eq, beq_iff_eq] at hfound
  obtain ⟨s₂, s₃, hlook, hdeliver, hdelivered, hlog⟩ :=
    (answers_at_once expires_inSeconds.ends hs).2 () _ _ (fun _ => none) hfound.1
  refine ⟨s, s₂, s₃, ⟨0, setCommand "k" "v"⟩, hlook, hdeliver, by decide, ?_, hlog.trans hfound.2⟩
  rw [hdelivered]
  exact List.mem_append_right _ (List.mem_singleton_self _)

end AnarchoRedis.Txn.Coded
