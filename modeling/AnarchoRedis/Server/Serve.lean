import Mathlib.Data.List.Basic
import AnarchoRedis.Base.Runs

/-! The accept loop of the server.

`Serve` accepts one connection after the other and starts a goroutine for each, which
runs `connFunc` and cancels the context with its error if it fails. Another goroutine
closes the listener once the context is done. The context can also be cancelled from
outside; whoever is first gives the cause.

`step` takes a step of one of them. What the listener and `connFunc` do is said by the
event: `Accept` returns a connection unless the listener is closed, or fails; a
`connFunc` returns at any time, with an error or without.

Whatever the interleaving, `Serve` returns the cause of the first cancellation, or the
error of an `Accept` that failed before any (`serve_returns`); every connection is given
to one `connFunc`, and at most one that is accepted after the cancellation
(`accepts_once_more`); and after the cancellation four steps are enough for `Serve` to
return (`serve_ends`). -/
namespace AnarchoRedis.Server
open Base

/-- Where the loop of `Serve` stands. -/
inductive Loop (E Conn : Type) where
  /-- At the condition of the loop. -/
  | head
  /-- In `Accept`. -/
  | accepting
  /-- With a connection, at the `go` statement. -/
  | accepted (conn : Conn)
  /-- `Accept` has failed; the context is looked at next. -/
  | failed (err : E)
  | returned (err : Option E)
  deriving DecidableEq

/-- Where the goroutine of a connection stands. -/
inductive Phase (E : Type) where
  | running
  /-- `connFunc` has returned an error, which the context is to be cancelled with. -/
  | failing (err : E)
  | ended (err : Option E)
  deriving DecidableEq

/-- Who cancels the context. -/
inductive Origin where
  | parent
  | handler (i : Nat)
  deriving DecidableEq

structure State (E Conn : Type) where
  loop : Loop E Conn := .head
  /-- `context.Cause(ctx)`, which `ctx.Err()` goes with. -/
  cause : Option E := none
  /-- The listener is closed. -/
  closed : Bool := false
  /-- What `Accept` has returned. -/
  accepted : List Conn := []
  /-- The goroutines, in the order in which they were started. -/
  handlers : List (Conn × Phase E) := []
  /-- The calls of the context's cancel function. -/
  cancels : List (Origin × E) := []

inductive Event (E Conn : Type) where
  /-- The next step of the loop, but for `Accept`. -/
  | loop
  | accept (conn : Conn)
  | acceptFails (err : E)
  /-- The `connFunc` of the connection with this number returns. -/
  | finish (i : Nat) (err : Option E)
  /-- Its goroutine cancels the context. -/
  | cancel (i : Nat)
  /-- The context is cancelled from outside. -/
  | cancelParent (err : E)
  /-- The listener is closed, as the context is done. -/
  | close

section
variable {E Conn : Type}

def initial (E Conn : Type) : State E Conn := {}

/-- The first call gives the cause. -/
def State.cancel (s : State E Conn) (origin : Origin) (err : E) : State E Conn :=
  {s with cause := s.cause.or (some err), cancels := s.cancels ++ [(origin, err)]}

def State.setPhase (s : State E Conn) (i : Nat) (conn : Conn) (p : Phase E) : State E Conn :=
  {s with handlers := s.handlers.set i (conn, p)}

def step (s : State E Conn) : Event E Conn → Option (State E Conn)
  | .loop =>
    match s.loop with
    | .head =>
      match s.cause with
      | none => some {s with loop := .accepting}
      | some cause => some {s with loop := .returned (some cause)}
    | .accepted conn => some {s with loop := .head, handlers := s.handlers ++ [(conn, .running)]}
    -- The cause, if there is one by now.
    | .failed err => some {s with loop := .returned (s.cause.or (some err))}
    | .accepting | .returned _ => none
  | .accept conn =>
    match s.loop, s.closed with
    | .accepting, false => some {s with loop := .accepted conn, accepted := s.accepted ++ [conn]}
    | _, _ => none
  | .acceptFails err =>
    match s.loop with
    | .accepting => some {s with loop := .failed err}
    | _ => none
  | .finish i err =>
    match s.handlers[i]? with
    | some (conn, .running) =>
      match err with
      | none => some (s.setPhase i conn (.ended none))
      | some err => some (s.setPhase i conn (.failing err))
    | _ => none
  | .cancel i =>
    match s.handlers[i]? with
    | some (conn, .failing err) => some ((s.setPhase i conn (.ended (some err))).cancel (.handler i) err)
    | _ => none
  | .cancelParent err => some (s.cancel .parent err)
  | .close =>
    match s.cause, s.closed with
    | some _, false => some {s with closed := true}
    | _, _ => none

/-- What a step can do. -/
inductive Moves (s : State E Conn) : Event E Conn → State E Conn → Prop where
  | enter : s.loop = .head → s.cause = none → Moves s .loop {s with loop := .accepting}
  | leave {cause : E} : s.loop = .head → s.cause = some cause → Moves s .loop {s with loop := .returned (some cause)}
  | start {conn : Conn} : s.loop = .accepted conn →
      Moves s .loop {s with loop := .head, handlers := s.handlers ++ [(conn, .running)]}
  | giveUp {err : E} : s.loop = .failed err → Moves s .loop {s with loop := .returned (s.cause.or (some err))}
  | accept (conn : Conn) : s.loop = .accepting → s.closed = false →
      Moves s (.accept conn) {s with loop := .accepted conn, accepted := s.accepted ++ [conn]}
  | acceptFails (err : E) : s.loop = .accepting → Moves s (.acceptFails err) {s with loop := .failed err}
  | succeed {i : Nat} {conn : Conn} : s.handlers[i]? = some (conn, .running) →
      Moves s (.finish i none) (s.setPhase i conn (.ended none))
  | fail {i : Nat} {conn : Conn} (err : E) : s.handlers[i]? = some (conn, .running) →
      Moves s (.finish i (some err)) (s.setPhase i conn (.failing err))
  | cancel {i : Nat} {conn : Conn} {err : E} : s.handlers[i]? = some (conn, .failing err) →
      Moves s (.cancel i) ((s.setPhase i conn (.ended (some err))).cancel (.handler i) err)
  | cancelParent (err : E) : Moves s (.cancelParent err) (s.cancel .parent err)
  | close {cause : E} : s.cause = some cause → s.closed = false → Moves s .close {s with closed := true}

variable {s s' t : State E Conn} {e : Event E Conn}

theorem step_moves (h : step s e = some s') : Moves s e s' := by
  cases e with
  | loop =>
    simp only [step] at h
    split at h
    · rename_i hloop
      split at h
      · rename_i hcause
        cases h
        exact .enter hloop hcause
      · rename_i hcause
        cases h
        exact .leave hloop hcause
    · rename_i hloop
      cases h
      exact .start hloop
    · rename_i hloop
      cases h
      exact .giveUp hloop
    · cases h
    · cases h
  | accept conn =>
    simp only [step] at h
    split at h
    · rename_i hloop hclosed
      cases h
      exact .accept conn hloop hclosed
    · cases h
  | acceptFails err =>
    simp only [step] at h
    split at h
    · rename_i hloop
      cases h
      exact .acceptFails err hloop
    · cases h
  | finish i err =>
    simp only [step] at h
    split at h
    · rename_i conn hi
      cases err with
      | none =>
        cases h
        exact .succeed hi
      | some err =>
        cases h
        exact .fail err hi
    · cases h
  | cancel i =>
    simp only [step] at h
    split at h
    · rename_i conn err hi
      cases h
      exact .cancel hi
    · cases h
  | cancelParent err =>
    cases h
    exact .cancelParent err
  | close =>
    simp only [step] at h
    split at h
    · rename_i cause hcause hclosed
      cases h
      exact .close hcause hclosed
    · cases h

/-! ### What `Serve` returns -/

/-- The connection that the loop has and no goroutine yet. -/
def Loop.inHand : Loop E Conn → List Conn
  | .accepted conn => [conn]
  | _ => []

structure Orderly (s : State E Conn) : Prop where
  /-- The first cancellation gives the cause. -/
  cause : s.cause = s.cancels.head?.map Prod.snd
  /-- The listener is open while the context is not done. -/
  closed : s.closed = true → s.cause.isSome = true
  /-- Every connection has a goroutine, or is about to get it. -/
  handed : s.handlers.map Prod.fst ++ s.loop.inHand = s.accepted
  /-- A goroutine cancels with the error of its own `connFunc`. -/
  reported : ∀ i err, (Origin.handler i, err) ∈ s.cancels → ∃ conn, s.handlers[i]? = some (conn, .ended (some err))

theorem orderly_initial : Orderly (initial E Conn) where
  cause := rfl
  closed h := by cases h
  handed := rfl
  reported _ _ h := by cases h

/-- A step of the loop that takes no connection and hands none over. -/
theorem Orderly.move (h : Orderly s) {l : Loop E Conn} (hl : l.inHand = s.loop.inHand) : Orderly {s with loop := l} where
  cause := h.cause
  closed := h.closed
  handed := by
    rw [← h.handed, ← hl]
  reported := h.reported

/-- A step of a goroutine that has not ended. -/
theorem Orderly.setPhase (h : Orderly s) {i : Nat} {conn : Conn} {p q : Phase E} (hi : s.handlers[i]? = some (conn, p))
    (hp : ∀ err, p ≠ .ended err) : Orderly (s.setPhase i conn q) where
  cause := h.cause
  closed := h.closed
  handed := by
    have hsame : (s.handlers.set i (conn, q)).map Prod.fst = s.handlers.map Prod.fst := by
      refine List.ext_getElem? fun j => ?_
      rw [List.getElem?_map, List.getElem?_map, List.getElem?_set]
      split
      · rename_i hij
        obtain ⟨hlt, -⟩ := List.getElem?_eq_some_iff.mp hi
        rw [if_pos hlt, ← hij, hi]
        rfl
      · rfl
    exact (congrArg (· ++ s.loop.inHand) hsame).trans h.handed
  reported j err hj := by
    obtain ⟨conn', hended⟩ := h.reported j err hj
    have hne : i ≠ j := by
      intro hij
      rw [← hij, hi] at hended
      cases hended
      exact hp _ rfl
    exact ⟨conn', (List.getElem?_set_ne hne).trans hended⟩

theorem Orderly.cancel (h : Orderly s) {origin : Origin} {err : E}
    (hi : ∀ i, origin = .handler i → ∃ conn, s.handlers[i]? = some (conn, .ended (some err))) :
    Orderly (s.cancel origin err) where
  cause := by
    show s.cause.or (some err) = (s.cancels ++ [(origin, err)]).head?.map Prod.snd
    rw [h.cause, List.head?_append, Option.map_or]
    rfl
  closed hclosed := by
    show (s.cause.or (some err)).isSome = true
    rw [Option.isSome_or, h.closed hclosed]
    rfl
  handed := h.handed
  reported i err' hmem := by
    rcases List.mem_append.mp hmem with hold | hnew
    · exact h.reported i err' hold
    · cases List.mem_singleton.mp hnew
      exact hi i rfl

theorem orderly_step (h : Orderly s) (hstep : step s e = some s') : Orderly s' := by
  cases step_moves hstep with
  | enter hloop => exact h.move (by rw [hloop]; rfl)
  | leave hloop => exact h.move (by rw [hloop]; rfl)
  | @start conn hloop =>
    refine ⟨h.cause, h.closed, ?_, fun i err hmem => ?_⟩
    · rw [← h.handed, hloop, List.map_append]
      exact List.append_nil _
    · obtain ⟨conn', hi⟩ := h.reported i err hmem
      obtain ⟨hlt, -⟩ := List.getElem?_eq_some_iff.mp hi
      exact ⟨conn', (List.getElem?_append_left hlt).trans hi⟩
  | giveUp hloop => exact h.move (by rw [hloop]; rfl)
  | accept conn hloop =>
    refine ⟨h.cause, h.closed, ?_, h.reported⟩
    have hhanded : s.handlers.map Prod.fst ++ [] = s.accepted := by
      rw [← h.handed, hloop]
      rfl
    rw [List.append_nil] at hhanded
    exact congrArg (· ++ [conn]) hhanded
  | acceptFails err hloop => exact h.move (by rw [hloop]; rfl)
  | succeed hi => exact h.setPhase hi fun _ hp => by cases hp
  | fail err hi => exact h.setPhase hi fun _ hp => by cases hp
  | @cancel i conn err hi =>
    refine (h.setPhase hi fun _ hp => by cases hp).cancel fun j hj => ?_
    cases hj
    obtain ⟨hlt, -⟩ := List.getElem?_eq_some_iff.mp hi
    exact ⟨conn, List.getElem?_set_self hlt⟩
  | cancelParent err => exact h.cancel fun i hi => by cases hi
  | close hcause => exact ⟨h.cause, fun _ => by rw [hcause]; rfl, h.handed, h.reported⟩

theorem orderly_reach (h : Reach step Free (initial E Conn) s) : Orderly s :=
  h.invariant Orderly orderly_initial fun _ _ _ hs _ => orderly_step hs

/-- The cause was given from outside, or by a goroutine whose `connFunc` failed with it. -/
def State.given (s : State E Conn) (cause : E) : Prop :=
  ∃ origin rest, s.cancels = (origin, cause) :: rest ∧
    ∀ i, origin = .handler i → ∃ conn, s.handlers[i]? = some (conn, .ended (some cause))

theorem Orderly.given (h : Orderly s) {cause : E} (hcause : s.cause = some cause) : s.given cause := by
  have hhead := h.cause
  rw [hcause] at hhead
  obtain ⟨⟨origin, c⟩, hfirst, hc⟩ := Option.map_eq_some_iff.mp hhead.symm
  obtain ⟨rest, hcancels⟩ := List.head?_eq_some_iff.mp hfirst
  cases hc
  refine ⟨origin, rest, hcancels, fun i hi => h.reported i _ ?_⟩
  rw [hcancels, hi]
  exact List.mem_cons_self

/-- **`Serve` returns the cause of the first cancellation**, which came from outside or
is the error of a `connFunc`, or where there is none by then the error with which
`Accept` failed; never nil. -/
theorem serve_returns {err : Option E} (h : Reach step Free (initial E Conn) s) (hstep : step s e = some s')
    (hrunning : ∀ r, s.loop ≠ .returned r) (hreturned : s'.loop = .returned err) :
    (∃ cause, err = some cause ∧ s.given cause) ∨
      s.cancels = [] ∧ ∃ failure, s.loop = .failed failure ∧ err = some failure := by
  have hs := orderly_reach h
  cases step_moves hstep with
  | enter | start | accept | acceptFails => cases hreturned
  | leave _ hcause =>
    cases hreturned
    exact .inl ⟨_, rfl, hs.given hcause⟩
  | giveUp hloop =>
    cases hreturned
    rcases hcause : s.cause with _ | cause
    · refine .inr ⟨?_, _, hloop, by rw [Option.none_or]⟩
      rw [hs.cause, Option.map_eq_none_iff, List.head?_eq_none_iff] at hcause
      exact hcause
    · exact .inl ⟨cause, by rw [Option.some_or], hs.given hcause⟩
  | succeed | fail | cancel | cancelParent | close => exact absurd hreturned (hrunning err)

/-- A `connFunc` fails with 5 while `Accept` fails with 9. -/
theorem serve_returns_cause : ∃ s s' : State Nat Nat, step s .loop = some s' ∧ s'.loop = .returned (some 5) ∧
    ((∃ cause, some 5 = some cause ∧ s.given cause) ∨
      s.cancels = [] ∧ ∃ failure, s.loop = .failed failure ∧ some 5 = some failure) := by
  obtain ⟨s, hs, hfound⟩ := exists_reach_of_play step (fun _ _ => true) (fun _ _ _ => trivial) (initial Nat Nat)
    [.loop, .accept 7, .loop, .loop, .finish 0 (some 5), .cancel 0, .acceptFails 9]
    (fun s => decide (s.loop = .failed 9 ∧ s.cause = some 5)) (by decide)
  obtain ⟨hloop, hcause⟩ := of_decide_eq_true hfound
  have hstep : step s .loop = some {s with loop := .returned (some 5)} := by
    simp only [step, hloop, hcause, Option.some_or]
  exact ⟨s, _, hstep, rfl, serve_returns hs hstep (fun r hr => by rw [hloop] at hr; cases hr) rfl⟩

/-! ### After the cancellation -/

/-- The context stays cancelled. -/
theorem cancelled_step (hs : s.cause ≠ none) (hstep : step s e = some s') : s'.cause ≠ none := by
  have hor {err : E} : s.cause.or (some err) ≠ none := by
    rw [ne_eq, Option.or_eq_none_iff]
    exact fun h => hs h.1
  cases step_moves hstep with
  | enter | leave | start | giveUp | accept | acceptFails | succeed | fail | close => exact hs
  | cancel => exact hor
  | cancelParent => exact hor

/-- What is accepted once the context is cancelled in `s`. While the loop is in `Accept`
it has had none. -/
structure Late (s t : State E Conn) : Prop where
  cancelled : t.cause ≠ none
  more : ∃ late, t.accepted = s.accepted ++ late ∧ late.length ≤ 1 ∧ (t.loop = .accepting → late = [])

theorem late_step (h : Late s t) {t' : State E Conn} (hstep : step t e = some t') : Late s t' := by
  refine ⟨cancelled_step h.cancelled hstep, ?_⟩
  obtain ⟨late, haccepted, hlen, hnone⟩ := h.more
  cases step_moves hstep with
  | enter _ hcause => exact absurd hcause h.cancelled
  | leave | start | giveUp | acceptFails => exact ⟨late, haccepted, hlen, fun hloop => by cases hloop⟩
  | accept conn hloop =>
    rw [hnone hloop, List.append_nil] at haccepted
    exact ⟨[conn], congrArg (· ++ [conn]) haccepted, Nat.le_refl 1, fun hloop => by cases hloop⟩
  | succeed | fail | cancel | cancelParent | close => exact ⟨late, haccepted, hlen, hnone⟩

/-- **At most one connection is accepted after the cancellation**, and at any time every
connection accepted is given to one `connFunc`, in the order in which they come, or is the
one in hand. -/
theorem accepts_once_more (h : Reach step Free (initial E Conn) s) :
    s.handlers.map Prod.fst ++ s.loop.inHand = s.accepted ∧
      (s.cause ≠ none → ∀ t, Reach step Free s t → ∃ late, t.accepted = s.accepted ++ late ∧ late.length ≤ 1) := by
  refine ⟨(orderly_reach h).handed, fun hs t ht => ?_⟩
  have hlate : Late s t := by
    refine ht.invariant (Late s) ⟨hs, [], (List.append_nil _).symm, Nat.zero_le 1, fun _ => rfl⟩ ?_
    exact fun _ _ _ hl _ => late_step hl
  obtain ⟨late, haccepted, hlen, -⟩ := hlate.more
  exact ⟨late, haccepted, hlen⟩

/-- A connection comes while the listener is not closed yet. -/
theorem accepts_once_more_late : ∃ s t : State Nat Nat, s.cause = some 5 ∧ Reach step Free s t ∧
    t.accepted = s.accepted ++ [8] ∧ s.handlers.map Prod.fst ++ s.loop.inHand = s.accepted ∧
      ∃ late, t.accepted = s.accepted ++ late ∧ late.length ≤ 1 := by
  obtain ⟨s, t, hs, ht, hfound⟩ := exists_reach_of_play_then step (fun _ _ => true) (fun _ _ _ => trivial)
    (initial Nat Nat) [.loop, .cancelParent 5] [.accept 8, .close, .loop]
    (fun s t => decide (s.cause = some 5 ∧ t.accepted = s.accepted ++ [8])) (by decide)
  obtain ⟨hcause, haccepted⟩ := of_decide_eq_true hfound
  obtain ⟨hhanded, hlate⟩ := accepts_once_more hs
  exact ⟨s, t, hcause, ht, haccepted, hhanded, hlate (by rw [hcause]; exact Option.some_ne_none 5) t ht⟩

/-- A step of `Serve`, of the listener for it, or of the goroutine that closes the
listener. -/
def Event.own : Event E Conn → Bool
  | .loop | .accept _ | .acceptFails _ | .close => true
  | .finish _ _ | .cancel _ | .cancelParent _ => false

/-- How many such steps there can be once the context is cancelled. -/
def State.left (s : State E Conn) : Nat :=
  (if s.closed then 0 else 1) +
    match s.loop with
    | .head | .failed _ => 1
    | .accepting => 3
    | .accepted _ => 2
    | .returned _ => 0

theorem State.left_le (s : State E Conn) : s.left ≤ 4 := by
  unfold State.left
  split <;> split <;> decide

theorem left_step (hs : s.cause ≠ none) (hstep : step s e = some s') :
    s'.left + (if e.own then 1 else 0) ≤ s.left := by
  cases step_moves hstep with
  | enter _ hcause => exact absurd hcause hs
  | leave hloop | start hloop | giveUp hloop | accept _ hloop | acceptFails _ hloop =>
    simp only [State.left, Event.own, hloop, if_true]
    omega
  | close _ hclosed =>
    simp only [State.left, Event.own, hclosed, if_true, Bool.false_eq_true, if_false]
    omega
  | succeed | fail | cancel | cancelParent => exact Nat.le_refl _

/-- `Accept` does not keep `Serve`: the listener can be closed, or it fails. -/
theorem exists_own_step (hs : s.cause ≠ none) (hrunning : ∀ r, s.loop ≠ .returned r) :
    ∃ e, e.own = true ∧ step s e ≠ none := by
  obtain ⟨cause, hcause⟩ := Option.ne_none_iff_exists'.mp hs
  cases hloop : s.loop with
  | head => exact ⟨.loop, rfl, by simp [step, hloop, hcause]⟩
  | accepted conn => exact ⟨.loop, rfl, by simp [step, hloop]⟩
  | failed err => exact ⟨.loop, rfl, by simp [step, hloop]⟩
  | returned r => exact absurd hloop (hrunning r)
  | accepting =>
    cases hclosed : s.closed with
    | false => exact ⟨.close, rfl, by simp [step, hcause, hclosed]⟩
    | true => exact ⟨.acceptFails cause, rfl, by simp [step, hloop]⟩

/-- **`Serve` ends once the context is cancelled**: in any run from there it and the
listener take at most four steps, and while it has not returned one is possible. -/
theorem serve_ends {events : List (Event E Conn)} (hs : s.cause ≠ none)
    (hplay : play step (fun _ _ => true) s events = some t) :
    events.countP Event.own ≤ 4 ∧ ((∀ e, e.own = true → step t e = none) → ∃ r, t.loop = .returned r) := by
  suffices hall : t.cause ≠ none ∧ events.countP Event.own + t.left ≤ s.left by
    refine ⟨?_, fun hstuck => ?_⟩
    · have := s.left_le
      omega
    · by_contra hrunning
      obtain ⟨e, hown, hstep⟩ := exists_own_step hall.1 fun r hr => hrunning ⟨r, hr⟩
      exact hstep (hstuck e hown)
  induction events generalizing s with
  | nil =>
    cases hplay
    exact ⟨hs, Nat.le_of_eq (Nat.zero_add _)⟩
  | cons e rest ih =>
    rw [play, if_pos rfl] at hplay
    obtain ⟨s', hstep, hrest⟩ := Option.bind_eq_some_iff.mp hplay
    obtain ⟨hcancelled, hle⟩ := ih (cancelled_step hs hstep) hrest
    have hone := left_step hs hstep
    refine ⟨hcancelled, ?_⟩
    rw [List.countP_cons]
    omega

/-- All four steps, after which the listener is closed. -/
theorem serve_ends_late :
    ∃ (events : List (Event Nat Nat)) (t : State Nat Nat),
      play step (fun _ _ => true) {loop := .accepting, cause := some 5} events = some t ∧
        events.countP Event.own = 4 ∧ ((∀ e, e.own = true → step t e = none) → ∃ r, t.loop = .returned r) := by
  have hplay : play step (fun _ _ => true) {loop := .accepting, cause := some 5} [.accept 8, .loop, .close, .loop] =
      some (⟨.returned (some 5), some 5, true, [8], [(8, .running)], []⟩ : State Nat Nat) := rfl
  exact ⟨_, _, hplay, rfl, (serve_ends (Option.some_ne_none 5) hplay).2⟩

end

end AnarchoRedis.Server
