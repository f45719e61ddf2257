import AnarchoRedis.Txn.Steps

/-! A subscription for every client.

In `Txn.System` one goroutine handles the stream of the leader for all connections.
`Transact` starts one for each, with a connection of its own to the leader. It begins
somewhere on the stream: at its end after a full resynchronization, for which the leader
selects the database anew, or further back where it is continued. From there it takes one
message after the other, appends each to the transaction log, which all share, and unlocks
its keys. A message that an acknowledgement reads in its place is lost to it. It ends when
anything fails, and the client gets no other.

The system with one subscription for all is the case in which one client subscribes at the
start and no other does (`one_refines`). -/
namespace AnarchoRedis.Txn.Subscriptions
open Base Protocol

/-- Where the subscription of a connection stands. -/
inductive Subscription where
  /-- `StreamUpdates` has not come to its loop. -/
  | idle
  /-- The place of the next message on the stream, and the message that is appended and
  whose keys are not yet unlocked. -/
  | running (next : Nat) (current : Option Entry)
  | ended
  deriving DecidableEq

structure State (C : Type) where
  /-- The proxies, the leader with its whole stream, and the locked keys. The replication
  goroutine of this model takes no step. -/
  txn : Txn.State C
  subscriptions : C → Subscription := fun _ => .idle
  /-- The transaction log: each message with the connection whose subscription appended it
  and the database it was appended under. -/
  log : List (C × Entry × Bytes) := []

def initial (C : Type) : State C := {txn := Txn.initial C}

inductive Event (C : Type) where
  /-- A step of a proxy or of the leader. -/
  | txn (e : Txn.Event C)
  /-- The subscription begins with the message at this place of the stream. `anew`: the
  leader selects the database again. -/
  | subscribe (i : C) (next : Nat) (anew : Bool)
  | append (i : C)
  | unlock (i : C)
  /-- An acknowledgement reads the next message. -/
  | skip (i : C)
  /-- Any step of `StreamUpdates` or `handleMessages` fails. -/
  | stop (i : C)

/-- The steps of the one replication goroutine. -/
def replicates {C : Type} : Txn.Event C → Bool
  | .append | .unlock | .stop => true
  | _ => false

section
variable {C : Type} [DecidableEq C]

def State.setSubscription (s : State C) (i : C) (sub : Subscription) : State C :=
  {s with subscriptions := Function.update s.subscriptions i sub}

def step (s : State C) : Event C → Option (State C)
  | .txn e => if replicates e then none else (Txn.step s.txn e).map fun txn => {s with txn := txn}
  | .subscribe i next anew =>
    match s.subscriptions i with
    | .idle =>
      if next ≤ s.txn.stream.length then
        some {s.setSubscription i (.running next none) with
          txn := {s.txn with streamDb := if anew then none else s.txn.streamDb}}
      else none
    | _ => none
  | .append i =>
    match s.subscriptions i with
    | .running next none =>
      match s.txn.stream[next]? with
      | some e =>
        some {s.setSubscription i (.running (next + 1) (some e)) with log := s.log ++ [(i, e, s.txn.database)]}
      | none => none
    | _ => none
  | .unlock i =>
    match s.subscriptions i with
    | .running next (some e) =>
      some {s.setSubscription i (.running next none) with
        txn := {s.txn with locked := unlockKeys e.cmd.keys s.txn.locked}}
    | _ => none
  | .skip i =>
    match s.subscriptions i with
    | .running next current =>
      if next < s.txn.stream.length then some (s.setSubscription i (.running (next + 1) current)) else none
    | _ => none
  | .stop i => some (s.setSubscription i .ended)

/-- The steps, each with what it needs of the state before. -/
inductive Moves (s : State C) : Event C → State C → Prop where
  | txn {e : Txn.Event C} {txn : Txn.State C} : replicates e = false → Txn.Moves s.txn e txn →
      Moves s (.txn e) {s with txn := txn}
  | subscribe (i : C) (next : Nat) (anew : Bool) : s.subscriptions i = .idle → next ≤ s.txn.stream.length →
      Moves s (.subscribe i next anew) {s.setSubscription i (.running next none) with
        txn := {s.txn with streamDb := if anew then none else s.txn.streamDb}}
  | append (i : C) (next : Nat) (e : Entry) : s.subscriptions i = .running next none →
      s.txn.stream[next]? = some e →
      Moves s (.append i) {s.setSubscription i (.running (next + 1) (some e)) with
        log := s.log ++ [(i, e, s.txn.database)]}
  | unlock (i : C) (next : Nat) (e : Entry) : s.subscriptions i = .running next (some e) →
      Moves s (.unlock i) {s.setSubscription i (.running next none) with
        txn := {s.txn with locked := unlockKeys e.cmd.keys s.txn.locked}}
  | skip (i : C) (next : Nat) (current : Option Entry) : s.subscriptions i = .running next current →
      next < s.txn.stream.length → Moves s (.skip i) (s.setSubscription i (.running (next + 1) current))
  | stop (i : C) : Moves s (.stop i) (s.setSubscription i .ended)

variable {s s' : State C}

theorem step_moves {e : Event C} (h : step s e = some s') : Moves s e s' := by
  cases e with
  | txn e =>
    simp only [step] at h
    split at h
    · cases h
    · rename_i hno
      obtain ⟨txn, htxn, rfl⟩ := Option.map_eq_some_iff.mp h
      exact .txn (eq_false_of_ne_true hno) (Txn.step_moves htxn)
  | subscribe i next anew =>
    simp only [step] at h
    split at h
    · split at h
      · cases h
        exact .subscribe i next anew ‹_› ‹_›
      · cases h
    · cases h
  | append i =>
    simp only [step] at h
    split at h
    · split at h
      · cases h
        exact .append i _ _ ‹_› ‹_›
      · cases h
    · cases h
  | unlock i =>
    simp only [step] at h
    split at h
    · cases h
      exact .unlock i _ _ ‹_›
    · cases h
  | skip i =>
    simp only [step] at h
    split at h
    · split at h
      · cases h
        exact .skip i _ _ ‹_› ‹_›
      · cases h
    · cases h
  | stop i =>
    cases h
    exact .stop i

/-- A proxy sees its keys unlocked, one after the other. -/
theorem reach_seen {Rule : State C → Event C → Prop} {i : C} {r : Request} {left : List Bytes}
    (hrule : ∀ s k, Rule s (.txn (.see i k))) (hp : s.txn.proxies i = .awaiting r left)
    (hfree : ∀ k ∈ left, s.txn.locked k = false) :
    Reach step Rule s {s with txn := s.txn.setProxy i (.awaiting r [])} := by
  induction hn : left.length using Nat.strongRecOn generalizing s left with
  | _ n ih =>
    cases left with
    | nil =>
      rw [State.setProxy, ← hp, Function.update_eq_self]
      exact .start
    | cons k rest =>
      have hk : s.txn.locked k = false := hfree k List.mem_cons_self
      have hleft : (k :: rest).filter (· ≠ k) = rest.filter (· ≠ k) := by simp
      have hsee : step s (.txn (.see i k)) =
          some {s with txn := s.txn.setProxy i (.awaiting r (rest.filter (· ≠ k)))} := by
        rw [← hleft]
        simp [step, replicates, Txn.step, hp, hk]
      have hshort : (rest.filter (· ≠ k)).length < n := by
        rw [← hn]
        exact Nat.lt_succ_of_le (List.length_filter_le ..)
      have hrest := ih _ hshort (s := {s with txn := s.txn.setProxy i (.awaiting r (rest.filter (· ≠ k)))})
        (show (s.txn.setProxy i _).proxies i = _ from Function.update_self ..)
        (fun k' hk' => hfree k' (List.mem_cons_of_mem _ (List.mem_of_mem_filter hk'))) rfl
      rw [Txn.State.setProxy, Txn.State.setProxy, Function.update_idem] at hrest
      exact (Reach.next .start (hrule s k) hsee).trans hrest

/-! ### One subscription for all -/

/-- The proxies and the leader, with the whole stream in front of the goroutine. -/
def whole (t : Txn.State C) : Txn.State C :=
  {t with pending := t.stream, log := [], current := none, stopped := false}

/-- The one replication goroutine as the subscription of a client. -/
def ofOne (i : C) (t : Txn.State C) : State C where
  txn := whole t
  subscriptions := Function.update (fun _ => .idle) i
    (if t.stopped then .ended else .running t.log.length t.current)
  log := t.log.map fun d => (i, d)

omit [DecidableEq C] in
theorem whole_stream (t : Txn.State C) : (whole t).stream = t.stream := rfl

theorem whole_execute (t : Txn.State C) (i : C) (r : Request) (effect : Bool) :
    execute (whole t) i r effect = whole (execute t i r effect) := by
  unfold execute
  repeat' split
  all_goals simp_all [whole, State.stream, State.setUpstream]

/-- A step that is not one of the goroutine does not see what it has handled. -/
theorem whole_step {t t' : Txn.State C} {e : Txn.Event C} (hno : replicates e = false) (h : Txn.Moves t e t') :
    Txn.step (whole t) e = some (whole t') := by
  cases h with
  | execute i r effect hu =>
    rw [← whole_execute]
    simp only [Txn.step, show (whole t).upstream i = .request r from hu]
  | append | unlock | stop => cases hno
  | _ => simp_all [Txn.step, whole, State.stream, State.setProxy, State.setUpstream]

theorem replicates_frame {t t' : Txn.State C} {e : Txn.Event C} (hno : replicates e = false) (h : Txn.Moves t e t') :
    t'.log = t.log ∧ t'.current = t.current ∧ t'.stopped = t.stopped := by
  cases h with
  | execute i r effect hu =>
    rw [execute_frame]
    exact ⟨rfl, rfl, rfl⟩
  | append | unlock | stop => cases hno
  | _ => exact ⟨rfl, rfl, rfl⟩

omit [DecidableEq C] in
/-- The message the goroutine takes is the one after those in the log. -/
theorem stream_get {t : Txn.State C} {e : Entry} {rest : List Entry} (hp : t.pending = e :: rest) :
    t.stream[t.log.length]? = some e := by
  rw [State.stream, hp, List.getElem?_append_right (Nat.le_of_eq (List.length_map _)), List.length_map, Nat.sub_self]
  rfl

theorem one_step (i : C) {t t' : Txn.State C} {e : Txn.Event C} (h : Txn.step t e = some t') :
    ∃ e', step (ofOne i t) e' = some (ofOne i t') := by
  have hmove := Txn.step_moves h
  cases hno : replicates e with
  | false =>
    obtain ⟨hlog, hcurrent, hstopped⟩ := replicates_frame hno hmove
    refine ⟨.txn e, ?_⟩
    simp only [step, hno, Bool.false_eq_true, if_false, ofOne, whole_step hno hmove, Option.map_some, hlog, hcurrent,
      hstopped]
  | true =>
    cases hmove with
    | append d rest hrun hc hp =>
      refine ⟨.append i, ?_⟩
      have hsub : (ofOne i t).subscriptions i = .running t.log.length none := by simp [ofOne, hrun, hc]
      have hget : (ofOne i t).txn.stream[t.log.length]? = some d := by
        rw [show (ofOne i t).txn.stream = t.stream from whole_stream t]
        exact stream_get hp
      simp only [step, hsub, hget]
      simp [ofOne, State.setSubscription, hrun, whole, State.stream, hp]
    | unlock d hrun hc =>
      refine ⟨.unlock i, ?_⟩
      simp [step, ofOne, State.setSubscription, hrun, hc, whole, State.stream]
    | stop =>
      refine ⟨.stop i, ?_⟩
      simp [step, ofOne, State.setSubscription, whole, State.stream]
    | _ => cases hno

/-- **One subscription for all is the case of one client that subscribes at the start**, and
of no other that does. -/
theorem one_refines (i : C) {t : Txn.State C} (h : Reach Txn.step Free (Txn.initial C) t) :
    Reach step Free (initial C) (ofOne i t) := by
  have hsubscribe : step (initial C) (.subscribe i 0 false) = some (ofOne i (Txn.initial C)) := rfl
  refine (Reach.next .start trivial hsubscribe).trans (h.refines (ofOne i) fun t e t' ht => ?_)
  obtain ⟨e', he'⟩ := one_step i ht
  exact .next .start trivial he'

end

end AnarchoRedis.Txn.Subscriptions
