import AnarchoRedis.Replication.Offset

/-! The handshake, and who reads the leader's answer to it.

`startReplication` makes three round trips, with `PING`, `REPLCONF` and `PSYNC`, and
drops what they return. The answer to `PSYNC` is the `FULLRESYNC` line, so the read
loop that is started then finds only what follows it: it never learns the
replication id, and `Broadcast` is never called (`psync_dropped`). The system is the
one of the subscriber, with the two round trips before the last one and the leader's
part written out (`session_refines`). -/
namespace AnarchoRedis.Replication
open Base Protocol

/-- A leader that answers the three requests, and then sends commands. -/
structure Leader where
  pong : Msg
  ok : Msg
  /-- The replication id and the offset of the answer to `PSYNC`. -/
  id : Bytes
  offset : Int64
  answer : Msg
  answer_kind : answer.kind = .simpleString
  answer_str : answer.str = resyncText id offset
  first : Msg
  rest : List Msg
  commands : ∀ m ∈ first :: rest, m.kind = .array ∧ m.array ≠ []

/-- The request that is under way. -/
inductive Stage where
  | ping
  | replconf
  | psync
  deriving DecidableEq

inductive Trip where
  | writing
  | flushing
  | reading
  deriving DecidableEq

structure Session where
  shared : Shared
  call : Call := {}
  /-- Where `startReplication` stands, once it has a connection. -/
  hand : Option (Stage × Trip) := none
  /-- On the connection and not read, until the last read of the handshake. -/
  conn : List Msg := []
  /-- How many requests the leader has got. -/
  requests : Nat := 0
  /-- How many messages it has sent. -/
  sent : Nat := 0
  /-- What it has still to send. -/
  todo : List Msg
  /-- The messages whose turn in the loop is over. -/
  turns : List Msg := []

def Leader.session (l : Leader) (sh : Shared) : Session where
  shared := sh
  todo := l.pong :: l.ok :: l.answer :: l.first :: l.rest

inductive SessionEvent where
  /-- The next step of `StreamUpdates`, and whether what may fail in it succeeds. -/
  | loop (ok : Bool)
  /-- The next step of the goroutine that acknowledges. -/
  | ack (ok : Bool)
  | cancel
  /-- The leader sends its next message: an answer once it has the request, and
  commands after the answers. -/
  | send
  deriving DecidableEq

def Session.refuse (s : Session) : Session := {s with call := {s.call with loop := .refused}, hand := none}

/-- A step of `startReplication`. The error of a flush is dropped, and so is what a
round trip returns. The read of the answer to `PSYNC` is left to `loopStep`. -/
def handshakeStep (s : Session) (ok : Bool) : Stage → Trip → Option Session
  | stage, .writing => if ok then some {s with hand := some (stage, .flushing)} else some s.refuse
  | .psync, .flushing =>
    some {s with
      requests := if ok then s.requests + 1 else s.requests
      call := {s.call with loop := .connected, inbox := s.call.inbox ++ s.conn, received := s.call.received ++ s.conn}
      hand := none
      conn := []}
  | stage, .flushing =>
    some {s with requests := if ok then s.requests + 1 else s.requests, hand := some (stage, .reading)}
  | .psync, .reading => none
  | stage, .reading =>
    if ok then
      match s.conn with
      | [] => none
      | _ :: rest =>
        some {s with conn := rest, hand := some (if stage = .ping then .replconf else .psync, .writing)}
    else some s.refuse

section
variable (keys : Msg → List Bytes)

/-- A step of the subscriber, outside the handshake. -/
def Session.callStep (s : Session) (e : CallEvent) : Option Session :=
  (Replication.callStep keys s.shared s.call e).map fun (sh, c) => {s with shared := sh, call := c}

def sessionStep (s : Session) : SessionEvent → Option Session
  | .loop ok =>
    match s.call.loop, s.hand with
    | .dialing, none => if ok then some {s with hand := some (.ping, .writing)} else s.callStep keys (.loop ok)
    | .dialing, some (stage, trip) => handshakeStep s ok stage trip
    | .counting m, _ => (s.callStep keys (.loop ok)).map fun s' => {s' with turns := s.turns ++ [m]}
    | _, _ => s.callStep keys (.loop ok)
  | .ack ok => s.callStep keys (.ack ok)
  | .cancel => s.callStep keys .cancel
  | .send =>
    match s.todo with
    | [] => none
    | m :: rest =>
      if s.sent < s.requests ∨ 3 ≤ s.sent then
        if s.hand.isSome then some {s with todo := rest, sent := s.sent + 1, conn := s.conn ++ [m]}
        else if s.call.loop.online then some {s with todo := rest, sent := s.sent + 1, call := s.call.receive m}
        else none
      else none

/-- The answer has been taken up: the id is known, and the channel closed. -/
def TakenUp (l : Leader) (s : Session) : Prop :=
  s.shared.replicationID = some l.id ∧ s.shared.didSignal = true

end

/-! ### Steps -/

/-- The steps of a session, each with what it needs of the state before. -/
inductive SessionMoves (keys : Msg → List Bytes) (s : Session) : Session → Prop where
  | call (e : CallEvent) (sh : Shared) (c : Call) : (∀ replies, e ≠ .connect replies) →
      callStep keys s.shared s.call e = some (sh, c) → SessionMoves keys s {s with shared := sh, call := c}
  | count (m : Msg) (ok : Bool) (sh : Shared) (c : Call) : s.call.loop = .counting m →
      callStep keys s.shared s.call (.loop ok) = some (sh, c) →
      SessionMoves keys s {s with shared := sh, call := c, turns := s.turns ++ [m]}
  | dial : s.call.loop = .dialing → s.hand = none → SessionMoves keys s {s with hand := some (.ping, .writing)}
  | refuse : s.call.loop = .dialing → SessionMoves keys s s.refuse
  | write (stage : Stage) : s.call.loop = .dialing → s.hand = some (stage, .writing) →
      SessionMoves keys s {s with hand := some (stage, .flushing)}
  | flush (stage : Stage) (n : Nat) : s.call.loop = .dialing → s.hand = some (stage, .flushing) →
      SessionMoves keys s {s with requests := n, hand := some (stage, .reading)}
  | connect (n : Nat) : s.call.loop = .dialing → s.hand = some (.psync, .flushing) →
      SessionMoves keys s {s with
        requests := n
        call := {s.call with loop := .connected, inbox := s.call.inbox ++ s.conn, received := s.call.received ++ s.conn}
        hand := none
        conn := []}
  | pong (m : Msg) (rest : List Msg) : s.call.loop = .dialing → s.hand = some (.ping, .reading) → s.conn = m :: rest →
      SessionMoves keys s {s with conn := rest, hand := some (.replconf, .writing)}
  | ok (m : Msg) (rest : List Msg) : s.call.loop = .dialing → s.hand = some (.replconf, .reading) →
      s.conn = m :: rest → SessionMoves keys s {s with conn := rest, hand := some (.psync, .writing)}
  | send (m : Msg) (rest : List Msg) : s.todo = m :: rest → s.hand ≠ none →
      SessionMoves keys s {s with todo := rest, sent := s.sent + 1, conn := s.conn ++ [m]}
  | receive (m : Msg) (rest : List Msg) : s.todo = m :: rest → s.call.loop.online = true →
      SessionMoves keys s {s with todo := rest, sent := s.sent + 1, call := s.call.receive m}

section
variable {keys : Msg → List Bytes} {s s' : Session}

theorem callStep_moves {e : CallEvent} (he : ∀ replies, e ≠ .connect replies) (h : s.callStep keys e = some s') :
    SessionMoves keys s s' := by
  obtain ⟨⟨sh, c⟩, hstep, rfl⟩ := Option.map_eq_some_iff.mp h
  exact .call e sh c he hstep

theorem handshake_moves {ok : Bool} {stage : Stage} {trip : Trip} (hl : s.call.loop = .dialing)
    (hhand : s.hand = some (stage, trip)) (h : handshakeStep s ok stage trip = some s') : SessionMoves keys s s' := by
  cases trip with
  | writing =>
    cases ok <;> cases stage <;> cases h
    all_goals first
      | exact .refuse hl
      | exact .write _ hl hhand
  | flushing =>
    cases stage <;> cases h
    · exact .flush .ping _ hl hhand
    · exact .flush .replconf _ hl hhand
    · exact .connect _ hl hhand
  | reading =>
    cases ok with
    | false =>
      cases stage <;> cases h
      · exact .refuse hl
      · exact .refuse hl
    | true =>
      cases hc : s.conn with
      | nil => cases stage <;> simp [handshakeStep, hc] at h
      | cons m rest =>
        cases stage with
        | ping =>
          simp only [handshakeStep, hc, if_true, Option.some.injEq] at h
          exact h ▸ .pong m rest hl hhand hc
        | replconf =>
          simp only [handshakeStep, hc, if_true, Option.some.injEq] at h
          exact h ▸ .ok m rest hl hhand hc
        | psync => cases h

theorem session_moves {e : SessionEvent} (h : sessionStep keys s e = some s') : SessionMoves keys s s' := by
  cases e with
  | loop ok =>
    simp only [sessionStep] at h
    split at h
    · rename_i hl hhand
      split at h
      · cases h
        exact .dial hl hhand
      · exact callStep_moves (by simp) h
    · rename_i hl hhand
      exact handshake_moves hl hhand h
    · rename_i m hl
      obtain ⟨_, hs, rfl⟩ := Option.map_eq_some_iff.mp h
      obtain ⟨⟨sh, c⟩, hstep, rfl⟩ := Option.map_eq_some_iff.mp hs
      exact .count m ok sh c hl hstep
    · exact callStep_moves (by simp) h
  | ack ok => exact callStep_moves (by simp) h
  | cancel => exact callStep_moves (by simp) h
  | send =>
    simp only [sessionStep] at h
    split at h
    · cases h
    rename_i m rest htodo
    split at h
    · split at h
      · rename_i hhand
        cases h
        exact .send m rest htodo (Option.isSome_iff_ne_none.mp hhand)
      · split at h <;> cases h
        rename_i honline
        exact .receive m rest htodo honline
    · cases h

end

/-! ### The subscriber alone

In `callStep` the leader takes the connection in one step and has then sent what it
likes. The handshake is that step, with its round trips written out. -/

/-- One subscriber, and messages that reach it. -/
def subscriberStep (keys : Msg → List Bytes) (s : Shared × Call) : CallEvent ⊕ Msg → Option (Shared × Call)
  | .inl e => callStep keys s.1 s.2 e
  | .inr m => some (s.1, s.2.receive m)

def Session.subscriber (s : Session) : Shared × Call := (s.shared, s.call)

section
variable {keys : Msg → List Bytes} {s s' : Session}

theorem SessionMoves.reach (h : SessionMoves keys s s') :
    Reach (subscriberStep keys) Free s.subscriber s'.subscriber := by
  have hone {sh : Shared} {c : Call} (e : CallEvent) (hstep : callStep keys s.shared s.call e = some (sh, c)) :
      Reach (subscriberStep keys) Free s.subscriber (sh, c) := .next (e := .inl e) .start trivial hstep
  cases h with
  | call e sh c _ hstep => exact hone e hstep
  | count m ok sh c _ hstep => exact hone (.loop ok) hstep
  | refuse hl =>
    refine hone (.loop false) ?_
    simp only [callStep, loopStep, hl]
    rfl
  | connect n hl =>
    refine hone (.connect s.conn) ?_
    simp only [callStep, hl]
  | receive m => exact .next (e := .inr m) .start trivial rfl
  | dial | write | flush | pong | ok | send => exact .start

/-- **A session refines the subscriber**: what holds of every run of `callStep`, with
whatever the leader sends, holds with the handshake written out. -/
theorem session_refines {s₀ : Session} (h : Reach (sessionStep keys) Free s₀ s) :
    Reach (subscriberStep keys) Free s₀.subscriber s.subscriber :=
  h.refines Session.subscriber fun _ _ _ hs => (session_moves hs).reach

end

/-! ### What the loop finds -/

/-- What is to be read from a request's answer on. -/
def Leader.from (l : Leader) : Stage → List Msg
  | .ping => l.pong :: l.ok :: l.answer :: l.first :: l.rest
  | .replconf => l.ok :: l.answer :: l.first :: l.rest
  | .psync => l.answer :: l.first :: l.rest

/-- Only arrays are to come. -/
def Session.OnlyArrays (s : Session) : Prop := ∀ m ∈ s.call.inbox ++ s.todo, m.kind = .array

/-- What is on the connection or still to be sent, by where the call stands. -/
def Left (l : Leader) (s : Session) : Prop :=
  match s.call.loop with
  | .idle => s.hand = none ∧ s.call.ack = .off ∧ s.call.inbox = [] ∧ s.conn ++ s.todo = l.from .ping
  | .dialing =>
    s.call.ack = .off ∧ s.call.inbox = [] ∧ s.conn ++ s.todo = l.from (s.hand.elim .ping Prod.fst)
  | .connected => s.hand = none ∧ s.call.ack = .off ∧ s.call.inbox ++ s.todo = l.from .psync
  | .head | .reading => s.hand = none ∧ s.OnlyArrays
  | .got m | .handling m _ | .counting m => s.hand = none ∧ m.kind = .array ∧ s.OnlyArrays
  | .leaving _ | .draining _ | .done | .refused | .crashed => True

structure Missed (l : Leader) (s : Session) : Prop where
  quiet : s.shared.didSignal = false
  left : Left l s

theorem dispatch_array {m : Msg} (h : m.kind = .array) (id : Bytes) (offset : Int64) :
    dispatch m ≠ .resync id offset := by
  intro hd
  rw [dispatch, h] at hd
  cases harray : m.array with
  | nil =>
    rw [harray] at hd
    cases hd
  | cons name args =>
    rw [harray] at hd
    dsimp only at hd
    split at hd <;> cases hd

section
variable {keys : Msg → List Bytes} {l : Leader} {s : Session}

theorem missed_loop (h : Missed l s) {ok : Bool} {sh : Shared} {c : Call}
    (hmove : LoopMoves keys s.shared s.call ok sh c) : Missed l {s with shared := sh, call := c} := by
  obtain ⟨hquiet, hleft⟩ := h
  cases hmove with
  | refuse hl => exact ⟨hquiet, trivial⟩
  | dial hl =>
    simp only [Left, hl] at hleft
    obtain ⟨hhand, hack, hin, hconn⟩ := hleft
    refine ⟨hquiet, ?_⟩
    simp only [Left, hhand]
    exact ⟨hack, hin, hconn⟩
  | giveUp => exact ⟨hquiet, trivial⟩
  | start m rest hl hin =>
    simp only [Left, hl, hin, List.cons_append] at hleft
    obtain ⟨hhand, -, hfrom⟩ := hleft
    have hcmds : rest ++ s.todo = l.first :: l.rest := (List.cons.inj hfrom).2
    refine ⟨hquiet, hhand, fun m hm => ?_⟩
    exact (l.commands m (hcmds ▸ hm)).1
  | turn hl =>
    simp only [Left, hl] at hleft
    exact ⟨hquiet, hleft⟩
  | take m rest hl _ hin =>
    simp only [Left, hl, Session.OnlyArrays, hin] at hleft
    obtain ⟨hhand, harrays⟩ := hleft
    exact ⟨hquiet, hhand, harrays m List.mem_cons_self, fun x hx => harrays x (List.mem_cons_of_mem _ hx)⟩
  | resync m id offset hl hd =>
    simp only [Left, hl] at hleft
    exact absurd hd (dispatch_array hleft.2.1 id offset)
  | pass m hl | skip m hl | advance m _ _ hl | append m hl | unlock m hl | finish m hl =>
    simp only [Left, hl] at hleft
    exact ⟨hquiet, hleft⟩
  | count m hl =>
    simp only [Left, hl] at hleft
    exact ⟨hquiet, hleft.1, hleft.2.2⟩
  | crash | leave | lastWrite => exact ⟨hquiet, trivial⟩
  | lastRead panics | lastFail panics => cases panics <;> exact ⟨hquiet, trivial⟩

/-- Messages that go, and a step of the other goroutine, leave what the loop will find. -/
theorem Missed.thin (h : Missed l s) {c : Call} (hloop : c.loop = s.call.loop) (hack : s.call.ack ≠ .off)
    (hin : ∀ m ∈ c.inbox, m ∈ s.call.inbox) : Missed l {s with call := c} := by
  obtain ⟨hquiet, hleft⟩ := h
  have harrays (ha : s.OnlyArrays) : ({s with call := c} : Session).OnlyArrays := fun m hm => by
    rcases List.mem_append.mp hm with hm | hm
    · exact ha m (List.mem_append_left _ (hin m hm))
    · exact ha m (List.mem_append_right _ hm)
  refine ⟨hquiet, ?_⟩
  unfold Left at hleft ⊢
  dsimp only
  rw [hloop]
  split at hleft
  · exact absurd hleft.2.1 hack
  · exact absurd hleft.1 hack
  · exact absurd hleft.2.1 hack
  · exact ⟨hleft.1, harrays hleft.2⟩
  · exact ⟨hleft.1, harrays hleft.2⟩
  · exact ⟨hleft.1, hleft.2.1, harrays hleft.2.2⟩
  · exact ⟨hleft.1, hleft.2.1, harrays hleft.2.2⟩
  · exact ⟨hleft.1, hleft.2.1, harrays hleft.2.2⟩
  all_goals trivial

theorem missed_call {e : CallEvent} {sh : Shared} {c : Call} (h : Missed l s) (he : ∀ replies, e ≠ .connect replies)
    (hstep : callStep keys s.shared s.call e = some (sh, c)) : Missed l {s with shared := sh, call := c} := by
  cases call_moves hstep with
  | loop hmove => exact missed_loop h hmove
  | connect replies => exact absurd rfl (he replies)
  | ack _ _ _ hack => exact h.thin rfl hack fun _ hm => hm
  | ackRead m rest hack hin =>
    refine h.thin rfl (by simp [hack]) fun x hx => ?_
    rw [hin]
    exact List.mem_cons_of_mem _ hx
  | cancel => exact ⟨h.quiet, h.left⟩

/-- Between the dialing and the connection only the leader's answers move. -/
theorem Missed.dialing (h : Missed l s) (hl : s.call.loop = .dialing) {n : Nat} {conn : List Msg}
    {hand : Option (Stage × Trip)}
    (hconn : s.conn ++ s.todo = l.from (s.hand.elim .ping Prod.fst) →
      conn ++ s.todo = l.from (hand.elim .ping Prod.fst)) :
    Missed l {s with requests := n, conn := conn, hand := hand} := by
  have hleft := h.left
  refine ⟨h.quiet, ?_⟩
  simp only [Left, hl] at hleft ⊢
  exact ⟨hleft.1, hleft.2.1, hconn hleft.2.2⟩

theorem Missed.send (h : Missed l s) {m : Msg} {rest : List Msg} (htodo : s.todo = m :: rest) (hhand : s.hand ≠ none)
    (n : Nat) : Missed l {s with todo := rest, sent := n, conn := s.conn ++ [m]} := by
  have hmove : s.conn ++ [m] ++ rest = s.conn ++ s.todo := by
    rw [htodo, List.append_assoc, List.singleton_append]
  have hleft := h.left
  refine ⟨h.quiet, ?_⟩
  unfold Left at hleft ⊢
  dsimp only
  rw [hmove]
  split at hleft
  all_goals first
    | exact hleft
    | exact absurd hleft.1 hhand

theorem Missed.receive (h : Missed l s) {m : Msg} {rest : List Msg} (htodo : s.todo = m :: rest)
    (honline : s.call.loop.online = true) (n : Nat) :
    Missed l {s with todo := rest, sent := n, call := s.call.receive m} := by
  have hmove : s.call.inbox ++ [m] ++ rest = s.call.inbox ++ s.todo := by
    rw [htodo, List.append_assoc, List.singleton_append]
  have hleft := h.left
  refine ⟨h.quiet, ?_⟩
  rw [Call.receive, if_pos honline]
  unfold Left at hleft ⊢
  simp only [Session.OnlyArrays, hmove] at hleft ⊢
  split at hleft
  all_goals rename_i hl
  · rw [hl] at honline
    cases honline
  · rw [hl] at honline
    cases honline
  all_goals exact hleft

/-- A round trip of the handshake takes its own answer, the last one with the read
that starts the loop. -/
theorem missed_step {s' : Session} (h : Missed l s) (hmove : SessionMoves keys s s') : Missed l s' := by
  cases hmove with
  | call e sh c he hstep => exact missed_call h he hstep
  | count m ok sh c _ hstep =>
    have hcall := missed_call h (by simp) hstep
    exact ⟨hcall.quiet, hcall.left⟩
  | refuse => exact ⟨h.quiet, trivial⟩
  | dial hl hhand => exact h.dialing hl fun hconn => by rwa [hhand] at hconn
  | write stage hl hhand | flush stage n hl hhand => exact h.dialing hl fun hconn => by rwa [hhand] at hconn
  | connect n hl hhand =>
    have hleft := h.left
    simp only [Left, hl, hhand, Option.elim_some] at hleft
    refine ⟨h.quiet, rfl, hleft.1, ?_⟩
    rw [hleft.2.1]
    exact hleft.2.2
  | pong m rest hl hhand hc | ok m rest hl hhand hc =>
    refine h.dialing hl fun hconn => ?_
    rw [hhand, hc] at hconn
    exact (List.cons.inj hconn).2
  | send m rest htodo hhand => exact h.send htodo hhand _
  | receive m rest htodo honline => exact h.receive htodo honline _

end

/-- A subscriber that has been used stays where it is. -/
structure TurnedAway (s : Session) : Prop where
  used : s.shared.didSignal = true
  loop : s.call.loop = .idle ∨ s.call.loop = .refused
  hand : s.hand = none
  turns : s.turns = []

section
variable {keys : Msg → List Bytes} {s s' : Session}

theorem turnedAway_call {e : CallEvent} {sh : Shared} {c : Call} (h : TurnedAway s)
    (he : ∀ replies, e ≠ .connect replies) (hstep : callStep keys s.shared s.call e = some (sh, c)) :
    TurnedAway {s with shared := sh, call := c} := by
  obtain ⟨hused, hloop, hhand, hturns⟩ := h
  cases call_moves hstep with
  | loop hmove =>
    have hstay : sh.didSignal = true ∧ c.loop = .refused := by
      rcases hloop with hl | hl <;> cases hmove <;> simp_all [Loop.running]
    exact ⟨hstay.1, .inr hstay.2, hhand, hturns⟩
  | connect replies => exact absurd rfl (he replies)
  | ack | ackRead | cancel => exact ⟨hused, hloop, hhand, hturns⟩

theorem turnedAway_step (h : TurnedAway s) (hmove : SessionMoves keys s s') : TurnedAway s' := by
  have hidle (hl : s.call.loop ≠ .idle) (hl' : s.call.loop ≠ .refused) : TurnedAway s' :=
    (h.loop.elim hl hl').elim
  cases hmove with
  | call e sh c he hstep => exact turnedAway_call h he hstep
  | count m ok sh c hl => exact hidle (by simp [hl]) (by simp [hl])
  | dial hl | refuse hl | write _ hl | flush _ _ hl | connect _ hl | pong _ _ hl | ok _ _ hl =>
    exact hidle (by simp [hl]) (by simp [hl])
  | send m rest _ hhand => exact absurd h.hand hhand
  | receive m rest _ honline =>
    rcases h.loop with hl | hl <;> rw [hl] at honline <;> cases honline

end

/-! ### Whole sessions -/

section
variable (keys : Msg → List Bytes) (l : Leader) {sh : Shared}

/-- A round trip whose request gets through and is answered. -/
def answered : List SessionEvent := [.loop true, .loop true, .send, .loop true]

/-- A handshake that goes through, the first command, and the start of its turn. -/
def handshake : List SessionEvent :=
  [.loop true, .loop true] ++ answered ++ answered ++ answered ++ [.send, .loop true, .loop true]

theorem exists_got_first (h : sh.didSignal = false) :
    ∃ s, Reach (sessionStep keys) Free (l.session sh) s ∧
      s.call.loop = .got l.first ∧ s.call.cancelled = false ∧ s.hand = none := by
  obtain ⟨s, hplay, hgot⟩ : ∃ s, play (sessionStep keys) (fun _ _ => true) (l.session sh) handshake = some s ∧
      s.call.loop = .got l.first ∧ s.call.cancelled = false ∧ s.hand = none := by
    cases sh
    cases h
    exact ⟨_, rfl, rfl, rfl, rfl⟩
  exact ⟨s, reach_of_play (fun _ _ _ => trivial) handshake hplay, hgot⟩

section
variable {keys}

/-- A step of the loop after the handshake, as one of the session. -/
theorem session_turn {s : Session} {ok : Bool} {p : Shared × Call} (hhand : s.hand = none)
    (h : turnStep keys (s.shared, s.call) ok = some p) :
    ∃ turns, sessionStep keys s (.loop ok) = some {s with shared := p.1, call := p.2, turns := turns} := by
  have hcall : s.callStep keys (.loop ok) = some {s with shared := p.1, call := p.2} := by
    replace h : Replication.callStep keys s.shared s.call (.loop ok) = some p := h
    rw [Session.callStep, h]
    rfl
  simp only [sessionStep]
  split
  · rename_i hl _
    cases ok with
    | false => exact ⟨s.turns, hcall⟩
    | true =>
      simp only [turnStep, loopStep, hl] at h
      cases h
  · rename_i hsome
    rw [hhand] at hsome
    cases hsome
  · rw [hcall]
    exact ⟨_, rfl⟩
  · exact ⟨s.turns, hcall⟩

/-- A run of the loop after the handshake is one of the session. -/
theorem exists_session {s : Session} (hhand : s.hand = none) {p : Shared × Call}
    (h : Reach (turnStep keys) Free (s.shared, s.call) p) :
    ∃ turns, Reach (sessionStep keys) Free s {s with shared := p.1, call := p.2, turns := turns} := by
  induction h with
  | start => exact ⟨s.turns, .start⟩
  | next _ _ hstep ih =>
    obtain ⟨turns, hs⟩ := ih
    obtain ⟨turns', hturn⟩ := session_turn (s := {s with shared := _, call := _, turns := turns}) hhand hstep
    exact ⟨turns', hs.next trivial hturn⟩

end

/-- Every leader comes to the end of the first command's turn. -/
theorem exists_first_turn (h : sh.didSignal = false) :
    ∃ s, Reach (sessionStep keys) Free (l.session sh) s ∧ s.turns ≠ [] := by
  obtain ⟨s, hs, hl, hc, hhand⟩ := exists_got_first keys l h
  have hgoesOn : (dispatch l.first).goesOn = true := by
    rcases dispatch_command (l.commands l.first List.mem_cons_self) with hd | hd <;> rw [hd] <;> rfl
  obtain ⟨p, hp, hcounting, -⟩ := exists_counting keys s.shared hl hc hgoesOn
  obtain ⟨turns, hcount⟩ := exists_session hhand hp
  have hend : sessionStep keys {s with shared := p.1, call := p.2, turns := turns} (.loop true) =
      some {s with
        shared := {p.1 with offset := p.1.offset + l.first.size}
        call := {p.2 with loop := .head}
        turns := turns ++ [l.first]} := by
    simp only [sessionStep, hcounting, Session.callStep, callStep, loopStep]
    rfl
  exact ⟨_, (hs.trans hcount).next trivial hend, List.concat_ne_nil l.first turns⟩

/-- **The answer to `PSYNC` is never taken up.** Every leader comes to the end of the
first command's turn, and whenever a command has had its turn the answer was dropped. -/
theorem psync_dropped (sh : Shared) :
    (sh.didSignal = false → ∃ s, Reach (sessionStep keys) Free (l.session sh) s ∧ s.turns ≠ []) ∧
      ∀ s, Reach (sessionStep keys) Free (l.session sh) s → s.turns ≠ [] → ¬TakenUp l s := by
  refine ⟨exists_first_turn keys l, fun s hs hturns htaken => ?_⟩
  cases hsignal : sh.didSignal with
  | false =>
    have h₀ : Missed l (l.session sh) := ⟨hsignal, rfl, rfl, rfl, rfl⟩
    have hmissed := hs.invariant (Missed l) h₀ fun _ _ _ h _ hs => missed_step h (session_moves hs)
    exact Bool.noConfusion (hmissed.quiet.symm.trans htaken.2)
  | true =>
    have h₀ : TurnedAway (l.session sh) := ⟨hsignal, .inl rfl, rfl, rfl⟩
    have haway := hs.invariant TurnedAway h₀ fun _ _ _ h _ hs => turnedAway_step h (session_moves hs)
    exact hturns haway.turns

end

/-- A leader at offset 100 that sends one `SET`. -/
def setLeader : Leader where
  pong := ⟨0, .simpleString, ascii "PONG", [], 7⟩
  ok := ⟨0, .simpleString, ascii "OK", [], 5⟩
  id := firstSync.id
  offset := firstSync.offset
  answer := resyncLine firstSync
  answer_kind := rfl
  answer_str := rfl
  first := setCommand
  rest := []
  commands := by decide

theorem psync_dropped_set :
    ∃ s, Reach (sessionStep fun _ => []) Free (setLeader.session {}) s ∧ s.turns ≠ [] ∧ ¬TakenUp setLeader s := by
  obtain ⟨hexists, hdropped⟩ := psync_dropped (fun _ => []) setLeader {}
  obtain ⟨s, hs, hturns⟩ := hexists rfl
  exact ⟨s, hs, hturns, hdropped s hs hturns⟩

/-- **The id is still empty** when the `SET` has had its turn. -/
theorem not_takenUp :
    ¬∀ (l : Leader) (s : Session), Reach (sessionStep fun _ => []) Free (l.session {}) s → s.turns ≠ [] →
      TakenUp l s := by
  intro h
  obtain ⟨s, hs, hf⟩ := exists_reach_of_play (sessionStep fun _ => []) (fun _ _ => true) (fun _ _ _ => trivial)
    (setLeader.session {}) (handshake ++ List.replicate 8 (.loop true))
    (fun s => decide (s.turns ≠ [] ∧ s.shared.replicationID = some [])) (by decide)
  obtain ⟨hturns, hid⟩ := of_decide_eq_true hf
  have htaken : some [] = some setLeader.id := hid.symm.trans (h setLeader s hs hturns).1
  exact absurd htaken (by decide)

end AnarchoRedis.Replication
