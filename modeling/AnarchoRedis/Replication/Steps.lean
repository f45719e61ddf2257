import AnarchoRedis.Replication.System

/-! What one step of a call can do, said once.

`LoopMoves` lists the steps of `StreamUpdates` with what each needs and leaves,
`CallMoves` adds the other goroutine, the connection and the context; `step_cases`
is what a step of the whole system comes to. -/
namespace AnarchoRedis.Replication
open Base Protocol

/-- Within the loop, or in the callback it has called. -/
def Loop.running : Loop → Bool
  | .head | .reading | .got _ | .handling .. => true
  | _ => false

/-- Why the loop is left. -/
def Leaves (c : Call) (ok : Bool) : Prop :=
  ok = false ∨ c.cancelled = true ∨ ∃ m, c.loop = .got m ∧ (dispatch m = .fail ∨ ∃ id, dispatch m = .badResync id)

/-- The phases of `handleMessages` that change nothing outside. -/
inductive Phase.Before : Phase → Phase → Prop where
  | check : Phase.Before .entered .checked
  | name : Phase.Before .checked .named
  | key : Phase.Before .named .keyed

/-- The steps of `StreamUpdates`, each with what it needs of the state before. -/
inductive LoopMoves (keys : Msg → List Bytes) (sh : Shared) (c : Call) (ok : Bool) : Shared → Call → Prop where
  | refuse : c.loop = .idle → sh.didSignal = true →
      LoopMoves keys sh c ok {sh with replicationID := some (sh.replicationID.getD [])} {c with loop := .refused}
  | dial : c.loop = .idle → sh.didSignal = false →
      LoopMoves keys sh c ok {sh with replicationID := some (sh.replicationID.getD [])} {c with loop := .dialing}
  | giveUp : c.loop = .dialing ∨ c.loop = .connected → ok = false →
      LoopMoves keys sh c ok sh {c with loop := .refused}
  | start (m : Msg) (rest : List Msg) : c.loop = .connected → c.inbox = m :: rest →
      LoopMoves keys sh c ok sh {c with inbox := rest, loop := .head, ack := .sleeping, deferred := sh.offset}
  | turn : c.loop = .head → LoopMoves keys sh c ok sh {c with loop := .reading}
  | take (m : Msg) (rest : List Msg) : c.loop = .reading → ok = true → c.inbox = m :: rest →
      LoopMoves keys sh c ok sh {c with inbox := rest, loop := .got m}
  | crash (m : Msg) (id : Option Bytes) : c.loop = .got m → dispatch m = .crash id →
      LoopMoves keys sh c ok {sh with replicationID := id.or sh.replicationID} {c with loop := .leaving true}
  | resync (m : Msg) (id : Bytes) (offset : Int64) : c.loop = .got m → dispatch m = .resync id offset →
      LoopMoves keys sh c ok {sh with replicationID := some id, offset := offset, didSignal := true}
        {c with loop := .counting m}
  | pass (m : Msg) : c.loop = .got m → dispatch m = .call →
      LoopMoves keys sh c ok sh {c with loop := .handling m .entered, passed := c.passed ++ [m]}
  | skip (m : Msg) : c.loop = .got m → dispatch m = .skip →
      LoopMoves keys sh c ok sh {c with loop := .counting m}
  | advance (m : Msg) (p p' : Phase) : c.loop = .handling m p → Phase.Before p p' →
      LoopMoves keys sh c ok sh {c with loop := .handling m p'}
  | append (m : Msg) : c.loop = .handling m .keyed →
      LoopMoves keys sh c ok {sh with log := sh.log ++ [(m, sh.database)]} {c with loop := .handling m .appended}
  | unlock (m : Msg) : c.loop = .handling m .appended →
      LoopMoves keys sh c ok {sh with removed := sh.removed ++ [keys m]} {c with loop := .handling m .unlocked}
  | finish (m : Msg) : c.loop = .handling m .unlocked → LoopMoves keys sh c ok sh {c with loop := .counting m}
  | count (m : Msg) : c.loop = .counting m →
      LoopMoves keys sh c ok {sh with offset := sh.offset + m.size} {c with loop := .head}
  | leave (id : Option Bytes) : c.loop.running = true → Leaves c ok →
      LoopMoves keys sh c ok {sh with replicationID := id} {c with loop := .leaving false}
  | lastWrite (panics : Bool) : c.loop = .leaving panics →
      LoopMoves keys sh c ok sh {c with loop := .draining panics, acks := c.acks ++ [c.deferred]}
  | lastRead (panics : Bool) (rest : List Msg) : c.loop = .draining panics → (∃ m, c.inbox = m :: rest) →
      LoopMoves keys sh c ok sh {c with inbox := rest, loop := .last panics}
  | lastFail (panics : Bool) : c.loop = .leaving panics ∨ c.loop = .draining panics →
      LoopMoves keys sh c ok sh {c with loop := .last panics}

section
variable (keys : Msg → List Bytes) (sh : Shared) {c : Call} (ok : Bool)

theorem react_moves {m : Msg} (hl : c.loop = .got m) :
    LoopMoves keys sh c ok (react sh c m).1 (react sh c m).2 := by
  have hrun : c.loop.running = true := by rw [hl, Loop.running]
  unfold react
  split
  · exact .crash m _ hl ‹_›
  · exact .leave sh.replicationID hrun (.inr (.inr ⟨m, hl, .inl ‹_›⟩))
  · exact .leave _ hrun (.inr (.inr ⟨m, hl, .inr ⟨_, ‹_›⟩⟩))
  · exact .resync m _ _ hl ‹_›
  · exact .pass m hl ‹_›
  · exact .skip m hl ‹_›

theorem handle_moves {m : Msg} {phase : Phase} (hl : c.loop = .handling m phase) :
    LoopMoves keys sh c ok (handle keys sh c m ok phase).1 (handle keys sh c m ok phase).2 := by
  have leaves (h : Leaves c ok) : LoopMoves keys sh c ok sh {c with loop := .leaving false} :=
    .leave sh.replicationID (by rw [hl, Loop.running]) h
  cases phase with
  | entered =>
    simp only [handle]
    split
    · exact leaves (.inr (.inl ‹_›))
    · exact .advance m _ _ hl .check
  | checked =>
    simp only [handle]
    split
    · exact .advance m _ _ hl .name
    · exact leaves (.inl (eq_false_of_ne_true ‹_›))
  | named =>
    simp only [handle]
    split
    · exact .advance m _ _ hl .key
    · exact leaves (.inl (eq_false_of_ne_true ‹_›))
  | keyed =>
    simp only [handle]
    split
    · exact .append m hl
    · exact leaves (.inl (eq_false_of_ne_true ‹_›))
  | appended =>
    simp only [handle]
    split
    · exact .unlock m hl
    · exact leaves (.inl (eq_false_of_ne_true ‹_›))
  | unlocked =>
    simp only [handle]
    split
    · exact leaves (.inr (.inl ‹_›))
    · exact .finish m hl

end

section
variable {keys : Msg → List Bytes} {sh sh' : Shared} {c c' : Call} {ok : Bool}

theorem loop_moves (h : loopStep keys sh c ok = some (sh', c')) : LoopMoves keys sh c ok sh' c' := by
  unfold loopStep at h
  split at h
  next hl =>
    dsimp only at h
    split at h
    · cases h
      exact .refuse hl ‹_›
    · cases h
      exact .dial hl (eq_false_of_ne_true ‹_›)
  next hl =>
    split at h
    · cases h
    · cases h
      exact .giveUp (.inl hl) (eq_false_of_ne_true ‹_›)
  next hl =>
    split at h
    · split at h
      · cases h
      · cases h
        exact .start _ _ hl ‹_›
    · cases h
      exact .giveUp (.inr hl) (eq_false_of_ne_true ‹_›)
  next hl =>
    cases h
    split
    · exact .leave sh.replicationID (by rw [hl, Loop.running]) (.inr (.inl ‹_›))
    · exact .turn hl
  next hl =>
    split at h
    · split at h
      · cases h
      · cases h
        exact .take _ _ hl ‹_› ‹_›
    · cases h
      exact .leave sh.replicationID (by rw [hl, Loop.running]) (.inl (eq_false_of_ne_true ‹_›))
  next m hl =>
    have hm := react_moves keys sh ok hl
    rw [Option.some.injEq] at h
    rw [h] at hm
    exact hm
  next m phase hl =>
    have hm := handle_moves keys sh ok hl
    rw [Option.some.injEq] at h
    rw [h] at hm
    exact hm
  next m hl =>
    cases h
    exact .count m hl
  next hl =>
    split at h
    · cases h
      exact .lastWrite _ hl
    · cases h
      exact .lastFail _ (.inl hl)
  next hl =>
    split at h
    · split at h
      · cases h
      · cases h
        exact .lastRead _ _ hl ⟨_, ‹_›⟩
    · cases h
      exact .lastFail _ (.inr hl)
  all_goals cases h

/-- What one step of the acknowledgements does. -/
inductive AckMoves (sh : Shared) (c : Call) : Bool → Call → Prop where
  | load : c.ack = .sleeping → AckMoves sh c true {c with ack := .writing sh.offset}
  | stop : c.ack = .sleeping → AckMoves sh c false {c with ack := .stopped}
  | write (offset : Int64) : c.ack = .writing offset →
      AckMoves sh c true {c with ack := .flushing, acks := c.acks ++ [offset]}
  | flush (ok : Bool) : c.ack = .flushing → AckMoves sh c ok {c with ack := .reading}
  | read (m : Msg) (rest : List Msg) : c.ack = .reading → c.inbox = m :: rest →
      AckMoves sh c true {c with inbox := rest, ack := .sleeping}
  | fail : c.ack ≠ .off → AckMoves sh c false {c with ack := .sleeping}

theorem ackStep_moves (h : ackStep sh c ok = some c') : AckMoves sh c ok c' := by
  unfold ackStep at h
  cases ha : c.ack with
  | off | stopped =>
    rw [ha] at h
    cases h
  | sleeping =>
    rw [ha] at h
    cases ok with
    | true =>
      cases h
      exact .load ha
    | false =>
      simp only [Bool.false_eq_true, if_false] at h
      split at h
      · cases h
        exact .stop ha
      · cases h
  | writing offset =>
    rw [ha] at h
    cases ok with
    | true =>
      cases h
      exact .write offset ha
    | false =>
      cases h
      exact .fail (by simp [ha])
  | flushing =>
    rw [ha] at h
    cases h
    exact .flush ok ha
  | reading =>
    rw [ha] at h
    cases ok with
    | true =>
      simp only [if_true] at h
      split at h
      · cases h
      · cases h
        exact .read _ _ ha ‹_›
    | false =>
      cases h
      exact .fail (by simp [ha])

/-- The steps of a call, those of the loop apart. -/
inductive CallMoves (keys : Msg → List Bytes) (sh : Shared) (c : Call) : CallEvent → Shared → Call → Prop where
  | loop {ok : Bool} {sh' : Shared} {c' : Call} : LoopMoves keys sh c ok sh' c' →
      CallMoves keys sh c (.loop ok) sh' c'
  | connect (replies : List Msg) : c.loop = .dialing →
      CallMoves keys sh c (.connect replies) sh
        {c with loop := .connected, inbox := c.inbox ++ replies, received := c.received ++ replies}
  | ack (ok : Bool) (a : Ack) (acks : List Int64) : c.ack ≠ .off →
      CallMoves keys sh c (.ack ok) sh {c with ack := a, acks := acks}
  | ackRead (m : Msg) (rest : List Msg) : c.ack = .reading → c.inbox = m :: rest →
      CallMoves keys sh c (.ack true) sh {c with inbox := rest, ack := .sleeping}
  | cancel : CallMoves keys sh c .cancel sh {c with cancelled := true}

theorem ack_moves (h : ackStep sh c ok = some c') : CallMoves keys sh c (.ack ok) sh c' := by
  cases ackStep_moves h with
  | load ha | stop ha | flush _ ha => exact .ack _ _ c.acks (by simp [ha])
  | write offset ha => exact .ack true _ _ (by simp [ha])
  | read m rest ha hin => exact .ackRead m rest ha hin
  | fail ha => exact .ack false _ c.acks ha

theorem call_moves {e : CallEvent} (h : callStep keys sh c e = some (sh', c')) : CallMoves keys sh c e sh' c' := by
  cases e with
  | loop ok => exact .loop (loop_moves h)
  | connect replies =>
    simp only [callStep] at h
    split at h
    · cases h
      exact .connect replies ‹_›
    · cases h
  | ack ok =>
    obtain ⟨c'', hack, heq⟩ := Option.map_eq_some_iff.mp h
    cases heq
    exact ack_moves hack
  | cancel =>
    cases h
    exact .cancel

end

/-- The steps of the whole system. -/
inductive Moves {C : Type} [DecidableEq C] (keys : Msg → List Bytes) (s : State C) : Event C → State C → Prop where
  | call (i : C) {e : CallEvent} {sh : Shared} {c : Call} : CallMoves keys s.shared (s.calls i) e sh c →
      Moves keys s (.call i e) {s with shared := sh, calls := Function.update s.calls i c}
  | emit (m : Msg) :
      Moves keys s (.emit m)
        {s with
          calls := fun i => (s.calls i).receive {m with pos := s.stream.length}
          stream := s.stream ++ [{m with pos := s.stream.length}]}
  | select (db : Bytes) : Moves keys s (.select db) {s with shared := {s.shared with database := db}}

theorem step_moves {C : Type} [DecidableEq C] {keys : Msg → List Bytes} {s s' : State C} {e : Event C}
    (h : step keys s e = some s') : Moves keys s e s' := by
  cases e with
  | call i e =>
    obtain ⟨⟨sh, c⟩, hcall, heq⟩ := Option.map_eq_some_iff.mp h
    cases heq
    exact .call i (call_moves hcall)
  | emit m =>
    cases h
    exact .emit m
  | select db =>
    cases h
    exact .select db

end AnarchoRedis.Replication
