import Mathlib.Logic.Function.Basic
import AnarchoRedis.Base.Runs
import AnarchoRedis.Protocol.Message

/-! The replication subscriber.

Each client connection calls `StreamUpdates` on one shared subscriber, with
`handleMessages` as the callback. A call passes the guard, connects to the
leader, and then runs two goroutines on that connection: the read loop, which
passes commands to the callback, and one that sends an acknowledgement from time
to time and reads a reply to it. The leader puts each message on every
connection that is established.

`step` takes one step of one goroutine, or lets the leader put a message on its
stream. Where a step calls something that may fail (dialing, a read, `Cmd`,
`Keys`, `Append`, `UnlockKeys`, a write), the event says whether it does. -/
namespace AnarchoRedis.Replication
open Base Protocol

/-- A message as `StreamUpdates` looks at it. -/
structure Msg where
  /-- Its place on the leader's stream, which nothing in the program reads. -/
  pos : Nat
  kind : Kind
  /-- The text of a simple or a bulk string. -/
  str : Bytes
  /-- The texts of the elements of an array. -/
  array : List Bytes
  size : Int64
  deriving DecidableEq

/-- A command for the data set, not one for the connection. -/
def Msg.isData (m : Msg) : Bool :=
  m.kind == .array && m.array.head?.any fun name => name != ascii "PING" && name != ascii "REPLCONF"

/-! ### What the read loop does with a message -/

inductive Action where
  /-- An index out of range, after the id that a `FULLRESYNC` gives was stored. -/
  | crash (id : Option Bytes)
  | fail
  /-- A `FULLRESYNC` whose offset is no number. -/
  | badResync (id : Bytes)
  | resync (id : Bytes) (offset : Int64)
  | call
  | skip
  deriving DecidableEq

/-- `FULLRESYNC`, by the fields of its line. -/
def fullResync : List Bytes → Action
  | _ :: id :: offset :: _ =>
    match parseInt offset with
    | .error _ => .badResync id
    | .ok offset => .resync id offset
  | [_, id] => .crash (some id)
  | _ => .crash none

/-- The switch of the read loop. The second case of the inner switch, `REPLCONF`,
is reached by a `PING` alone. -/
def dispatch (m : Msg) : Action :=
  match m.kind with
  | .simpleString =>
    if (m.str.splitOn 32).head? = some (ascii "FULLRESYNC") then fullResync (m.str.splitOn 32) else .skip
  | .array =>
    match m.array with
    | [] => .crash none
    | name :: _ => if name ≠ ascii "PING" then .call else .skip
  | .error => .fail
  | _ => .skip

/-! ### One call -/

/-- How far `handleMessages` has come. -/
inductive Phase where
  | entered
  | checked
  | named
  | keyed
  | appended
  | unlocked
  deriving DecidableEq

/-- Where a call of `StreamUpdates` stands. -/
inductive Loop where
  /-- Not called yet. -/
  | idle
  /-- Past the guard. -/
  | dialing
  /-- At the last read of the handshake. -/
  | connected
  /-- At the condition of the loop. -/
  | head
  | reading
  | got (m : Msg)
  | handling (m : Msg) (phase : Phase)
  /-- At `Offset.Add`. -/
  | counting (m : Msg)
  /-- Out of the loop, at the write of the deferred acknowledgement; a call that panics
  takes the process down after it. -/
  | leaving (panics : Bool)
  /-- At the read after it. -/
  | draining (panics : Bool)
  | done
  /-- Returned before the loop. -/
  | refused
  | crashed
  deriving DecidableEq

/-- After the deferred acknowledgement. -/
def Loop.last (panics : Bool) : Loop := if panics then .crashed else .done

/-- Where the goroutine that acknowledges stands. -/
inductive Ack where
  | off
  | sleeping
  | writing (offset : Int64)
  | flushing
  | reading
  | stopped
  deriving DecidableEq

structure Call where
  /-- On the connection and not read. -/
  inbox : List Msg := []
  /-- Everything the leader has put on the connection. -/
  received : List Msg := []
  /-- What the callback has been called with. -/
  passed : List Msg := []
  loop : Loop := .idle
  ack : Ack := .off
  cancelled : Bool := false
  /-- The offset that the deferred acknowledgement carries. -/
  deferred : Int64 := 0
  /-- The offsets acknowledged. -/
  acks : List Int64 := []

/-- What the calls share: the subscriber, and what `handleMessages` works on. -/
structure Shared where
  didSignal : Bool := false
  replicationID : Option Bytes := none
  offset : Int64 := 0
  /-- `t.database`. -/
  database : Bytes := ascii "0"
  log : List (Msg × Bytes) := []
  /-- The keys that each `UnlockKeys` removed. -/
  removed : List (List Bytes) := []

/-- The next step of a goroutine, and whether what may fail in it succeeds. -/
inductive CallEvent where
  | loop (ok : Bool)
  /-- The leader takes the connection and answers `PSYNC`. -/
  | connect (replies : List Msg)
  | ack (ok : Bool)
  /-- The context is cancelled. -/
  | cancel
  deriving DecidableEq

/-- The read loop has read `m`. -/
def react (sh : Shared) (c : Call) (m : Msg) : Shared × Call :=
  match dispatch m with
  | .crash id => ({sh with replicationID := id.or sh.replicationID}, {c with loop := .leaving true})
  | .fail => (sh, {c with loop := .leaving false})
  | .badResync id => ({sh with replicationID := some id}, {c with loop := .leaving false})
  | .resync id offset =>
    ({sh with replicationID := some id, offset := offset, didSignal := true}, {c with loop := .counting m})
  | .call => (sh, {c with loop := .handling m .entered, passed := c.passed ++ [m]})
  | .skip => (sh, {c with loop := .counting m})

section
variable (keys : Msg → List Bytes)

/-- The next step of `handleMessages` on `m`. -/
def handle (sh : Shared) (c : Call) (m : Msg) (ok : Bool) : Phase → Shared × Call
  | .entered => (sh, {c with loop := if c.cancelled then .leaving false else .handling m .checked})
  | .checked => (sh, {c with loop := if ok then .handling m .named else .leaving false})
  | .named => (sh, {c with loop := if ok then .handling m .keyed else .leaving false})
  | .keyed =>
    if ok then ({sh with log := sh.log ++ [(m, sh.database)]}, {c with loop := .handling m .appended})
    else (sh, {c with loop := .leaving false})
  | .appended =>
    if ok then ({sh with removed := sh.removed ++ [keys m]}, {c with loop := .handling m .unlocked})
    else (sh, {c with loop := .leaving false})
  | .unlocked => (sh, {c with loop := if c.cancelled then .leaving false else .counting m})

/-- The next step of `StreamUpdates`. A read waits for a message or fails. -/
def loopStep (sh : Shared) (c : Call) (ok : Bool) : Option (Shared × Call) :=
  match c.loop with
  | .idle =>
    let sh' := {sh with replicationID := some (sh.replicationID.getD [])}
    if sh.didSignal then some (sh', {c with loop := .refused}) else some (sh', {c with loop := .dialing})
  | .dialing => if ok then none else some (sh, {c with loop := .refused})
  | .connected =>
    if ok then
      match c.inbox with
      | [] => none
      | _ :: rest => some (sh, {c with inbox := rest, loop := .head, ack := .sleeping, deferred := sh.offset})
    else some (sh, {c with loop := .refused})
  | .head => some (sh, {c with loop := if c.cancelled then .leaving false else .reading})
  | .reading =>
    if ok then
      match c.inbox with
      | [] => none
      | m :: rest => some (sh, {c with inbox := rest, loop := .got m})
    else some (sh, {c with loop := .leaving false})
  | .got m => some (react sh c m)
  | .handling m phase => some (handle keys sh c m ok phase)
  | .counting m => some ({sh with offset := sh.offset + m.size}, {c with loop := .head})
  | .leaving panics =>
    if ok then some (sh, {c with loop := .draining panics, acks := c.acks ++ [c.deferred]})
    else some (sh, {c with loop := .last panics})
  | .draining panics =>
    if ok then
      match c.inbox with
      | [] => none
      | _ :: rest => some (sh, {c with inbox := rest, loop := .last panics})
    else some (sh, {c with loop := .last panics})
  | .done | .refused | .crashed => none

/-- The next step of the goroutine that acknowledges: `RoundTrip` is a write, a
flush whose error is dropped, and a read. -/
def ackStep (sh : Shared) (c : Call) (ok : Bool) : Option Call :=
  match c.ack with
  | .off | .stopped => none
  | .sleeping =>
    if ok then some {c with ack := .writing sh.offset}
    else if c.cancelled then some {c with ack := .stopped} else none
  | .writing offset =>
    if ok then some {c with ack := .flushing, acks := c.acks ++ [offset]} else some {c with ack := .sleeping}
  | .flushing => some {c with ack := .reading}
  | .reading =>
    if ok then
      match c.inbox with
      | [] => none
      | _ :: rest => some {c with inbox := rest, ack := .sleeping}
    else some {c with ack := .sleeping}

def callStep (sh : Shared) (c : Call) : CallEvent → Option (Shared × Call)
  | .loop ok => loopStep keys sh c ok
  | .connect replies =>
    match c.loop with
    | .dialing =>
      some (sh, {c with loop := .connected, inbox := c.inbox ++ replies, received := c.received ++ replies})
    | _ => none
  | .ack ok => (ackStep sh c ok).map fun c' => (sh, c')
  | .cancel => some (sh, {c with cancelled := true})

/-! ### All calls -/

/-- The leader has established the connection. -/
def Loop.online : Loop → Bool
  | .idle | .dialing | .refused => false
  | _ => true

/-- The leader puts a message on the connection, if there is one. -/
def Call.receive (c : Call) (m : Msg) : Call :=
  if c.loop.online then {c with inbox := c.inbox ++ [m], received := c.received ++ [m]} else c

structure State (C : Type) where
  shared : Shared := {}
  calls : C → Call := fun _ => {}
  /-- Everything the leader has put on its stream. -/
  stream : List Msg := []

inductive Event (C : Type) where
  | call (i : C) (e : CallEvent)
  | emit (m : Msg)
  /-- A proxy sets `t.database`. -/
  | select (db : Bytes)
  deriving DecidableEq

def step {C : Type} [DecidableEq C] (s : State C) : Event C → Option (State C)
  | .call i e =>
    (callStep keys s.shared (s.calls i) e).map fun (sh, c) =>
      {s with shared := sh, calls := Function.update s.calls i c}
  | .emit m =>
    let m := {m with pos := s.stream.length}
    some {s with calls := fun i => (s.calls i).receive m, stream := s.stream ++ [m]}
  | .select db => some {s with shared := {s.shared with database := db}}

end

end AnarchoRedis.Replication
