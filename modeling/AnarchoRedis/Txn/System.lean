import Mathlib.Logic.Function.Basic
import AnarchoRedis.Base.Runs
import AnarchoRedis.Protocol.Commands

/-! The transactor and the leader it stands in front of.

Any number of client connections each run `proxy` again and again: read a
request, send it to the leader, read the reply, note a `SELECT`, lock the keys of
a write, wait until every key has been seen unlocked, answer the client. The
leader executes one request at a time and puts what changed data on its
replication stream, in order. One run of `handleMessages` after another takes
the next message of that stream, appends it to the transaction log and unlocks
its keys. One subscription is assumed for all connections, and no acknowledgement
that reads a message of it; `Txn.Subscriptions` has a subscription for each, and
what several of them do to one another is in `Replication.Subscribers`.

`step` takes one of these steps; a run is any interleaving of them. What the
parties outside the source do is what is assumed of them: `Cmd` and `Keys` give
the name, the arguments and the keys (a `Command` is just that); the lock store
is the set of locked keys; the leader keeps a database per connection, and
precedes each run of commands for one database by a `SELECT`. -/
namespace AnarchoRedis.Txn
open Base Protocol

/-- What `Cmd` and `Keys` give of a request. -/
structure Command where
  name : Bytes
  args : List Bytes
  keys : List Bytes
  deriving DecidableEq

def Command.isWrite (c : Command) : Bool := Protocol.isWrite c.name

def Command.isSelect (c : Command) : Bool := c.name == ascii "SELECT"

/-- The database a `SELECT` names. -/
def Command.selects (c : Command) : Option Bytes := if c.isSelect then c.args.head? else none

/-- Two commands that name a key in common. -/
def Command.shares (c d : Command) : Bool := c.keys.any fun k => d.keys.contains k

/-- The message the leader inserts where its stream changes database. -/
def selectCommand (db : Bytes) : Command := ⟨ascii "SELECT", [db], []⟩

/-- A request, numbered in the order in which the proxies read them. -/
structure Request where
  id : Nat
  cmd : Command
  deriving DecidableEq

/-- Where a connection's run of `proxy` stands. -/
inductive Proxy where
  /-- At `connection.Read()`. -/
  | reading
  /-- The request is read; `upstream.Write` and `Flush` come next. -/
  | forwarding (r : Request)
  /-- At `upstream.Read()`. -/
  | waiting (r : Request)
  /-- The reply is here; the `SELECT` branch comes next. -/
  | replied (r : Request)
  /-- Past the `SELECT` branch; `LockKeys` of a write comes next. -/
  | selected (r : Request)
  /-- In `AwaitUnlocked`, with the keys it has not yet seen unlocked. -/
  | awaiting (r : Request) (left : List Bytes)
  /-- `proxy` has returned an error. -/
  | closed
  deriving DecidableEq

/-- The connection to the leader: at most one request or reply is on it. -/
inductive Upstream where
  | idle
  | request (r : Request)
  | reply (r : Request)
  deriving DecidableEq

/-- A message on the replication stream, with the request it comes from. -/
structure Entry where
  origin : Option Nat
  cmd : Command
  deriving DecidableEq

structure State (C : Type) where
  proxies : C → Proxy
  upstream : C → Upstream
  /-- The number the next request gets. -/
  fresh : Nat
  /-- The replies written to clients, in order. -/
  delivered : List Request
  /-- `t.database`. -/
  database : Bytes
  /-- The lock store. -/
  locked : Bytes → Bool
  /-- The leader's execution order. -/
  executed : List Request
  /-- The database each upstream connection has selected at the leader. -/
  chosen : C → Bytes
  /-- The database of the last command on the stream. -/
  streamDb : Option Bytes
  /-- The stream from the first message that has not been appended. -/
  pending : List Entry
  /-- The message that is appended and whose keys are not yet unlocked. -/
  current : Option Entry
  /-- The transaction log: each message with the database it was appended under. -/
  log : List (Entry × Bytes)
  /-- A failed `handleMessages` ends the subscription. -/
  stopped : Bool

def initial (C : Type) : State C where
  proxies := fun _ => .reading
  upstream := fun _ => .idle
  fresh := 0
  delivered := []
  database := ascii "0"
  locked := fun _ => false
  executed := []
  chosen := fun _ => ascii "0"
  streamDb := none
  pending := []
  current := none
  log := []
  stopped := false

/-- Everything the leader has put on its stream. -/
def State.stream {C : Type} (s : State C) : List Entry := s.log.map Prod.fst ++ s.pending

/-- The request's own message is in the transaction log. -/
def State.appended {C : Type} (s : State C) (id : Nat) : Bool :=
  s.log.any fun d => d.1.origin == some id

inductive Event (C : Type) where
  | read (i : C) (cmd : Command)
  | forward (i : C)
  /-- The leader executes the request. `effect`: a `SELECT` was accepted, any
  other command changed data. -/
  | execute (i : C) (effect : Bool)
  | reply (i : C)
  | select (i : C)
  | lock (i : C)
  /-- `AwaitUnlocked` sees the key unlocked. -/
  | see (i : C) (k : Bytes)
  | deliver (i : C)
  /-- Any step of `proxy` fails. -/
  | close (i : C)
  | append
  | unlock
  /-- Any step of `handleMessages` fails. -/
  | stop
  deriving DecidableEq

def lockKeys (keys : List Bytes) (locked : Bytes → Bool) : Bytes → Bool :=
  fun k => keys.contains k || locked k

def unlockKeys (keys : List Bytes) (locked : Bytes → Bool) : Bytes → Bool :=
  fun k => !keys.contains k && locked k

/-- What the leader puts on the stream for a command executed in `db`. -/
def emission (streamDb : Option Bytes) (db : Bytes) (e : Entry) : List Entry :=
  if streamDb = some db then [e] else [⟨none, selectCommand db⟩, e]

section
variable {C : Type} [DecidableEq C]

def State.setProxy (s : State C) (i : C) (p : Proxy) : State C :=
  {s with proxies := Function.update s.proxies i p}

def State.setUpstream (s : State C) (i : C) (u : Upstream) : State C :=
  {s with upstream := Function.update s.upstream i u}

/-- The leader executes `r`, which came on connection `i`. -/
def execute (s : State C) (i : C) (r : Request) (effect : Bool) : State C :=
  let s := {s.setUpstream i (.reply r) with executed := s.executed ++ [r]}
  if effect then
    if r.cmd.isSelect then
      match r.cmd.args with
      | [] => s
      | db :: _ => {s with chosen := Function.update s.chosen i db}
    else
      {s with
        pending := s.pending ++ emission s.streamDb (s.chosen i) ⟨some r.id, r.cmd⟩
        streamDb := some (s.chosen i)}
  else s

def step (s : State C) : Event C → Option (State C)
  | .read i cmd =>
    match s.proxies i with
    | .reading => some {s.setProxy i (.forwarding ⟨s.fresh, cmd⟩) with fresh := s.fresh + 1}
    | _ => none
  | .forward i =>
    match s.proxies i, s.upstream i with
    | .forwarding r, .idle => some ((s.setProxy i (.waiting r)).setUpstream i (.request r))
    | _, _ => none
  | .execute i effect =>
    match s.upstream i with
    | .request r => some (execute s i r effect)
    | _ => none
  | .reply i =>
    match s.proxies i, s.upstream i with
    | .waiting r, .reply _ => some ((s.setProxy i (.replied r)).setUpstream i .idle)
    | _, _ => none
  | .select i =>
    match s.proxies i with
    | .replied r =>
      if r.cmd.isSelect then
        match r.cmd.args with
        -- `cmd.Args[0]` of a `SELECT` without argument takes the process down.
        | [] => none
        | db :: _ => some {s.setProxy i (.selected r) with database := db}
      else some (s.setProxy i (.selected r))
    | _ => none
  | .lock i =>
    match s.proxies i with
    | .selected r =>
      if r.cmd.isWrite then
        some {s.setProxy i (.awaiting r r.cmd.keys) with locked := lockKeys r.cmd.keys s.locked}
      else some (s.setProxy i (.awaiting r r.cmd.keys))
    | _ => none
  | .see i k =>
    match s.proxies i with
    | .awaiting r left =>
      if s.locked k then none else some (s.setProxy i (.awaiting r (left.filter (· ≠ k))))
    | _ => none
  | .deliver i =>
    match s.proxies i with
    | .awaiting r [] => some {s.setProxy i .reading with delivered := s.delivered ++ [r]}
    | _ => none
  | .close i => some (s.setProxy i .closed)
  | .append =>
    match s.stopped, s.current, s.pending with
    | false, none, e :: rest =>
      some {s with pending := rest, current := some e, log := s.log ++ [(e, s.database)]}
    | _, _, _ => none
  | .unlock =>
    match s.stopped, s.current with
    | false, some e => some {s with current := none, locked := unlockKeys e.cmd.keys s.locked}
    | _, _ => none
  | .stop => some {s with stopped := true}

end

end AnarchoRedis.Txn
