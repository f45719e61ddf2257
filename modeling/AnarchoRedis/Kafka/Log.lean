import AnarchoRedis.Base.Buffered
import AnarchoRedis.Protocol.Cmd
import AnarchoRedis.Protocol.Locks
import AnarchoRedis.Protocol.Trace

/-! The transaction log on Kafka.

`Append` locks the connection, encodes the message into it, takes what has come through
to the buffer below as the value of a record, and unlocks. A mutex is not reentrant, and
`Write` of the connection locks it again: every `Append` waits for ever, so that no
record is ever produced (`recorded_iff`). -/
namespace AnarchoRedis.Kafka
open Base Protocol

/-- How a call ends. -/
inductive Outcome (α : Type) where
  /-- It waits for a lock that nothing will release. -/
  | blocked
  | crashed
  | returned (err : Option Err) (state : α)

structure TxnLog where
  /-- The lock of the connection, and where the one who appends stands with it. -/
  mutex : Mutex.State Unit := Mutex.initial Unit
  /-- The writer of the connection, over the buffer. -/
  out : Buffered
  /-- The values of the records produced. -/
  records : List Bytes := []

/-- The buffer is made with 1024 bytes in it. -/
def newTxnLog : TxnLog where
  out := .new ⟨List.replicate 1024 0, []⟩

/-- The next steps of `Append` as far as the lock goes. -/
def TxnLog.go (l : TxnLog) (events : List (Mutex.Event Unit Locks.Op)) : Option TxnLog :=
  (play (Mutex.step Locks.Op.code) (fun _ _ => true) l.mutex events).map fun mutex => {l with mutex := mutex}

/-- `Encode`, by the calls of `Write` that it makes and how it ends when none of them
fails. -/
def encodeTo (out : Buffered) (calls : List Bytes) (fin : Option (Option Err)) : Option (Option Err × Buffered) :=
  match out.deliver calls with
  | (_, some err, out) => some (some err, out)
  | (_, none, out) => fin.map fun err => (err, out)

/-- `Append` of a message that `Encode` sends by these calls. -/
def TxnLog.append (l : TxnLog) (calls : List Bytes) (fin : Option (Option Err)) : Outcome TxnLog :=
  -- The lock is taken by `Append`, and then by `Write`.
  match l.go [.start () .append, .lock (), .lock ()] with
  | none => .blocked
  | some l =>
    match encodeTo l.out calls fin with
    | none => .crashed
    | some (err, out) =>
      match l.go [.act () err.isNone, .unlock (), .unlock ()] with
      | none => .blocked
      | some l =>
        match err with
        | some err => .returned (some err) {l with out := out}
        | none =>
          .returned none {l with
            out := {out with wr := {out.wr with out := []}}
            records := l.records ++ [out.wr.out]}

/-- One `Append` after the other, as long as they return without an error. -/
def TxnLog.appendAll (l : TxnLog) : List (List Bytes × Option (Option Err)) → Outcome TxnLog
  | [] => .returned none l
  | (calls, fin) :: rest =>
    match l.append calls fin with
    | .returned none l => l.appendAll rest
    | other => other

/-- Every `Append` completes, and the records are the messages as `Encode` writes
them. -/
def Recorded (fl : Floats) (ms : List Message) : Prop :=
  ∃ sent l, List.Forall₂ (fun m p => ∃ conn', Sends (encode fl {} m) [] p.1 p.2 conn') ms sent ∧
    newTxnLog.appendAll sent = .returned none l ∧ l.records.map some = ms.map (written fl {})

/-- Nobody gets past the second `Lock`, whoever may hold the lock. -/
theorem TxnLog.go_lock_lock (l : TxnLog) : l.go [.start () .append, .lock (), .lock ()] = none := by
  cases hprog : l.mutex.prog () with
  | ret ok =>
    cases hholder : l.mutex.holder <;>
      simp [TxnLog.go, play, Mutex.step, Mutex.State.go, Locks.Op.code, Locks.append, hprog, hholder]
  | _ => simp [TxnLog.go, play, Mutex.step, hprog]

/-- **`Append` does not return**, whatever the state of the log. -/
theorem TxnLog.append_blocked (l : TxnLog) (calls : List Bytes) (fin : Option (Option Err)) :
    l.append calls fin = .blocked := by
  rw [TxnLog.append, l.go_lock_lock]

/-- **The records are the messages exactly when there are none.** -/
theorem recorded_iff (fl : Floats) (ms : List Message) : Recorded fl ms ↔ ms = [] := by
  constructor
  · rintro ⟨sent, l, hsent, hrun, -⟩
    cases hsent with
    | nil => rfl
    | cons =>
      rw [TxnLog.appendAll, TxnLog.append_blocked] at hrun
      cases hrun
  · rintro rfl
    exact ⟨[], newTxnLog, .nil, rfl, rfl⟩

/-- `PING`. -/
def ping : Message := newOutgoingCommand [ascii "PING"]

theorem written_ping : written noFloats {} ping = some (ascii "*1\r\n$4\r\nPING\r\n") := by
  rw [ping, written_built noFloats {} (built_newOutgoingCommand (by decide) (by decide))]
  rfl

/-- **`PING` is not recorded**, although `Encode` accepts it. -/
theorem not_recorded : ¬ ∀ ms : List Message, (∀ m ∈ ms, (written noFloats {} m).isSome = true) →
    Recorded noFloats ms := by
  intro hall
  obtain ⟨sent, l, hsent, hrun, -⟩ := hall [ping] fun m hm => by
    rw [List.mem_singleton.mp hm, written_ping]
    rfl
  cases hsent with
  | cons =>
    rw [TxnLog.appendAll, TxnLog.append_blocked] at hrun
    cases hrun

end AnarchoRedis.Kafka
