import AnarchoRedis.Base.Mutex

/-! The lock of a connection.

`Read`, `Write` and `Flush` lock the connection, and `RoundTrip` calls them one after
the other. `RawRoundtrip` calls `Read` while it holds the lock, once its bytes are
flushed, and `Append` of the Kafka log calls `Write` while it holds the lock of its
connection. The mutex is not reentrant: they wait for themselves, and everyone else waits
for them (`not_conn_proceeds`). Nothing else has that effect (`conn_proceeds`). -/
namespace AnarchoRedis.Protocol.Locks
open Base Mutex

/-- A single action, and whether it succeeds. -/
def action : Prog := .act (.ret true) (.ret false)

/-- `Decode` under the lock. -/
def read : Prog := action.locked

/-- `Encode` under the lock. -/
def write : Prog := action.locked

def flush : Prog := action.locked

/-- The bytes are written and flushed and the reply is read, all under the lock. -/
def rawRoundtrip : Prog := (Prog.act (.act read (.ret false)) (.ret false)).locked

/-- What is left of `RawRoundtrip` at its flush. -/
def rawFlush : Prog := .act (read.bind fun ok => .unlock (.ret ok)) (.unlock (.ret false))

example : rawRoundtrip = .lock (.act rawFlush (.unlock (.ret false))) := rfl

/-- The error of the flush is dropped. -/
def roundTrip : Prog := write.bind fun ok => if ok then flush.bind fun _ => read else .ret false

/-- `TxnLog.Append` locks the connection itself. -/
def append : Prog := .lock (write.bind fun ok => .unlock (.ret ok))

inductive Op where
  | read
  | write
  | flush
  | rawRoundtrip
  | roundTrip
  | append
  deriving DecidableEq

def Op.code : Op → Prog
  | .read => Locks.read
  | .write => Locks.write
  | .flush => Locks.flush
  | .rawRoundtrip => Locks.rawRoundtrip
  | .roundTrip => Locks.roundTrip
  | .append => Locks.append

/-- Past these a call that locks follows while the lock is held: where `Append` takes the
lock, and where the flush of `RawRoundtrip` succeeds. -/
def nested (p : Prog) (ok : Bool) : Bool := ok && (p == append || p == rawFlush)

/-- The event goes past such a place. -/
def nests {G : Type} (s : State G) : Event G Op → Bool
  | .lock g => nested (s.prog g) true
  | .act g ok => nested (s.prog g) ok
  | _ => false

theorem disciplined_code (op : Op) : op.code.disciplined nested false = true := by
  cases op <;> decide

/-- Where the flush fails `RawRoundtrip` unlocks next: it holds the lock. -/
theorem disciplined_rawFlush (held : Bool) : rawFlush.disciplined nested held = held := by
  cases held <;> decide

theorem nested_eq_true {p : Prog} {ok : Bool} (h : nested p ok = true) :
    ok = true ∧ (p = append ∨ p = rawFlush) := by
  rw [nested, Bool.and_eq_true, Bool.or_eq_true, beq_iff_eq, beq_iff_eq] at h
  exact h

section
variable {G : Type} {s s' : State G} {e : Event G Op}

theorem rule_of_not_nests (h : nests s e = false) : rule Op.code nested s e = true := by
  cases e with
  | start g op => exact disciplined_code op
  | lock g =>
    rw [rule, Bool.not_eq_true']
    exact h
  | unlock g => rfl
  | act g ok =>
    rw [rule, Bool.not_eq_true']
    exact h

variable [DecidableEq G]

/-- Whoever goes past such a place holds the lock, and locks next. -/
theorem waitsForItself_of_nests (h : Disciplined nested s) (hn : nests s e = true)
    (hstep : step Op.code s e = some s') : ∃ g, WaitsForItself s' g := by
  cases e with
  | start g op => cases hn
  | unlock g => cases hn
  | lock g =>
    obtain ⟨-, hp | hp⟩ := nested_eq_true hn
    · simp only [step, hp] at hstep
      split at hstep
      · rename_i p hlock _
        cases hlock
        cases hstep
        exact ⟨g, rfl, _, Function.update_self ..⟩
      · cases hstep
    · simp only [step, hp] at hstep
      cases hstep
  | act g ok =>
    obtain ⟨rfl, hp | hp⟩ := nested_eq_true hn
    · simp only [step, hp] at hstep
      cases hstep
    · have hheld := h g
      rw [hp, disciplined_rawFlush, decide_eq_true_eq] at hheld
      simp only [step, hp] at hstep
      cases hstep
      exact ⟨g, hheld, _, Function.update_self ..⟩

/-- **No one waits for a lock they hold**, and who holds the lock can go on, in every run
in which no `Append` takes the lock and no `RawRoundtrip` gets past its flush; and the
first step that does either is followed by someone who waits for themselves. -/
theorem conn_proceeds (h : Reach (step Op.code) (fun s e => nests s e = false) (initial G) s) :
    Proceeds Op.code s ∧ ∀ e s', step Op.code s e = some s' → (Proceeds Op.code s' ↔ nests s e = false) := by
  have hs : Disciplined nested s := disciplined_reach (fun _ _ => rule_of_not_nests) h
  refine ⟨hs.proceeds, fun e s' hstep => ⟨fun hp => ?_, fun hn => ?_⟩⟩
  · by_contra hn
    obtain ⟨g, hg⟩ := waitsForItself_of_nests hs (Bool.not_eq_false _ ▸ hn) hstep
    exact hp.waits g hg
  · exact (disciplined_step hs (rule_of_not_nests hn) hstep).proceeds

end

/-- One `RoundTrip` waits for the lock to flush while a `RawRoundtrip` is about to. -/
theorem conn_proceeds_beforeFlush : ∃ s : State Bool,
    (s.prog true = rawFlush ∧ ∃ p, s.prog false = .lock p) ∧ Proceeds Op.code s ∧
      ∀ e s', step Op.code s e = some s' → (Proceeds Op.code s' ↔ nests s e = false) := by
  obtain ⟨s, hs, hfound⟩ := exists_reach_of_play (step Op.code) (fun s e => !nests s e)
    (fun _ _ h => by rwa [Bool.not_eq_true'] at h) (initial Bool)
    [.start false .roundTrip, .lock false, .act false true, .unlock false,
      .start true .rawRoundtrip, .lock true, .act true true]
    (fun s => s.prog true == rawFlush && s.prog false == flush.bind fun _ => read) (by decide)
  rw [Bool.and_eq_true, beq_iff_eq, beq_iff_eq] at hfound
  exact ⟨s, ⟨hfound.1, _, hfound.2⟩, conn_proceeds hs⟩

/-- **A `RawRoundtrip` that is the only call there is**: its flush succeeds, and it waits
for the lock it holds. -/
theorem not_conn_proceeds :
    ¬∀ s : State Unit, Reach (step Op.code) Free (initial Unit) s → Proceeds Op.code s := by
  intro h
  obtain ⟨s, hs, hfound⟩ := exists_reach_of_play (step Op.code) (fun _ _ => true) (fun _ _ _ => trivial)
    (initial Unit) [.start () .rawRoundtrip, .lock (), .act () true, .act () true]
    (fun s => s.holder == some () && s.prog () == read.bind fun ok => .unlock (.ret ok)) (by decide)
  rw [Bool.and_eq_true, beq_iff_eq, beq_iff_eq] at hfound
  exact (h s hs).waits () ⟨hfound.1, _, hfound.2⟩

/-- So does an `Append`, as soon as it has the lock. -/
example : ∃ s : State Unit, Reach (step Op.code) Free (initial Unit) s ∧ WaitsForItself s () := by
  obtain ⟨s, hs, hfound⟩ := exists_reach_of_play (step Op.code) (fun _ _ => true) (fun _ _ _ => trivial)
    (initial Unit) [.start () .append, .lock ()]
    (fun s => s.holder == some () && s.prog () == write.bind fun ok => .unlock (.ret ok)) (by decide)
  rw [Bool.and_eq_true, beq_iff_eq, beq_iff_eq] at hfound
  exact ⟨s, hs, hfound.1, _, hfound.2⟩

end AnarchoRedis.Protocol.Locks
