import AnarchoRedis.Base.SortedMap
import AnarchoRedis.Base.BigEndian

/-! The Raft store.

Logs and the values of the stable store lie in one ordered database: a log under
a zero byte and its index, eight bytes with the most significant first; a value
under a one byte and its key. `StoreLogs` and `DeleteRange` manage their
transactions themselves: where one is full they commit it and start again from
where they are.

What the database and the encoder may answer is given beforehand (`Faults`), call
by call; a transaction in which nothing has been written is never too big, and a
commit that fails applies nothing. -/
namespace AnarchoRedis.Raft
open Base Base.ByteOrder

inductive Err where
  | txnTooBig
  | keyNotFound
  | logNotFound
  /-- Any other error of the database or the encoder. -/
  | other (code : Nat)
  deriving DecidableEq

/-! ### Keys -/

def uint64ToBytes (u : UInt64) : Bytes := beBytes 8 u.toNat

/-- Of the first eight bytes; the callers here have as many. -/
def bytesToUint64 (b : Bytes) : UInt64 := UInt64.ofNat (beNat (b.take 8))

def prefixLogs : Bytes := [0]

def prefixConf : Bytes := [1]

def logKey (index : UInt64) : Bytes := prefixLogs ++ uint64ToBytes index

def confKey (key : Bytes) : Bytes := prefixConf ++ key

/-! ### The database -/

abbrev Db := SortedMap Bytes Bytes

inductive Write where
  | set (key value : Bytes)
  | delete (key : Bytes)
  deriving DecidableEq

def Write.apply (db : Db) : Write → Db
  | .set key value => db.insert key value
  | .delete key => db.erase key

/-- What has been written in a transaction, in order. -/
abbrev Txn := List Write

def commit (txn : Txn) (db : Db) : Db := txn.foldl Write.apply db

/-- The errors of the calls to come, by the time of the call. -/
structure Faults where
  encode : Nat → Option Err
  modify : Nat → Option Err
  commit : Nat → Option Err

/-- The error of a `Set` or a `Delete` in a transaction. -/
def Faults.modified (f : Faults) (t : Nat) (txn : Txn) : Option Err :=
  if txn = [] ∧ f.modify t = some .txnTooBig then none else f.modify t

/-- The call at time `n` finds its transaction full, and nothing else fails. -/
def fullAt (n : Nat) : Faults where
  encode _ := none
  modify t := if t = n then some .txnTooBig else none
  commit _ := none

/-- `Update` with one write. -/
def update (f : Faults) (t : Nat) (w : Write) (db : Db) : Option Err × Db :=
  match f.modified t [] with
  | some err => (some err, db)
  | none =>
    match f.commit t with
    | some err => (some err, db)
    | none => (none, commit [w] db)

/-! ### Logs -/

/-- A log entry as the store uses it: its index, and the encoder, which reads back
what it wrote. -/
structure Codec (Log : Type) where
  index : Log → UInt64
  encodeMsgPack : Log → Bytes
  decodeMsgPack : Bytes → Except Err Log
  decode_encode : ∀ log, decodeMsgPack (encodeMsgPack log) = .ok log

section
variable {Log : Type} (c : Codec Log)

/-- The record of a log. -/
def Codec.record (log : Log) : Write := .set (logKey (c.index log)) (c.encodeMsgPack log)

def getLog (index : UInt64) (db : Db) : Except Err Log :=
  match db.get (logKey index) with
  | none => .error .logNotFound
  | some val => c.decodeMsgPack val

def storeLog (f : Faults) (t : Nat) (log : Log) (db : Db) : Option Err × Db :=
  match f.encode t with
  | some err => (some err, db)
  | none => update f t (c.record log) db

/-- The loop of `StoreLogs` over the logs that are left. Where the transaction is
full it is committed, and `StoreLogs` is called with those logs. -/
def storeLoop (f : Faults) (t : Nat) (txn : Txn) (logs : List Log) (db : Db) : Option Err × Db :=
  match logs with
  | [] =>
    match f.commit t with
    | some err => (some err, db)
    | none => (none, commit txn db)
  | log :: rest =>
    match f.encode t with
    | some err => (some err, db)
    | none =>
      match _h : f.modified t txn with
      | some .txnTooBig =>
        match f.commit t with
        | some err => (some err, db)
        | none => storeLoop f (t + 1) [] (log :: rest) (commit txn db)
      | some err => (some err, db)
      | none => storeLoop f (t + 1) (txn ++ [c.record log]) rest db
termination_by (logs.length, txn.length)
decreasing_by
  · refine Prod.Lex.right _ (List.length_pos_of_ne_nil fun hnil => ?_)
    simp only [Faults.modified, hnil, true_and] at _h
    split at _h
    · cases _h
    · contradiction
  · exact Prod.Lex.left _ _ (Nat.lt_succ_self _)

def storeLogs (f : Faults) (t : Nat) (logs : List Log) (db : Db) : Option Err × Db := storeLoop c f t [] logs db

end

/-! ### Deleting a range -/

/-- `KeyCopy` into a buffer: what does not fit is not copied at all. -/
def keyCopy (dst key : Bytes) : Bytes :=
  if key.length ≤ dst.length then key ++ dst.drop key.length else dst

/-- The buffer that the loop of `DeleteRange` works with at a key. -/
def copied (key : Bytes) : Bytes := keyCopy (List.replicate 9 0) key

/-- The index that the loop reads from it. -/
def copiedIndex (key : Bytes) : UInt64 := bytesToUint64 ((copied key).drop 1)

/-- How a walk over the keys ends. -/
inductive Walk where
  | finished (txn : Txn) (t : Nat)
  /-- The transaction was full at this index. -/
  | full (index : UInt64) (txn : Txn) (t : Nat)
  | failed (err : Err)
  deriving DecidableEq

/-- The loop of `DeleteRange` over the keys that are left. -/
def deleteLoop (f : Faults) (max : UInt64) : List Bytes → Txn → Nat → Walk
  | [], txn, t => .finished txn t
  | key :: keys, txn, t =>
    if copiedIndex key > max then .finished txn t
    else
      match f.modified t txn with
      | some .txnTooBig => .full (copiedIndex key) txn t
      | some err => .failed err
      | none => deleteLoop f max keys (txn ++ [.delete (copied key)]) (t + 1)

/-- `DeleteRange`, which may go on for ever: no result when it takes more than `fuel`
transactions. -/
def deleteRange (f : Faults) (max : UInt64) : (fuel : Nat) → (t : Nat) → (min : UInt64) → Db → Option (Option Err × Db)
  | 0, _, _, _ => none
  | fuel + 1, t, min, db =>
    match deleteLoop f max (db.keysFrom (logKey min)) [] t with
    | .failed err => some (some err, db)
    | .finished txn t =>
      match f.commit t with
      | some err => some (some err, db)
      | none => some (none, commit txn db)
    | .full index txn t =>
      match f.commit t with
      | some err => some (some err, db)
      | none => deleteRange f max fuel (t + 1) index (commit txn db)

/-! ### The stable store -/

def set (f : Faults) (t : Nat) (key val : Bytes) (db : Db) : Option Err × Db := update f t (.set (confKey key) val) db

def get (key : Bytes) (db : Db) : Except Err Bytes :=
  match db.get (confKey key) with
  | none => .error .keyNotFound
  | some val => .ok val

def setUint64 (f : Faults) (t : Nat) (key : Bytes) (val : UInt64) (db : Db) : Option Err × Db :=
  set f t key (uint64ToBytes val) db

/-! ### Keys and their order -/

theorem bytesToUint64_uint64ToBytes (u : UInt64) : bytesToUint64 (uint64ToBytes u) = u := by
  have hlen : (uint64ToBytes u).length = 8 := beBytes_length ..
  rw [bytesToUint64, List.take_of_length_le hlen.le, uint64ToBytes, beNat_beBytes]
  have hu : u.toNat % 256 ^ 8 = u.toNat := Nat.mod_eq_of_lt u.toNat_lt
  rw [hu, UInt64.ofNat_toNat]

theorem logKey_injective {i j : UInt64} (h : logKey i = logKey j) : i = j := by
  rw [← bytesToUint64_uint64ToBytes i, ← bytesToUint64_uint64ToBytes j, List.append_cancel_left h]

theorem confKey_injective {k l : Bytes} (h : confKey k = confKey l) : k = l := List.append_cancel_left h

theorem logKey_ne_confKey (i : UInt64) (k : Bytes) : logKey i ≠ confKey k := by
  intro h
  have hhead : (0 : UInt8) = 1 := (List.cons.inj h).1
  exact absurd hhead (by decide)

theorem logKey_lt_iff {i j : UInt64} : logKey i < logKey j ↔ i < j := by
  have hi : i.toNat % 256 ^ 8 = i.toNat := Nat.mod_eq_of_lt i.toNat_lt
  have hj : j.toNat % 256 ^ 8 = j.toNat := Nat.mod_eq_of_lt j.toNat_lt
  rw [lt_iff_beNat_lt (by simp [logKey, uint64ToBytes, prefixLogs]), UInt64.lt_iff_toNat_lt, logKey, logKey, prefixLogs,
    List.singleton_append, List.singleton_append, beNat, beNat, uint64ToBytes, uint64ToBytes, beNat_beBytes,
    beNat_beBytes, hi, hj]
  simp

theorem logKey_lt_confKey (i : UInt64) (k : Bytes) : logKey i < confKey k :=
  List.cons_lt_cons_iff.mpr (.inl (by decide))

theorem confKey_lt_iff {k l : Bytes} : confKey k < confKey l ↔ k < l := by
  rw [confKey, confKey, prefixConf, List.singleton_append, List.singleton_append, List.cons_lt_cons_iff]
  simp

/-! ### What is in the store -/

/-- Every key is one of a log or a stable key. -/
def Formed (db : Db) : Prop :=
  ∀ key, (db.get key).isSome = true → (∃ i, key = logKey i) ∨ ∃ k, key = confKey k

def HasLog (db : Db) (i : UInt64) : Prop := (db.get (logKey i)).isSome = true

def HasConf (db : Db) (k : Bytes) : Prop := (db.get (confKey k)).isSome = true

section
variable {db : Db}

theorem formed_empty : Formed .empty := fun _ h => nomatch h

theorem Formed.insert_log (h : Formed db) (i : UInt64) (val : Bytes) : Formed (db.insert (logKey i) val) := by
  intro key hkey
  rw [SortedMap.get_insert] at hkey
  split at hkey
  · exact .inl ⟨i, by assumption⟩
  · exact h key hkey

theorem Formed.insert_conf (h : Formed db) (k val : Bytes) : Formed (db.insert (confKey k) val) := by
  intro key hkey
  rw [SortedMap.get_insert] at hkey
  split at hkey
  · exact .inr ⟨k, by assumption⟩
  · exact h key hkey

end

/-! ### Copied keys -/

theorem copied_logKey (i : UInt64) : copied (logKey i) = logKey i := by
  have hlen : (logKey i).length = 9 := by simp [logKey, uint64ToBytes, prefixLogs]
  rw [copied, keyCopy, List.length_replicate, hlen, if_pos le_rfl, List.drop_of_length_le (by simp), List.append_nil]

theorem copiedIndex_logKey (i : UInt64) : copiedIndex (logKey i) = i := by
  rw [copiedIndex, copied_logKey]
  exact bytesToUint64_uint64ToBytes i

/-- A stable key of more than eight bytes is copied as the key of log zero. -/
theorem copied_long {k : Bytes} (h : 8 < k.length) : copied (confKey k) = logKey 0 := by
  have hlen : (confKey k).length = k.length + 1 := by simp [confKey, prefixConf]
  rw [copied, keyCopy, List.length_replicate, hlen, if_neg (by omega)]
  decide

/-- A shorter one is filled up with zeros. -/
theorem copied_short {k : Bytes} (h : k.length ≤ 8) :
    copied (confKey k) = confKey (k ++ List.replicate (8 - k.length) 0) := by
  have hlen : (confKey k).length = k.length + 1 := by simp [confKey, prefixConf]
  rw [copied, keyCopy, List.length_replicate, hlen, if_pos (by omega), List.drop_replicate, confKey, confKey,
    List.append_assoc]
  congr 3
  omega

end AnarchoRedis.Raft
