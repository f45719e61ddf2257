import AnarchoRedis.Raft.Store

/-! `StoreLogs` writes a prefix of its logs.

Whatever the splits and failures, the store afterwards is the store before
overwritten by the logs of a prefix of the list (`storeLoop_overwrites`): a full
transaction holds the logs since the last commit, and the call that follows goes on
with the log that did not fit. Only a call that got to the end answers without an
error. -/
namespace AnarchoRedis.Raft
open Base Base.ByteOrder

section
variable {Log : Type} (c : Codec Log)

/-- The store overwritten by logs, in their order. -/
def overwrite (db : Db) (logs : List Log) : Db :=
  logs.foldl (fun db log => db.insert (logKey (c.index log)) (c.encodeMsgPack log)) db

theorem commit_records (logs : List Log) (db : Db) : commit (logs.map c.record) db = overwrite c db logs := by
  rw [commit, List.foldl_map]
  rfl

theorem overwrite_append (db : Db) (front back : List Log) :
    overwrite c db (front ++ back) = overwrite c (overwrite c db front) back := List.foldl_append ..

theorem Formed.overwrite {db : Db} (h : Formed db) (logs : List Log) : Formed (overwrite c db logs) := by
  induction logs generalizing db with
  | nil => exact h
  | cons log logs ih => exact ih (h.insert_log _ _)

/-- A key that no log has keeps its value. -/
theorem get_overwrite_of_ne {key : Bytes} {logs : List Log} (h : ∀ log ∈ logs, logKey (c.index log) ≠ key) (db : Db) :
    (overwrite c db logs).get key = db.get key := by
  induction logs generalizing db with
  | nil => rfl
  | cons log logs ih =>
    have hne : key ≠ logKey (c.index log) := (h log List.mem_cons_self).symm
    calc (overwrite c (db.insert (logKey (c.index log)) (c.encodeMsgPack log)) logs).get key
      _ = (db.insert (logKey (c.index log)) (c.encodeMsgPack log)).get key :=
        ih (fun l hl => h l (List.mem_cons_of_mem _ hl)) _
      _ = db.get key := by rw [SortedMap.get_insert, if_neg hne]

theorem get_overwrite_log {index : UInt64} {logs : List Log} (h : ∀ log ∈ logs, c.index log ≠ index) (db : Db) :
    (overwrite c db logs).get (logKey index) = db.get (logKey index) :=
  get_overwrite_of_ne c (fun log hlog heq => h log hlog (logKey_injective heq)) db

theorem get_overwrite_conf (logs : List Log) (key : Bytes) (db : Db) :
    (overwrite c db logs).get (confKey key) = db.get (confKey key) :=
  get_overwrite_of_ne c (fun log _ => logKey_ne_confKey (c.index log) key) db

/-- `GetLog` finds the last log of its index. -/
theorem getLog_overwrite {front back : List Log} {log : Log} (hlast : ∀ l ∈ back, c.index l ≠ c.index log) (db : Db) :
    getLog c (c.index log) (overwrite c db (front ++ log :: back)) = .ok log := by
  have hget : (overwrite c db (front ++ log :: back)).get (logKey (c.index log)) = some (c.encodeMsgPack log) :=
    calc (overwrite c db (front ++ log :: back)).get (logKey (c.index log))
      _ = (overwrite c (overwrite c db front) (log :: back)).get (logKey (c.index log)) := by rw [overwrite_append]
      _ = ((overwrite c db front).insert (logKey (c.index log)) (c.encodeMsgPack log)).get (logKey (c.index log)) :=
        get_overwrite_log c hlast _
      _ = some (c.encodeMsgPack log) := by rw [SortedMap.get_insert, if_pos rfl]
  rw [getLog, hget]
  exact c.decode_encode log

/-- The loop with a batch of logs in its transaction writes a prefix of the batch and
the logs that are left. -/
theorem storeLoop_overwrites (f : Faults) (t : Nat) (batch logs : List Log) (db : Db) :
    ∃ j ≤ (batch ++ logs).length,
      (storeLoop c f t (batch.map c.record) logs db).2 = overwrite c db ((batch ++ logs).take j) ∧
      ((storeLoop c f t (batch.map c.record) logs db).1 = none → j = (batch ++ logs).length) := by
  generalize htxn : batch.map c.record = txn
  fun_induction storeLoop c f t txn logs db generalizing batch with
  | case1 t txn db err herr => exact ⟨0, Nat.zero_le _, rfl, nofun⟩
  | case2 t txn db hok =>
    refine ⟨(batch ++ []).length, le_rfl, ?_, fun _ => rfl⟩
    rw [← htxn, commit_records, List.take_length, List.append_nil]
  | case3 t txn db log rest err herr => exact ⟨0, Nat.zero_le _, rfl, nofun⟩
  | case4 t txn db log rest _ _ err herr => exact ⟨0, Nat.zero_le _, rfl, nofun⟩
  | case5 t txn db log rest _ _ _ ih =>
    -- The batch is in the store; what is written of the rest comes after it.
    obtain ⟨j, hj, hdb, hnil⟩ := ih [] rfl
    refine ⟨batch.length + j, ?_, ?_, fun h => ?_⟩
    · rw [List.length_append]
      exact Nat.add_le_add_left hj _
    · rw [hdb, ← htxn, commit_records, List.take_length_add_append, overwrite_append, List.nil_append]
    · rw [hnil h, List.nil_append, List.length_append]
  | case6 t txn db log rest _ err _ _ => exact ⟨0, Nat.zero_le _, rfl, nofun⟩
  | case7 t txn db log rest _ _ ih =>
    have hbatch : (batch ++ [log]).map c.record = txn ++ [c.record log] := by
      rw [List.map_append, htxn, List.map_singleton]
    have happend : batch ++ [log] ++ rest = batch ++ log :: rest := by rw [List.append_assoc, List.singleton_append]
    simpa only [happend] using ih (batch ++ [log]) hbatch

/-- **`StoreLogs` is a prefix-atomic batch write.** It ends, and the store is the one
before overwritten by the first `j` logs, in order, with every stable key and every
log of another index as it was. Without an error all logs are written, and `GetLog`
finds for each index the last of them. -/
theorem storeLogs_writes_front (f : Faults) (t : Nat) (logs : List Log) (db : Db) :
    ∃ j ≤ logs.length,
      (storeLogs c f t logs db).2 = overwrite c db (logs.take j) ∧
      (∀ key, (storeLogs c f t logs db).2.get (confKey key) = db.get (confKey key)) ∧
      (∀ index, (∀ log ∈ logs.take j, c.index log ≠ index) →
        (storeLogs c f t logs db).2.get (logKey index) = db.get (logKey index)) ∧
      ((storeLogs c f t logs db).1 = none →
        j = logs.length ∧
        ∀ front log back, logs = front ++ log :: back → (∀ l ∈ back, c.index l ≠ c.index log) →
          getLog c (c.index log) (storeLogs c f t logs db).2 = .ok log) := by
  obtain ⟨j, hj, hdb, hnil⟩ := storeLoop_overwrites c f t [] logs db
  rw [List.nil_append] at hj hdb hnil
  change (storeLogs c f t logs db).2 = _ at hdb
  refine ⟨j, hj, hdb, fun key => ?_, fun index h => ?_, fun h => ⟨hnil h, fun front log back hlogs hlast => ?_⟩⟩
  · rw [hdb, get_overwrite_conf]
  · rw [hdb, get_overwrite_log c h]
  · rw [hdb, hnil h, List.take_length, hlogs, getLog_overwrite c hlast]

end

/-- Logs that are their index only. -/
def indexCodec : Codec UInt64 where
  index := id
  encodeMsgPack := uint64ToBytes
  decodeMsgPack b := .ok (bytesToUint64 b)
  decode_encode u := congrArg Except.ok (bytesToUint64_uint64ToBytes u)

/-- Three logs in two transactions, the first log written again in the second. -/
theorem storeLogs_split :
    (storeLogs indexCodec (fullAt 1) 0 [1, 2, 1] .empty).1 = none ∧
    getLog indexCodec 1 (storeLogs indexCodec (fullAt 1) 0 [1, 2, 1] .empty).2 = .ok 1 := by
  have hnone : (storeLogs indexCodec (fullAt 1) 0 [1, 2, 1] .empty).1 = none := by
    simp [storeLogs, storeLoop, Faults.modified, fullAt]
  obtain ⟨_, _, _, _, _, hnil⟩ := storeLogs_writes_front indexCodec (fullAt 1) 0 [1, 2, 1] .empty
  exact ⟨hnone, (hnil hnone).2 [1, 2] 1 [] rfl (by simp)⟩

end AnarchoRedis.Raft
