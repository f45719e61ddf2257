import Mathlib.Data.List.Forall2
import Mathlib.Logic.Function.Basic
import AnarchoRedis.Raft.Exact
import AnarchoRedis.Raft.Stable

/-! The Raft store as logs and values.

What the store is for is logs by their index and values by their key (`Contents`),
on which a call has its plain effect (`Contents.perform`). A call that fails has been
carried out in part (`Op.Part`): `StoreLogs` on the first of its logs, `DeleteRange` on
the lower end of its range, any other call not at all. One that does not fail has been
carried out whole (`Carried`).

In every run the database holds what the calls, carried out so, make of empty contents,
and every read answers from that (`store_refines`). What is asked of the run is that
each `DeleteRange` does no harm with the stable keys it overruns: none of them is of
eight bytes, and either they are harmless to the logs wherever its transactions are
full, or none is full and log zero is not among the logs. -/
namespace AnarchoRedis.Raft
open Base Base.ByteOrder

/-! ### Logs and values -/

/-- Logs by index and values by key. -/
structure Contents {Log : Type} (c : Codec Log) where
  logs : UInt64 → Option Log
  values : Bytes → Option Bytes
  indexed : ∀ i log, logs i = some log → c.index log = i

section
variable {Log : Type} {c : Codec Log}

def Contents.empty : Contents c where
  logs _ := none
  values _ := none
  indexed _ _ h := by cases h

def Contents.write (s : Contents c) (log : Log) : Contents c where
  logs := Function.update s.logs (c.index log) (some log)
  values := s.values
  indexed i l h := by
    by_cases hi : i = c.index log
    · subst hi
      rw [Function.update_self] at h
      rw [← Option.some.inj h]
    · rw [Function.update_of_ne hi] at h
      exact s.indexed i l h

def Contents.delete (s : Contents c) (min max : UInt64) : Contents c where
  logs i := if min ≤ i ∧ i ≤ max then none else s.logs i
  values := s.values
  indexed i l h := by
    split at h
    · cases h
    · exact s.indexed i l h

def Contents.give (s : Contents c) (key val : Bytes) : Contents c where
  logs := s.logs
  values := Function.update s.values key (some val)
  indexed := s.indexed

theorem Contents.write_logs (s : Contents c) (log : Log) :
    (s.write log).logs = Function.update s.logs (c.index log) (some log) := rfl

theorem Contents.delete_logs (s : Contents c) (min max i : UInt64) :
    (s.delete min max).logs i = if min ≤ i ∧ i ≤ max then none else s.logs i := rfl

theorem Contents.give_values (s : Contents c) (key val : Bytes) :
    (s.give key val).values = Function.update s.values key (some val) := rfl

/-- What a call is for. -/
def Contents.perform (s : Contents c) : Op Log → Contents c
  | .storeLog log => s.write log
  | .storeLogs logs => logs.foldl Contents.write s
  | .deleteRange min max => s.delete min max
  | .set key val => s.give key val
  | .setUint64 key val => s.give key (uint64ToBytes val)

/-- What may have been carried out of a call that failed, as a call of its own. -/
inductive Op.Part : Op Log → Op Log → Prop
  | nothing (op : Op Log) : Part op (.storeLogs [])
  | front (logs : List Log) (n : Nat) : Part (.storeLogs logs) (.storeLogs (logs.take n))
  | lower (min : UInt64) {max m : UInt64} : m ≤ max → Part (.deleteRange min max) (.deleteRange min m)

/-- A call and its error, and what was carried out of it: all of it if there was no error,
and else a part. -/
def Carried (call : Op Log × Option Err) (op : Op Log) : Prop :=
  call.2 = none ∧ op = call.1 ∨ call.2 ≠ none ∧ call.1.Part op

/-- The contents that calls make. -/
def performed (c : Codec Log) (ops : List (Op Log)) : Contents c := ops.foldl Contents.perform .empty

theorem performed_concat (ops : List (Op Log)) (op : Op Log) :
    performed c (ops ++ [op]) = (performed c ops).perform op := by
  rw [performed, List.foldl_append]
  rfl

/-! ### Contents in a database -/

/-- The database holds the contents. -/
structure Holds (db : Db) (s : Contents c) : Prop where
  formed : Formed db
  log : ∀ i, db.get (logKey i) = (s.logs i).map c.encodeMsgPack
  value : ∀ key, db.get (confKey key) = s.values key

variable {db r : Db} {s : Contents c}

theorem holds_empty : Holds .empty (Contents.empty : Contents c) := ⟨formed_empty, fun _ => rfl, fun _ => rfl⟩

theorem Holds.write (h : Holds db s) (log : Log) :
    Holds (db.insert (logKey (c.index log)) (c.encodeMsgPack log)) (s.write log) where
  formed := h.formed.insert_log _ _
  log i := by
    rw [SortedMap.get_insert, Contents.write_logs]
    by_cases hi : i = c.index log
    · rw [if_pos (congrArg logKey hi), hi, Function.update_self]
      rfl
    · rw [if_neg fun heq => hi (logKey_injective heq), Function.update_of_ne hi]
      exact h.log i
  value key := by
    rw [SortedMap.get_insert, if_neg (logKey_ne_confKey _ key).symm]
    exact h.value key

theorem Holds.overwrite (h : Holds db s) (logs : List Log) : Holds (overwrite c db logs) (s.perform (.storeLogs logs)) := by
  induction logs generalizing db s with
  | nil => exact h
  | cons log logs ih => exact ih (h.write log)

theorem Holds.give (h : Holds db s) (key val : Bytes) : Holds (db.insert (confKey key) val) (s.give key val) where
  formed := h.formed.insert_conf _ _
  log i := by
    rw [SortedMap.get_insert, if_neg (logKey_ne_confKey i key)]
    exact h.log i
  value k := by
    rw [get_conf_insert, Contents.give_values, Function.update_apply]
    exact if_congr Iff.rfl rfl (h.value k)

theorem Holds.delete {min max : UInt64} (h : Holds db s) (hform : Formed r) (hlogs : RangeDeleted min max db r)
    (hconf : ConfKept db r) : Holds r (s.delete min max) where
  formed := hform
  log i := by
    rw [hlogs i, h.log i]
    rw [Contents.delete_logs]
    split
    · rfl
    · rfl
  value key := (hconf key).trans (h.value key)

theorem Holds.same (h : Holds db s) (hform : Formed r) (hlogs : ∀ i, r.get (logKey i) = db.get (logKey i))
    (hconf : ConfKept db r) : Holds r s :=
  ⟨hform, fun i => (hlogs i).trans (h.log i), fun key => (hconf key).trans (h.value key)⟩

end

/-! ### `DeleteRange`, whether it fails or not -/

/-- A `DeleteRange` of this range, on this database and with these faults, does no harm
with the stable keys it overruns. -/
structure Spared (f : Faults) (db : Db) (min max : UInt64) : Prop where
  values : ∀ key, Overruns db min max key → key.length ≠ 8
  logs : HarmlessUnder f db min max

/-- A log beyond the range keeps the walk from all stable keys. -/
theorem spared_of_beyond {f : Faults} {db : Db} {min max i : UInt64} (hlog : HasLog db i) (hmin : min ≤ i)
    (hmax : max < i) : Spared f db min max := by
  have hno (k : Bytes) : ¬Overruns db min max k := fun hk => UInt64.not_le.mpr hmax (hk.noLog i hlog hmin)
  exact ⟨fun k hk => absurd hk (hno k), .inl ⟨fun k hk => absurd hk (hno k), fun k hk => absurd hk (hno k)⟩⟩

/-- Nothing of the range has been deleted, or its lower end. -/
def Begun (min max : UInt64) (db₀ db : Db) : Prop :=
  (∀ i, db.get (logKey i) = db₀.get (logKey i)) ∨ ∃ m ≤ max, RangeDeleted min m db₀ db

section
variable {f : Faults} {db₀ db r : Db} {min max start : UInt64} {front back : List Bytes} {key : Bytes}

theorem le_pred_iff {i j : UInt64} (hpos : 0 < j) : i ≤ j - 1 ↔ i < j := by
  have hj : 0 < j.toNat := UInt64.lt_iff_toNat_lt.mp hpos
  have hone : (1 : UInt64).toNat = 1 := rfl
  rw [UInt64.le_iff_toNat_le, UInt64.lt_iff_toNat_lt, UInt64.toNat_sub_of_le _ _ hj]
  omega

/-- From a log of the range that is still there, nothing has been deleted. -/
theorem Begun.ahead {i j : UInt64} (hb : Begun min max db₀ db) (hj : HasLog db j) (hmin : min ≤ j) (hi : j ≤ i) :
    db.get (logKey i) = db₀.get (logKey i) := by
  rcases hb with hsame | ⟨m, -, hm⟩
  · exact hsame i
  · rw [hm i, if_neg]
    intro hin
    rw [HasLog, hm j, if_pos ⟨hmin, UInt64.le_trans hi hin.2⟩] at hj
    cases hj

/-- A walk that is full at a log has deleted nothing from that log on. -/
theorem kept_of_full {i j : UInt64} (hform : Formed db) (hup : visited max start db = front ++ logKey j :: back)
    (hi : j ≤ i) : logKey i ∉ front.map copied := by
  intro hmem
  rcases logKey_copied hform (front_subset hup) hmem with hin | ⟨-, k, hk, -⟩
  · exact UInt64.not_lt.mpr hi (logKey_lt_iff.mp (lt_of_mem_front hup hin))
  · exact (logKey_lt_confKey j k).asymm (lt_of_mem_front hup hk)

theorem pos_of_full {j : UInt64} (hform : Formed db) (hup : visited max start db = front ++ logKey j :: back)
    (hne : front ≠ []) : 0 < j := by
  obtain ⟨x, hx⟩ := List.exists_mem_of_ne_nil front hne
  have hlt : x < logKey j := lt_of_mem_front hup hx
  rcases formed_of_mem_visited hform (front_subset hup hx) with ⟨i, rfl⟩ | ⟨k, rfl⟩
  · exact UInt64.lt_of_le_of_lt UInt64.zero_le (logKey_lt_iff.mp hlt)
  · exact absurd hlt (logKey_lt_confKey j k).asymm

/-- A full walk leaves the upper end of the range as it was. -/
theorem Begun.full (hb : Begun min max db₀ db) (hh : Harmless db₀ min max) (h : Trimmed db₀ min max start db)
    (hup : visited max start db = front ++ key :: back) (hne : front ≠ []) : Begun min max db₀ (remove front db) := by
  have hnext := h.full hh hup hne
  rcases formed_of_mem_visited h.formed (key_mem hup) with ⟨j, rfl⟩ | ⟨k, rfl⟩
  · -- The walk is full at log `j`, which is still there: the deleted end stops before it.
    rw [copiedIndex_logKey] at hnext
    obtain ⟨hj, hstart, hmax⟩ := (mem_visited_log h.formed).mp (key_mem hup)
    have hmin : min ≤ j := h.ahead j (h.subset _ hj) hstart hmax
    have hpos : 0 < j := pos_of_full h.formed hup hne
    have hbelow : j - 1 < j := (le_pred_iff hpos).mp (UInt64.le_refl _)
    refine .inr ⟨j - 1, UInt64.le_trans (UInt64.le_of_lt hbelow) hmax, fun i => ?_⟩
    split
    · rename_i hi
      have hlt : i < j := (le_pred_iff hpos).mp hi.2
      exact Option.not_isSome_iff_eq_none.mp
        (hnext.done i hi.1 (UInt64.le_trans (UInt64.le_of_lt hlt) hmax) hlt)
    · rename_i hi
      by_cases hij : j ≤ i
      · rw [get_remove_of_notMem (kept_of_full h.formed hup hij), hb.ahead hj hmin hij]
      · refine hnext.outside i fun hin => hi ⟨hin.1, (le_pred_iff hpos).mpr (UInt64.not_le.mp hij)⟩
  · -- All logs come before a stable key.
    refine .inr ⟨max, UInt64.le_refl max, fun i => ?_⟩
    split
    · rename_i hi
      exact Option.not_isSome_iff_eq_none.mp
        (h.not_hasLog_remove hi.1 hi.2 fun hin => mem_front hup hin (logKey_lt_confKey i k))
    · rename_i hi
      exact hnext.outside i hi

/-- What a `DeleteRange` has done when it returns. When it fails and none of its
transactions was full it has done nothing. -/
theorem deleteRange_part {fuel t : Nat} {err : Option Err} (hform : Formed db) (hspare : Spared f db min max)
    (h : deleteRange f max fuel t min db = some (err, r)) :
    Formed r ∧ ConfKept db r ∧ (err = none ∧ RangeDeleted min max db r ∨ err ≠ none ∧ Begun min max db r ∧
      (Unsplit f → r = db)) := by
  rcases hspare.logs with hh | ⟨hnever, hzero⟩
  · have hreturned := deleteRange_returns
      (fun start db' => Trimmed db min max start db' ∧ ConfKept db db' ∧ Begun min max db db' ∧
        (Unsplit f → db' = db))
      (fun r => Formed r ∧ ConfKept db r ∧ RangeDeleted min max db r) ?_ ?_
      ⟨trimmed_refl hform, fun _ => rfl, .inl fun _ => rfl, fun _ => rfl⟩ h
    · rcases hreturned with ⟨hnone, hform', hkept, hdeleted⟩ | ⟨herr, start, htrim, hkept, hbegun, hsame⟩
      · exact ⟨hform', hkept, .inl ⟨hnone, hdeleted⟩⟩
      · exact ⟨htrim.formed, hkept, .inr ⟨herr, hbegun, hsame⟩⟩
    · intro start db' front key back t hfault hup hne ⟨htrim, hkept, hbegun, _⟩
      refine ⟨htrim.full hh hup hne, fun k => ?_, hbegun.full hh htrim hup hne, fun hnever => absurd hfault (hnever t)⟩
      exact (get_conf_remove htrim.toThinned hspare.values (front_subset hup) k).trans (hkept k)
    · intro start db' ⟨htrim, hkept, _⟩
      refine ⟨htrim.formed.remove _, fun k => ?_, htrim.finish hh⟩
      exact (get_conf_remove htrim.toThinned hspare.values (List.Subset.refl _) k).trans (hkept k)
  · have hreturned := deleteRange_returns (fun start db' => start = min ∧ db' = db)
      (fun r => Formed r ∧ ConfKept db r ∧ RangeDeleted min max db r) ?_ ?_ ⟨rfl, rfl⟩ h
    · rcases hreturned with ⟨hnone, hform', hkept, hdeleted⟩ | ⟨herr, _, -, hsame⟩
      · exact ⟨hform', hkept, .inl ⟨hnone, hdeleted⟩⟩
      · subst hsame
        exact ⟨hform, fun _ => rfl, .inr ⟨herr, .inl fun _ => rfl, fun _ => rfl⟩⟩
    · intro _ _ _ _ _ t hfault
      exact absurd hfault (hnever t)
    · intro start db' ⟨hstart, hdb⟩
      subst hstart hdb
      exact ⟨hform.remove _, get_conf_remove (thinned_refl hform) hspare.values (List.Subset.refl _),
        rangeDeleted_oneWalk hform hzero⟩

end

/-! ### Runs -/

/-- A run of calls, with the error of each. -/
structure Session (Log : Type) where
  db : Db
  calls : List (Op Log × Option Err)

section
variable {Log : Type} (c : Codec Log)

/-- A call that returns, with an error or without. -/
def attempt (s : Session Log) (e : Event Log) : Option (Session Log) :=
  (e.op.run c e.faults e.fuel s.db).map fun r => ⟨r.2, s.calls ++ [(e.op, r.1)]⟩

/-- A `DeleteRange` does no harm. -/
def sparedRule (s : Session Log) (e : Event Log) : Prop :=
  ∀ min max, e.op = .deleteRange min max → Spared e.faults s.db min max

/-- `GetUint64`, which panics (none) on a value of fewer than eight bytes. -/
def getUint64 (key : Bytes) (db : Db) : Option (Except Err UInt64) :=
  match get key db with
  | .error err => some (.error err)
  | .ok val => if val.length < 8 then none else some (.ok (bytesToUint64 val))

variable {c} {db r : Db} {s : Contents c}

theorem update_cases (f : Faults) (t : Nat) (w : Write) (db : Db) :
    update f t w db = (none, w.apply db) ∨ ∃ err, update f t w db = (some err, db) := by
  rw [update]
  split
  · exact .inr ⟨_, rfl⟩
  · split
    · exact .inr ⟨_, rfl⟩
    · exact .inl rfl

theorem storeLog_cases (f : Faults) (t : Nat) (log : Log) (db : Db) :
    storeLog c f t log db = (none, overwrite c db [log]) ∨ ∃ err, storeLog c f t log db = (some err, db) := by
  rw [storeLog]
  split
  · exact .inr ⟨_, rfl⟩
  · exact update_cases f t _ db

theorem carried_nothing (op : Op Log) (err : Err) : Carried (op, some err) (.storeLogs []) :=
  .inr ⟨Option.some_ne_none err, .nothing op⟩

/-- **One call**: the database holds the contents with what was carried out of it. -/
theorem Holds.run (h : Holds db s) {op : Op Log} {f : Faults} {fuel : Nat} {err : Option Err}
    (hspare : ∀ min max, op = .deleteRange min max → Spared f db min max) (hrun : op.run c f fuel db = some (err, r)) :
    ∃ part, Carried (op, err) part ∧ Holds r (s.perform part) := by
  cases op with
  | storeLog log =>
    have hstore := Option.some.inj hrun
    rcases storeLog_cases (c := c) f 0 log db with heq | ⟨e, heq⟩
    · cases heq.symm.trans hstore
      exact ⟨_, .inl ⟨rfl, rfl⟩, h.overwrite [log]⟩
    · cases heq.symm.trans hstore
      exact ⟨_, carried_nothing _ e, h⟩
  | storeLogs logs =>
    have hstore := Option.some.inj hrun
    obtain ⟨n, -, hdb, hall⟩ := storeLoop_overwrites c f 0 [] logs db
    change (storeLogs c f 0 logs db).2 = Raft.overwrite c db (logs.take n) at hdb
    change (storeLogs c f 0 logs db).1 = none → n = logs.length at hall
    rw [hstore] at hdb hall
    have hpart : Holds r (s.perform (.storeLogs (logs.take n))) := by
      rw [show r = Raft.overwrite c db (logs.take n) from hdb]
      exact h.overwrite _
    cases err with
    | none =>
      rw [hall rfl, List.take_length] at hpart
      exact ⟨_, .inl ⟨rfl, rfl⟩, hpart⟩
    | some e => exact ⟨_, .inr ⟨Option.some_ne_none e, .front logs n⟩, hpart⟩
  | deleteRange min max =>
    obtain ⟨hform, hkept, ⟨hnone, hdeleted⟩ | ⟨herr, hsame | ⟨m, hm, hdeleted⟩, -⟩⟩ :=
      deleteRange_part h.formed (hspare min max rfl) hrun
    · exact ⟨_, .inl ⟨hnone, rfl⟩, h.delete hform hdeleted hkept⟩
    · exact ⟨_, .inr ⟨herr, .nothing _⟩, h.same hform hsame hkept⟩
    · exact ⟨_, .inr ⟨herr, .lower min hm⟩, h.delete hform hdeleted hkept⟩
  | set key val | setUint64 key val =>
    have hset := Option.some.inj hrun
    rcases update_cases f 0 (.set (confKey key) _) db with heq | ⟨e, heq⟩
    · cases heq.symm.trans hset
      exact ⟨_, .inl ⟨rfl, rfl⟩, h.give key _⟩
    · cases heq.symm.trans hset
      exact ⟨_, carried_nothing _ e, h⟩

/-- The database holds what was carried out of the calls. -/
def Refines (c : Codec Log) (s : Session Log) : Prop :=
  ∃ parts, List.Forall₂ Carried s.calls parts ∧ Holds s.db (performed c parts)

theorem refines_step {s s' : Session Log} {e : Event Log} (hs : Refines c s) (hspare : sparedRule s e)
    (h : attempt c s e = some s') : Refines c s' := by
  obtain ⟨⟨err, r⟩, hrun, rfl⟩ := Option.map_eq_some_iff.mp h
  obtain ⟨parts, hparts, hholds⟩ := hs
  obtain ⟨part, hpart, hnext⟩ := hholds.run hspare hrun
  refine ⟨parts ++ [part], List.rel_append hparts (.cons hpart .nil), ?_⟩
  rw [performed_concat]
  exact hnext

/-! ### What is read -/

theorem Holds.getLog (h : Holds db s) (i : UInt64) :
    Raft.getLog c i db = (s.logs i).elim (.error .logNotFound) .ok := by
  rw [Raft.getLog, h.log i]
  cases s.logs i with
  | none => rfl
  | some log => exact c.decode_encode log

theorem Holds.get (h : Holds db s) (key : Bytes) : Raft.get key db = (s.values key).elim (.error .keyNotFound) .ok := by
  rw [Raft.get, h.value key]
  cases s.values key with
  | none => rfl
  | some val => rfl

theorem Holds.getUint64 (h : Holds db s) (key : Bytes) :
    Raft.getUint64 key db = (s.values key).elim (some (.error .keyNotFound)) fun val =>
      if val.length < 8 then none else some (.ok (bytesToUint64 val)) := by
  rw [Raft.getUint64, h.get]
  cases s.values key with
  | none => rfl
  | some val => rfl

/-- **The store is its logs and values.** In every run, whatever fails and wherever
transactions are full, each call has been carried out, or in part if it failed, and
`GetLog`, `Get` and `GetUint64` answer as that leaves them: `GetUint64` with the first
eight bytes of a value, and on a shorter one it panics. -/
theorem store_refines {s : Session Log} (h : Reach (attempt c) sparedRule ⟨.empty, []⟩ s) :
    ∃ parts, List.Forall₂ Carried s.calls parts ∧
      (∀ i, Raft.getLog c i s.db = ((performed c parts).logs i).elim (.error .logNotFound) .ok) ∧
      (∀ key, Raft.get key s.db = ((performed c parts).values key).elim (.error .keyNotFound) .ok) ∧
      ∀ key, Raft.getUint64 key s.db = ((performed c parts).values key).elim (some (.error .keyNotFound)) fun val =>
        if val.length < 8 then none else some (.ok (bytesToUint64 val)) := by
  obtain ⟨parts, hparts, hholds⟩ : Refines c s :=
    h.invariant (Refines c) ⟨[], .nil, holds_empty⟩ fun _ _ _ hs hr => refines_step hs hr
  exact ⟨parts, hparts, hholds.getLog, hholds.get, hholds.getUint64⟩

end

/-! ### A range that is deleted in part -/

/-- The second write finds its transaction full, and the commit after two more fails. -/
def failsLate : Faults where
  encode _ := none
  modify t := if t = 1 then some .txnTooBig else none
  commit t := if t = 4 then some (.other 7) else none

/-- The log `i` lies beyond every range that is deleted. -/
def keepsBeyond (i : UInt64) (s : Session UInt64) (e : Event UInt64) : Bool :=
  match e.op with
  | .deleteRange min max => (s.db.get (logKey i)).isSome && decide (min ≤ i) && decide (max < i)
  | _ => true

theorem sparedRule_of_keepsBeyond {i : UInt64} (s : Session UInt64) (e : Event UInt64) (h : keepsBeyond i s e = true) :
    sparedRule s e := by
  intro min max hop
  rw [keepsBeyond, hop, Bool.and_eq_true, Bool.and_eq_true] at h
  obtain ⟨⟨hlog, hmin⟩, hmax⟩ := h
  exact spared_of_beyond hlog (of_decide_eq_true hmin) (of_decide_eq_true hmax)

/-- A `DeleteRange` from one to three fails when log one is gone. -/
theorem store_refines_failing : ∃ s : Session UInt64, s.calls.map Prod.snd = [none, none, none, none, some (.other 7)] ∧
    s.db.get (logKey 1) = none ∧ HasLog s.db 2 ∧
    ∃ parts, List.Forall₂ Carried s.calls parts ∧
      ∀ i, getLog indexCodec i s.db = ((performed indexCodec parts).logs i).elim (.error .logNotFound) .ok := by
  obtain ⟨s, hs, hf⟩ := exists_reach_of_play (attempt indexCodec) (keepsBeyond 4) sparedRule_of_keepsBeyond ⟨.empty, []⟩
    (calls [.storeLog 1, .storeLog 2, .storeLog 3, .storeLog 4] ++ [⟨.deleteRange 1 3, failsLate, 2⟩])
    (fun s => decide (s.calls.map Prod.snd = [none, none, none, none, some (.other 7)] ∧
      s.db.get (logKey 1) = none ∧ (s.db.get (logKey 2)).isSome = true)) (by decide)
  obtain ⟨hcalls, hgone, hkept⟩ := of_decide_eq_true hf
  obtain ⟨parts, hparts, hlogs, -⟩ := store_refines hs
  exact ⟨s, hcalls, hgone, hkept, parts, hparts, hlogs⟩

end AnarchoRedis.Raft
