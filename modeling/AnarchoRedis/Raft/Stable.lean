import AnarchoRedis.Base.Runs
import AnarchoRedis.Raft.StoreLogs
import AnarchoRedis.Raft.DeleteRange

/-! The stable store beside the log.

A run is a list of successful calls on an empty store. What `Get` finds is what was
last `Set`, as long as no `DeleteRange` overruns a stable key of eight bytes
(`stable_isolated`): such a key is copied as it is and deleted, while longer keys do
not fit the buffer and shorter ones are filled up with zeros, which makes another
key, of eight bytes, that is then overrun as well. -/
namespace AnarchoRedis.Raft
open Base Base.ByteOrder

/-! ### Calls -/

inductive Op (Log : Type) where
  | storeLog (log : Log)
  | storeLogs (logs : List Log)
  | deleteRange (min max : UInt64)
  | set (key val : Bytes)
  | setUint64 (key : Bytes) (val : UInt64)

/-- A call, the faults it meets, and for `DeleteRange` how many transactions it may take. -/
structure Event (Log : Type) where
  op : Op Log
  faults : Faults
  fuel : Nat

structure State where
  db : Db
  /-- What the stable store was given, the last first. -/
  history : List (Bytes × Bytes)

def initial : State := ⟨.empty, []⟩

/-- What the stable store is given by a call. -/
def Op.gives {Log : Type} : Op Log → Option (Bytes × Bytes)
  | .set key val => some (key, val)
  | .setUint64 key val => some (key, uint64ToBytes val)
  | _ => none

def lastSet (key : Bytes) : List (Bytes × Bytes) → Option Bytes
  | [] => none
  | (k, val) :: rest => if key = k then some val else lastSet key rest

section
variable {Log : Type} (c : Codec Log)

def Op.run (f : Faults) (fuel : Nat) (db : Db) : Op Log → Option (Option Err × Db)
  | .storeLog log => some (Raft.storeLog c f 0 log db)
  | .storeLogs logs => some (Raft.storeLogs c f 0 logs db)
  | .deleteRange min max => Raft.deleteRange f max fuel 0 min db
  | .set key val => some (Raft.set f 0 key val db)
  | .setUint64 key val => some (Raft.setUint64 f 0 key val db)

/-- A call that succeeds. -/
def step (s : State) (e : Event Log) : Option State :=
  match e.op.run c e.faults e.fuel s.db with
  | some (none, db) => some ⟨db, e.op.gives.toList ++ s.history⟩
  | _ => none

/-- `Get` finds what was last given. -/
def Isolated (s : State) : Prop :=
  ∀ key, get key s.db = match lastSet key s.history with
    | some val => .ok val
    | none => .error .keyNotFound

/-- A `DeleteRange` overruns no stable key of eight bytes. -/
def sparingRule (s : State) (e : Event Log) : Prop :=
  ∀ min max, e.op = .deleteRange min max → ∀ key, Overruns s.db min max key → key.length ≠ 8

/-! ### What a call does to the stable store -/

theorem update_ok {f : Faults} {t : Nat} {w : Write} {db r : Db} (h : update f t w db = (none, r)) :
    r = w.apply db := by
  rw [update] at h
  split at h
  · cases h
  · split at h
    · cases h
    · cases h
      rfl

theorem storeLog_ok {f : Faults} {t : Nat} {log : Log} {db r : Db} (h : storeLog c f t log db = (none, r)) :
    r = overwrite c db [log] := by
  rw [storeLog] at h
  split at h
  · cases h
  · exact update_ok h

theorem storeLogs_ok {f : Faults} {t : Nat} {logs : List Log} {db r : Db} (h : storeLogs c f t logs db = (none, r)) :
    r = overwrite c db logs := by
  obtain ⟨j, -, hdb, hnil⟩ := storeLoop_overwrites c f t [] logs db
  rw [List.nil_append] at hdb hnil
  change (storeLogs c f t logs db).2 = _ at hdb
  change (storeLogs c f t logs db).1 = _ → _ at hnil
  rw [h] at hdb hnil
  rw [hnil rfl, List.take_length] at hdb
  exact hdb

/-- An overrun key that is filled up makes one that is overrun. -/
theorem Overruns.fill {db : Db} {min max : UInt64} {l : Bytes} (h : Overruns db min max l) (hshort : l.length ≤ 8)
    (hstored : HasConf db (l ++ List.replicate (8 - l.length) 0)) :
    Overruns db min max (l ++ List.replicate (8 - l.length) 0) where
  stored := hstored
  noLog := h.noLog
  noConf m hm hle := by
    by_cases hlm : l < m
    · -- Only `l` with fewer zeros lies between.
      obtain ⟨j, hj, rfl⟩ := eq_append_replicate hlm hle
      rw [confIndex_fill hshort j (by omega)]
      exact h.noConf l h.stored (lt_irrefl l)
    · exact h.noConf m hm hlm

/-- What walks remove leaves the stable keys, when none of eight bytes is overrun. -/
theorem get_conf_remove {db₀ db : Db} {min max start : UInt64} (h : Thinned db₀ min max start db)
    (hspare : ∀ key, Overruns db₀ min max key → key.length ≠ 8) {keys : List Bytes}
    (hsub : keys ⊆ visited max start db) (key : Bytes) :
    (remove keys db).get (confKey key) = db.get (confKey key) := by
  by_cases hmem : confKey key ∈ keys.map copied
  · obtain ⟨l, hl, hshort, rfl⟩ := confKey_copied h.formed hsub hmem
    have hover := (mem_visited_conf h.formed).mp (hsub hl)
    have hnone : ¬HasConf db (l ++ List.replicate (8 - l.length) 0) := fun hstored =>
      hspare _ (h.overruns (hover.fill hshort hstored)) (by rw [List.length_append, List.length_replicate]; omega)
    rw [get_remove_of_mem hmem, Option.not_isSome_iff_eq_none.mp hnone]
  · exact get_remove_of_notMem hmem db

/-- The stable keys are as they were. -/
def ConfKept (db₀ db : Db) : Prop := ∀ key, db.get (confKey key) = db₀.get (confKey key)

theorem deleteRange_ok {f : Faults} {fuel t : Nat} {min max : UInt64} {db r : Db} (hform : Formed db)
    (hspare : ∀ key, Overruns db min max key → key.length ≠ 8)
    (h : deleteRange f max fuel t min db = some (none, r)) : Formed r ∧ ConfKept db r := by
  refine deleteRange_rule (fun start db' => Thinned db min max start db' ∧ ConfKept db db')
    (fun r => Formed r ∧ ConfKept db r) ?_ ?_ ⟨thinned_refl hform, fun _ => rfl⟩ h
  · rintro start db' front key back hup - ⟨hthin, hkept⟩
    have hsub : front ⊆ visited max start db' := front_subset hup
    exact ⟨hthin.remove hsub (copiedIndex_le hup), fun k => (get_conf_remove hthin hspare hsub k).trans (hkept k)⟩
  · rintro start db' ⟨hthin, hkept⟩
    have hsub : visited max start db' ⊆ visited max start db' := List.Subset.refl _
    exact ⟨hthin.formed.remove _, fun k => (get_conf_remove hthin hspare hsub k).trans (hkept k)⟩

theorem get_conf_insert (db : Db) (k val key : Bytes) :
    (db.insert (confKey k) val).get (confKey key) = if key = k then some val else db.get (confKey key) := by
  rw [SortedMap.get_insert]
  by_cases hk : key = k
  · rw [if_pos hk, if_pos (congrArg confKey hk)]
  · rw [if_neg hk, if_neg fun heq => hk (confKey_injective heq)]

/-- **A call changes the stable store by what it gives it**, and a log operation not at all. -/
theorem step_conf {s s' : State} {e : Event Log} (hform : Formed s.db) (hrule : sparingRule s e)
    (h : step c s e = some s') :
    Formed s'.db ∧ s'.history = e.op.gives.toList ++ s.history ∧
    ∀ key, s'.db.get (confKey key) = match e.op.gives with
      | some (k, val) => if key = k then some val else s.db.get (confKey key)
      | none => s.db.get (confKey key) := by
  obtain ⟨op, f, fuel⟩ := e
  rw [step] at h
  split at h
  · rename_i r hrun
    cases h
    cases op with
    | storeLog log =>
      cases storeLog_ok c (Option.some.inj hrun)
      exact ⟨hform.overwrite c _, rfl, fun key => get_overwrite_conf c _ key _⟩
    | storeLogs logs =>
      cases storeLogs_ok c (Option.some.inj hrun)
      exact ⟨hform.overwrite c _, rfl, fun key => get_overwrite_conf c _ key _⟩
    | deleteRange min max =>
      obtain ⟨hform', hget⟩ := deleteRange_ok hform (hrule min max rfl) hrun
      exact ⟨hform', rfl, hget⟩
    | set key val =>
      cases update_ok (Option.some.inj hrun)
      exact ⟨hform.insert_conf _ _, rfl, get_conf_insert _ _ _⟩
    | setUint64 key val =>
      cases update_ok (Option.some.inj hrun)
      exact ⟨hform.insert_conf _ _, rfl, get_conf_insert _ _ _⟩
  · cases h

/-! ### Runs -/

structure Agrees (s : State) : Prop where
  formed : Formed s.db
  last : ∀ key, s.db.get (confKey key) = lastSet key s.history

theorem agrees_step {s s' : State} {e : Event Log} (hs : Agrees s) (hrule : sparingRule s e)
    (h : step c s e = some s') : Agrees s' := by
  obtain ⟨hform, hhistory, hget⟩ := step_conf c hs.formed hrule h
  refine ⟨hform, fun key => ?_⟩
  rw [hget, hhistory]
  cases e.op.gives with
  | none => exact hs.last key
  | some kv => exact if_congr Iff.rfl rfl (hs.last key)

theorem Agrees.isolated {s : State} (h : Agrees s) : Isolated s := by
  intro key
  rw [get, h.last key]
  cases lastSet key s.history <;> rfl

/-- **The stable store is isolated from the log** in every run in which no
`DeleteRange` overruns a stable key of eight bytes: `Get` finds what was last given,
and no log operation changes what it finds. -/
theorem stable_isolated {s : State} (h : Reach (step c) sparingRule initial s) :
    Isolated s ∧
    ∀ e s', sparingRule s e → step c s e = some s' → e.op.gives = none → ∀ key, get key s'.db = get key s.db := by
  have hs : Agrees s := h.invariant Agrees ⟨formed_empty, fun _ => rfl⟩ fun s e s' hs hr => agrees_step c hs hr
  refine ⟨hs.isolated, fun e s' hr hstep hlog key => ?_⟩
  have hget := (step_conf c hs.formed hr hstep).2.2 key
  rw [hlog] at hget
  rw [get, get, hget]

end

/-! ### A vote among logs -/

def noFaults : Faults := ⟨fun _ => none, fun _ => none, fun _ => none⟩

def calls (ops : List (Op UInt64)) : List (Event UInt64) := ops.map fun op => ⟨op, noFaults, 2⟩

def votedFor : Bytes := ascii "votedFor"

/-- The log `i` lies beyond every range that is deleted. -/
def keepsLog (i : UInt64) (s : State) (e : Event UInt64) : Bool :=
  match e.op with
  | .deleteRange min max => (s.db.get (logKey i)).isSome && decide (min ≤ i) && decide (max < i)
  | _ => true

theorem sparingRule_of_keepsLog {i : UInt64} (s : State) (e : Event UInt64) (h : keepsLog i s e = true) :
    sparingRule s e := by
  rintro min max hop key hover -
  rw [keepsLog, hop, Bool.and_eq_true, Bool.and_eq_true] at h
  obtain ⟨⟨hlog, hmin⟩, hmax⟩ := h
  exact UInt64.not_le.mpr (of_decide_eq_true hmax) (hover.noLog i hlog (of_decide_eq_true hmin))

theorem stable_isolated_kept :
    ∃ s, Reach (step indexCodec) sparingRule initial s ∧ s.db.get (logKey 1) = none ∧
      s.history = [(votedFor, ascii "b"), (votedFor, ascii "a")] ∧ Isolated s := by
  obtain ⟨s, hs, hf⟩ := exists_reach_of_play (step indexCodec) (keepsLog 3) sparingRule_of_keepsLog initial
    (calls [.set votedFor (ascii "a"), .storeLog 1, .storeLog 3, .set votedFor (ascii "b"), .deleteRange 1 2])
    (fun s => decide (s.db.get (logKey 1) = none ∧ s.history = [(votedFor, ascii "b"), (votedFor, ascii "a")]))
    (by decide)
  obtain ⟨hgone, hhistory⟩ := of_decide_eq_true hf
  exact ⟨s, hs, hgone, hhistory, (stable_isolated indexCodec hs).1⟩

/-- **A vote can be deleted with the log.** -/
theorem not_stable_isolated : ¬∀ s, Reach (step indexCodec) Free initial s → Isolated s := by
  intro h
  obtain ⟨s, hs, hf⟩ := exists_reach_of_play (step indexCodec) (fun _ _ => true) (fun _ _ _ => trivial) initial
    (calls [.set votedFor (ascii "a"), .storeLog 1, .deleteRange 1 18446744073709551615])
    (fun s => decide (s.db.get (confKey votedFor) = none ∧ lastSet votedFor s.history = some (ascii "a"))) (by decide)
  obtain ⟨hgone, hlast⟩ := of_decide_eq_true hf
  have hget := h s hs votedFor
  rw [get, hgone, hlast] at hget
  cases hget

end AnarchoRedis.Raft
