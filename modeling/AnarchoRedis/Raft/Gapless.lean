import AnarchoRedis.Raft.Index
import AnarchoRedis.Raft.Refinement

/-! The logs as Raft uses them.

In any run of calls `FirstIndex` and `LastIndex` bound the stored logs, up to the last 256
indices (`indices_reach`).

Raft appends logs one after the other, deletes from the first log on when it compacts,
and up to the last when a conflict is found; its stable keys are longer than eight
bytes and no log has index zero (`raftRule`). Then the stored indices have no gap,
however calls fail and wherever appends and compactions are split, and `GetLog` finds
exactly the logs from `FirstIndex` to `LastIndex` (`logs_gapless`). What is asked of a deletion
up to the last log is that it fits one transaction: one that is split can leave a hole
(`truncation_leaves_hole`). -/
namespace AnarchoRedis.Raft
open Base Base.ByteOrder

section
variable {Log : Type} {c : Codec Log}

/-! ### The first and the last index in a run -/

/-- Every call, whether it fails or not, leaves the keys of logs and of stable values. -/
theorem formed_run {db r : Db} {op : Op Log} {f : Faults} {fuel : Nat} {err : Option Err} (h : Formed db)
    (hrun : op.run c f fuel db = some (err, r)) : Formed r := by
  cases op with
  | storeLog log =>
    have hstore := Option.some.inj hrun
    rcases storeLog_cases (c := c) f 0 log db with heq | ⟨e, heq⟩
    · cases heq.symm.trans hstore
      exact h.overwrite c _
    · cases heq.symm.trans hstore
      exact h
  | storeLogs logs =>
    have hstore := Option.some.inj hrun
    obtain ⟨n, -, hdb, -⟩ := storeLoop_overwrites c f 0 [] logs db
    change (storeLogs c f 0 logs db).2 = overwrite c db (logs.take n) at hdb
    rw [hstore] at hdb
    rw [show r = overwrite c db (logs.take n) from hdb]
    exact h.overwrite c _
  | deleteRange min max =>
    rcases deleteRange_returns (fun _ db => Formed db) Formed (fun _ _ front _ _ _ _ _ _ hdb => hdb.remove front)
      (fun _ _ hdb => hdb.remove _) h hrun with ⟨-, hr⟩ | ⟨-, -, hr⟩
    · exact hr
    · exact hr
  | set key val | setUint64 key val =>
    have hset := Option.some.inj hrun
    rcases update_cases f 0 (.set (confKey key) _) db with heq | ⟨e, heq⟩
    · cases heq.symm.trans hset
      exact h.insert_conf _ _
    · cases heq.symm.trans hset
      exact h

theorem formed_reach {s : Session Log} (h : Reach (attempt c) Free ⟨.empty, []⟩ s) : Formed s.db := by
  refine h.invariant (fun s => Formed s.db) formed_empty fun s e s' hs _ hstep => ?_
  obtain ⟨⟨err, r⟩, hrun, rfl⟩ := Option.map_eq_some_iff.mp hstep
  exact formed_run hs hrun

/-- **In every run of calls, whatever fails**, no log comes before the one at `FirstIndex`,
and none after the one at `LastIndex` but those of the last 256 indices. -/
theorem indices_reach {s : Session Log} (h : Reach (attempt c) Free ⟨.empty, []⟩ s) {i : UInt64} (hi : HasLog s.db i) :
    (HasLog s.db (firstIndex s.db) ∧ firstIndex s.db ≤ i) ∧
      (i < lastPage → HasLog s.db (lastIndex s.db) ∧ i ≤ lastIndex s.db) := by
  have hform := formed_reach h
  refine ⟨hasLog_firstIndex hform hi, fun hbefore => ?_⟩
  rcases lastIndex_found hform with hlast | ⟨hnone, -⟩
  · exact ⟨hlast.1.1, hlast.2 ⟨hi, hbefore⟩⟩
  · exact absurd hbefore (hnone i hi)

/-! ### Contents without a gap -/

def Contents.Has (s : Contents c) (i : UInt64) : Prop := (s.logs i).isSome = true

/-- Contents as Raft makes them. -/
structure Contents.Sound (s : Contents c) : Prop where
  gapless : ∀ i j k, i ≤ j → j ≤ k → s.Has i → s.Has k → s.Has j
  bounds : ∀ i, s.Has i → i ≠ 0 ∧ i < lastPage
  long : ∀ key, (s.values key).isSome = true → 8 < key.length

/-- The logs have the indices from `i` on. -/
def Consecutive (c : Codec Log) : UInt64 → List Log → Prop
  | _, [] => True
  | i, log :: logs => c.index log = i ∧ Consecutive c (i + 1) logs

/-- The index `i` is the one after the last log. -/
structure Contents.Next (s : Contents c) (i : UInt64) : Prop where
  pos : i ≠ 0
  beyond : ∀ j, s.Has j → j < i
  follows : ∀ j, s.Has j → ∃ k, s.Has k ∧ k.toNat + 1 = i.toNat

variable {s : Contents c} {db : Db}

theorem Contents.has_write {log : Log} {i : UInt64} : (s.write log).Has i ↔ i = c.index log ∨ s.Has i := by
  rw [Has, Has, write_logs, Function.update_apply]
  split
  · simp [*]
  · simp [*]

theorem Contents.has_delete {min max i : UInt64} : (s.delete min max).Has i ↔ ¬(min ≤ i ∧ i ≤ max) ∧ s.Has i := by
  rw [Has, Has, delete_logs]
  split
  · simp [*]
  · simp [*]

theorem Holds.hasLog (h : Holds db s) {i : UInt64} : HasLog db i ↔ s.Has i := by
  rw [HasLog, Contents.Has, h.log, Option.isSome_map]

theorem Consecutive.take {logs : List Log} {i : UInt64} (h : Consecutive c i logs) (n : Nat) :
    Consecutive c i (logs.take n) := by
  induction logs generalizing i n with
  | nil => rw [List.take_nil]; trivial
  | cons log logs ih =>
    cases n with
    | zero => trivial
    | succ n => exact ⟨h.1, ih h.2 n⟩

/-- Writing the next log. -/
theorem Contents.Sound.write (h : s.Sound) {log : Log} (hnext : s.Next (c.index log)) (hroom : c.index log < lastPage) :
    (s.write log).Sound where
  gapless i j k hij hjk hi hk := by
    rw [has_write] at hi hk ⊢
    by_cases hj : j = c.index log
    · exact .inl hj
    · right
      rcases hk with rfl | hk
      · -- Between a log and the next index lies nothing after the last log.
        rcases hi with rfl | hi
        · exact absurd (UInt64.le_antisymm hjk hij) hj
        · obtain ⟨last, hlast, hsucc⟩ := hnext.follows i hi
          refine h.gapless i j last hij ?_ hi hlast
          rw [UInt64.le_iff_toNat_le] at hjk ⊢
          have hne : j.toNat ≠ (c.index log).toNat := fun heq => hj (UInt64.toNat_inj.mp heq)
          omega
      · rcases hi with rfl | hi
        · exact absurd (hnext.beyond k hk) (UInt64.not_lt.mpr (UInt64.le_trans hij hjk))
        · exact h.gapless i j k hij hjk hi hk
  bounds i hi := by
    rcases has_write.mp hi with rfl | hi
    · exact ⟨hnext.pos, hroom⟩
    · exact h.bounds i hi
  long := h.long

theorem Contents.Next.write {log : Log} (h : s.Next (c.index log)) (hroom : c.index log < lastPage) :
    (s.write log).Next (c.index log + 1) := by
  have hsucc : (c.index log + 1).toNat = (c.index log).toNat + 1 := by
    have hlt : (c.index log).toNat < lastPage.toNat := UInt64.lt_iff_toNat_lt.mp hroom
    have hpage : lastPage.toNat = 18446744073709551360 := rfl
    rw [UInt64.toNat_add]
    exact Nat.mod_eq_of_lt (by have hone : (1 : UInt64).toNat = 1 := rfl; omega)
  refine ⟨fun hzero => ?_, fun j hj => ?_, fun _ _ => ⟨c.index log, has_write.mpr (.inl rfl), hsucc.symm⟩⟩
  · rw [hzero] at hsucc
    cases hsucc
  · rw [UInt64.lt_iff_toNat_lt, hsucc]
    rcases has_write.mp hj with rfl | hj
    · exact Nat.lt_succ_self _
    · exact Nat.lt_succ_of_lt (UInt64.lt_iff_toNat_lt.mp (h.beyond j hj))

/-- Appending logs one after the other. -/
theorem Contents.Sound.append (h : s.Sound) {i : UInt64} {logs : List Log} (hnext : s.Next i) (hlogs : Consecutive c i logs)
    (hroom : i.toNat + logs.length ≤ lastPage.toNat) : (s.perform (.storeLogs logs)).Sound := by
  induction logs generalizing s i with
  | nil => exact h
  | cons log logs ih =>
    obtain ⟨rfl, hrest⟩ := hlogs
    rw [List.length_cons] at hroom
    have hlt : c.index log < lastPage := UInt64.lt_iff_toNat_lt.mpr (by omega)
    have hnext' := hnext.write hlt
    have hsucc : (c.index log + 1).toNat ≤ (c.index log).toNat + 1 := by
      rw [UInt64.toNat_add]
      exact Nat.mod_le _ _
    exact ih (h.write hnext hlt) hnext' hrest (by omega)

/-- Deleting from the first log on, or up to the last. -/
theorem Contents.Sound.delete (h : s.Sound) {min max : UInt64}
    (hend : (∀ i, s.Has i → min ≤ i) ∨ ∀ i, s.Has i → i ≤ max) : (s.delete min max).Sound where
  gapless i j k hij hjk hi hk := by
    rw [has_delete] at hi hk ⊢
    refine ⟨fun hj => ?_, h.gapless i j k hij hjk hi.2 hk.2⟩
    rcases hend with hend | hend
    · exact hi.1 ⟨hend i hi.2, UInt64.le_trans hij hj.2⟩
    · exact hk.1 ⟨UInt64.le_trans hj.1 hjk, hend k hk.2⟩
  bounds i hi := h.bounds i (has_delete.mp hi).2
  long := h.long

theorem Contents.Sound.give (h : s.Sound) {key val : Bytes} (hlong : 8 < key.length) : (s.give key val).Sound where
  gapless := h.gapless
  bounds := h.bounds
  long k hk := by
    rw [give_values, Function.update_apply] at hk
    split at hk
    · rename_i heq
      exact heq ▸ hlong
    · exact h.long k hk

/-! ### Raft's calls -/

/-- The logs that are given come one after the other, after the last that is stored. -/
def Appends (c : Codec Log) (db : Db) (logs : List Log) : Prop :=
  ∃ i, i ≠ 0 ∧ (∀ j, HasLog db j → j < i) ∧ (∀ j, HasLog db j → ∃ k, HasLog db k ∧ k.toNat + 1 = i.toNat) ∧
    Consecutive c i logs ∧ i.toNat + logs.length ≤ lastPage.toNat

/-- How Raft calls the store. -/
def raftRule (c : Codec Log) (s : Session Log) (e : Event Log) : Prop :=
  match e.op with
  | .storeLog log => Appends c s.db [log]
  | .storeLogs logs => Appends c s.db logs
  | .deleteRange min max =>
    (∀ i, HasLog s.db i → min ≤ i) ∨
      (∀ i, HasLog s.db i → i ≤ max) ∧ Unsplit e.faults
  | .set key _ => 8 < key.length
  | .setUint64 key _ => 8 < key.length

theorem Holds.next (h : Holds db s) {logs : List Log} (ha : Appends c db logs) :
    ∃ i, s.Next i ∧ Consecutive c i logs ∧ i.toNat + logs.length ≤ lastPage.toNat := by
  obtain ⟨i, hpos, hbeyond, hfollows, hlogs, hroom⟩ := ha
  simp only [h.hasLog] at hbeyond hfollows
  exact ⟨i, ⟨hpos, hbeyond, hfollows⟩, hlogs, hroom⟩

theorem Holds.spared (h : Holds db s) (hs : s.Sound) {f : Faults} {min max : UInt64}
    (hend : (∀ i, HasLog db i → min ≤ i) ∨ (∀ i, HasLog db i → i ≤ max) ∧ Unsplit f) :
    Spared f db min max := by
  have hzero : ¬HasLog db 0 := fun hlog => (hs.bounds 0 (h.hasLog.mp hlog)).1 rfl
  refine ⟨fun key hkey => ?_, hend.imp (fun hmin => ?_) fun hmax => ?_⟩
  · have hlen := hs.long key (by rw [← h.value]; exact hkey.stored)
    omega
  · exact ⟨fun _ _ _ hlog => absurd hlog hzero, fun _ _ _ i hi _ _ => hmin i hi⟩
  · exact ⟨hmax.2, fun _ _ _ hlog => absurd hlog hzero⟩

/-- The database holds sound contents. -/
def InUse (c : Codec Log) (db : Db) : Prop := ∃ s : Contents c, Holds db s ∧ s.Sound

/-- A call of which every part leaves sound contents. -/
theorem Holds.inUse {spec : Contents c} (h : Holds db spec) {op : Op Log} {f : Faults} {fuel : Nat} {err : Option Err}
    (hkeeps : ∀ min max, op ≠ .deleteRange min max) (hrun : op.run c f fuel db = some (err, r))
    (hall : (spec.perform op).Sound) (hparts : ∀ part, op.Part part → (spec.perform part).Sound) : InUse c r := by
  obtain ⟨part, hpart, hholds⟩ := h.run (fun min max hop => absurd hop (hkeeps min max)) hrun
  refine ⟨_, hholds, ?_⟩
  rcases hpart with ⟨-, rfl⟩ | ⟨-, hpart⟩
  · exact hall
  · exact hparts part hpart

theorem inUse_step {s s' : Session Log} {e : Event Log} (hs : InUse c s.db) (hrule : raftRule c s e)
    (h : attempt c s e = some s') : InUse c s'.db := by
  obtain ⟨⟨err, r⟩, hrun, rfl⟩ := Option.map_eq_some_iff.mp h
  obtain ⟨spec, hholds, hsound⟩ := hs
  obtain ⟨op, f, fuel⟩ := e
  cases op with
  | storeLog log =>
    obtain ⟨i, hnext, hlogs, hroom⟩ := hholds.next (show Appends c s.db [log] from hrule)
    refine hholds.inUse (fun _ _ hop => by cases hop) hrun (hsound.append hnext hlogs hroom) fun part hpart => ?_
    cases hpart
    exact hsound
  | storeLogs logs =>
    obtain ⟨i, hnext, hlogs, hroom⟩ := hholds.next (show Appends c s.db logs from hrule)
    refine hholds.inUse (fun _ _ hop => by cases hop) hrun (hsound.append hnext hlogs hroom) fun part hpart => ?_
    cases hpart with
    | nothing => exact hsound
    | front logs n =>
      have hlen : (logs.take n).length ≤ logs.length := (List.take_sublist n logs).length_le
      exact hsound.append hnext (hlogs.take n) (by omega)
  | deleteRange min max =>
    have hend := hrule
    change (∀ i, HasLog s.db i → min ≤ i) ∨ (∀ i, HasLog s.db i → i ≤ max) ∧ Unsplit f at hend
    obtain ⟨hform, hkept, ⟨-, hdeleted⟩ | ⟨-, hbegun, hsame⟩⟩ := deleteRange_part hholds.formed (hholds.spared hsound hend) hrun
    · refine ⟨_, hholds.delete hform hdeleted hkept, hsound.delete ?_⟩
      simp only [hholds.hasLog] at hend
      exact hend.imp id And.left
    · rcases hend with hmin | ⟨-, hnever⟩
      · rcases hbegun with hall | ⟨m, -, hdeleted⟩
        · exact ⟨_, hholds.same hform hall hkept, hsound⟩
        · simp only [hholds.hasLog] at hmin
          exact ⟨_, hholds.delete hform hdeleted hkept, hsound.delete (.inl hmin)⟩
      · have hdb : r = s.db := hsame hnever
        exact ⟨spec, hdb ▸ hholds, hsound⟩
  | set key val | setUint64 key val =>
    refine hholds.inUse (fun _ _ hop => by cases hop) hrun (hsound.give hrule) fun part hpart => ?_
    cases hpart
    exact hsound

/-- **The log has no gap.** However the calls that Raft makes fail, `GetLog` finds exactly
the logs from `FirstIndex` to `LastIndex`, each under its own index. -/
theorem logs_gapless {s : Session Log} (h : Reach (attempt c) (raftRule c) ⟨.empty, []⟩ s) (i : UInt64) :
    (∃ log, getLog c i s.db = .ok log ∧ c.index log = i) ↔ i ≠ 0 ∧ firstIndex s.db ≤ i ∧ i ≤ lastIndex s.db := by
  have hsound : (Contents.empty : Contents c).Sound :=
    ⟨fun _ _ _ _ _ hi => (by cases hi), fun _ hi => (by cases hi), fun _ hk => (by cases hk)⟩
  obtain ⟨spec, hholds, hsound⟩ : InUse c s.db :=
    h.invariant (fun s => InUse c s.db) ⟨_, holds_empty, hsound⟩ fun _ _ _ hs hr => inUse_step hs hr
  have hbefore (j : UInt64) (hj : HasLog s.db j) : j < lastPage := (hsound.bounds j (hholds.hasLog.mp hj)).2
  constructor
  · rintro ⟨log, hlog, -⟩
    have hhas : spec.Has i := by
      rw [hholds.getLog] at hlog
      rw [Contents.Has]
      cases hi : spec.logs i with
      | none => rw [hi] at hlog; cases hlog
      | some log => rfl
    have hi := hholds.hasLog.mpr hhas
    refine ⟨(hsound.bounds i hhas).1, (hasLog_firstIndex hholds.formed hi).2, ?_⟩
    rcases lastIndex_found hholds.formed with hlast | ⟨hnone, -⟩
    · exact hlast.2 ⟨hi, hbefore i hi⟩
    · exact absurd (hbefore i hi) (hnone i hi)
  · intro ⟨hpos, hfirst, hle⟩
    rcases lastIndex_found hholds.formed with hlast | ⟨-, hzero⟩
    · have hlog := hlast.1.1
      have hhas := hsound.gapless _ i _ hfirst hle (hholds.hasLog.mp (hasLog_firstIndex hholds.formed hlog).1)
        (hholds.hasLog.mp hlog)
      obtain ⟨log, hi⟩ := Option.isSome_iff_exists.mp hhas
      refine ⟨log, ?_, spec.indexed i log hi⟩
      rw [hholds.getLog, hi]
      rfl
    · rw [hzero] at hle
      exact absurd (UInt64.le_antisymm hle UInt64.zero_le) hpos

end

/-- Raft's calls, on logs that are their index only. -/
def asRaft (s : Session UInt64) (e : Event UInt64) : Bool :=
  match e.op with
  | .storeLog i =>
    decide (i ≠ 0 ∧ i.toNat + 1 ≤ lastPage.toNat ∧ (∀ key ∈ s.db.keys, key < logKey i) ∧
      (s.db.keys = [] ∨ (s.db.get (logKey (i - 1))).isSome = true ∧ (i - 1).toNat + 1 = i.toNat))
  | .deleteRange min _ => decide (∀ key ∈ s.db.keys, logKey min ≤ key)
  | _ => false

theorem raftRule_of_asRaft (s : Session UInt64) (e : Event UInt64) (h : asRaft s e = true) : raftRule indexCodec s e := by
  obtain ⟨op, f, fuel⟩ := e
  cases op with
  | storeLog i =>
    obtain ⟨hpos, hroom, hbeyond, hlast⟩ := of_decide_eq_true h
    refine ⟨i, hpos, fun j hj => logKey_lt_iff.mp (hbeyond _ (SortedMap.mem_keys.mpr hj)), fun j hj => ?_, ⟨rfl, trivial⟩, hroom⟩
    rcases hlast with hnil | hlast
    · have hmem := SortedMap.mem_keys.mpr hj
      rw [hnil] at hmem
      cases hmem
    · exact ⟨i - 1, hlast⟩
  | deleteRange min max =>
    exact .inl fun i hi => logKey_le_iff.mp (of_decide_eq_true h _ (SortedMap.mem_keys.mpr hi))
  | storeLogs | set | setUint64 => cases h

/-- A compaction of all logs fails when the first is gone. -/
theorem logs_gapless_failing : ∃ s : Session UInt64, s.calls.map Prod.snd = [none, none, none, some (.other 7)] ∧
    firstIndex s.db = 2 ∧ lastIndex s.db = 3 ∧ ∃ log, getLog indexCodec 2 s.db = .ok log ∧ indexCodec.index log = 2 := by
  obtain ⟨s, hs, hf⟩ := exists_reach_of_play (attempt indexCodec) asRaft raftRule_of_asRaft ⟨.empty, []⟩
    (calls [.storeLog 1, .storeLog 2, .storeLog 3] ++ [⟨.deleteRange 1 3, failsLate, 2⟩])
    (fun s => decide (s.calls.map Prod.snd = [none, none, none, some (.other 7)] ∧
      firstIndex s.db = 2 ∧ lastIndex s.db = 3)) (by decide)
  obtain ⟨hcalls, hfirst, hlast⟩ := of_decide_eq_true hf
  exact ⟨s, hcalls, hfirst, hlast, (logs_gapless hs 2).mpr ⟨by decide, by rw [hfirst]; decide, by rw [hlast]; decide⟩⟩

/-! ### A split truncation -/

/-- The second write finds its transaction full, and no commit after the first succeeds. -/
def failsSecond : Faults := {fullAt 1 with commit := fun t => if t = 1 then none else some (.other 7)}

/-- A walk meets only the faults of writes. -/
theorem deleteLoop_congr {f g : Faults} (h : f.modify = g.modify) (max : UInt64) (keys : List Bytes) (txn : Txn) (t : Nat) :
    deleteLoop f max keys txn t = deleteLoop g max keys txn t := by
  have hmod (txn : Txn) (t : Nat) : f.modified t txn = g.modified t txn := by rw [Faults.modified, Faults.modified, h]
  induction keys generalizing txn t with
  | nil => rfl
  | cons key keys ih => rw [deleteLoop, deleteLoop, hmod, ih]

theorem deleteLoop_later {f : Faults} {max : UInt64} {keys : List Bytes} {txn txn' : Txn} {t u : Nat}
    (h : deleteLoop f max keys txn t = .finished txn' u) : t ≤ u := by
  induction keys generalizing txn t with
  | nil =>
    cases h
    exact le_rfl
  | cons key keys ih =>
    rw [deleteLoop] at h
    split at h
    · cases h
      exact le_rfl
    · split at h
      · cases h
      · cases h
      · exact (Nat.le_succ t).trans (ih h)

/-- A range that has a log is visited from its least log on. -/
theorem visited_begins {db : Db} {min max i : UInt64} (hform : Formed db) (hi : HasLog db i) (hmin : min ≤ i)
    (hmax : i ≤ max) :
    ∃ first rest, visited max min db = logKey first :: rest ∧ IsLeast {k | HasLog db k ∧ min ≤ k ∧ k ≤ max} first := by
  have hmem : logKey i ∈ visited max min db := (mem_visited_log hform).mpr ⟨hi, hmin, hmax⟩
  obtain ⟨x, rest, hsplit⟩ : ∃ x rest, visited max min db = x :: rest :=
    List.exists_cons_of_ne_nil (List.ne_nil_of_mem hmem)
  have hfirst : x ∈ visited max min db := by
    rw [hsplit]
    exact List.mem_cons_self
  have hleast {y : Bytes} (hy : y ∈ visited max min db) : x ≤ y := by
    have hsorted := visited_sorted max min db
    rw [hsplit] at hy hsorted
    rcases List.mem_cons.mp hy with rfl | hy
    · exact le_rfl
    · exact ((List.pairwise_cons.mp hsorted).1 y hy).le
  rcases formed_of_mem_visited hform hfirst with ⟨first, rfl⟩ | ⟨k, rfl⟩
  · refine ⟨first, rest, hsplit, (mem_visited_log hform).mp hfirst, fun j hj => ?_⟩
    exact logKey_le_iff.mp (hleast ((mem_visited_log hform).mpr hj))
  · exact absurd (hleast hmem) (not_le.mpr (logKey_lt_confKey i k))

/-- **A truncation that is split can leave a hole.** In every store, and for every range
that has two logs, `DeleteRange` can fail with the first log of its range deleted and all
others still there. -/
theorem truncation_leaves_hole {db : Db} {min max i j : UInt64} (hform : Formed db) (hi : HasLog db i)
    (hj : HasLog db j) (hmin : min ≤ i) (hlt : i < j) (hle : j ≤ max) :
    ∃ first, IsLeast {k | HasLog db k ∧ min ≤ k ∧ k ≤ max} first ∧
      ∃ f err r, deleteRange f max 2 0 min db = some (some err, r) ∧ ¬HasLog r first ∧
        ∀ k, k ≠ first → r.get (logKey k) = db.get (logKey k) := by
  have hmore : logKey j ∈ visited max min db :=
    (mem_visited_log hform).mpr ⟨hj, UInt64.le_trans hmin (UInt64.le_of_lt hlt), hle⟩
  obtain ⟨first, rest, hsplit, hfirst⟩ := visited_begins hform hi hmin (UInt64.le_trans (UInt64.le_of_lt hlt) hle)
  have hbefore : first < j :=
    UInt64.lt_of_le_of_lt (hfirst.2 ⟨hi, hmin, UInt64.le_trans (UInt64.le_of_lt hlt) hle⟩) hlt
  obtain ⟨key, back, rfl⟩ : ∃ key back, rest = key :: back := by
    cases rest with
    | nil =>
      rw [hsplit, List.mem_singleton] at hmore
      exact absurd (logKey_injective hmore) (UInt64.ne_of_lt hbefore).symm
    | cons key back => exact ⟨key, back, rfl⟩
  have hend : deleteLoop failsSecond max (db.keysFrom (logKey min)) [] 0 =
      .full (copiedIndex key) (deletes [logKey first]) 1 := by
    have hup : upTo max (db.keysFrom (logKey min)) = [logKey first] ++ key :: back := hsplit
    have hne : [] ++ deletes [logKey first] ≠ [] := List.cons_ne_nil _ _
    exact (deleteLoop_congr (show failsSecond.modify = (fullAt 1).modify from rfl) ..).trans (deleteLoop_full hup hne 0)
  have hagain (u : Nat) (hu : 2 ≤ u) : failsSecond.modify u = none := if_neg (by omega)
  obtain ⟨u, hfinished⟩ :=
    deleteLoop_finished hagain max ((remove [logKey first] db).keysFrom (logKey (copiedIndex key))) []
  have hlate : 2 ≤ u := deleteLoop_later hfinished
  refine ⟨first, hfirst, failsSecond, .other 7, remove [logKey first] db, ?_, ?_, fun k hk => ?_⟩
  · rw [deleteRange, hend]
    show deleteRange failsSecond max 1 2 (copiedIndex key) (remove [logKey first] db) = _
    rw [deleteRange, hfinished]
    have hcommit : failsSecond.commit u = some (.other 7) := if_neg (by omega)
    simp only [hcommit]
  · intro hlog
    exact (isSome_of_remove hlog).1 (List.mem_map.mpr ⟨_, List.mem_singleton_self _, copied_logKey first⟩)
  · refine get_remove_of_notMem (fun hmem => hk ?_) db
    rw [List.map_singleton, List.mem_singleton, copied_logKey] at hmem
    exact logKey_injective hmem

/-- Of three logs the second goes, by a range that begins between the first and it. -/
theorem truncation_leaves_hole_middle : ∃ f err r, deleteRange f 4 2 0 2 (inTerm [1, 3, 4]) = some (some err, r) ∧
    ¬HasLog r 3 ∧ r.get (logKey 1) = (inTerm [1, 3, 4]).get (logKey 1) ∧
      r.get (logKey 4) = (inTerm [1, 3, 4]).get (logKey 4) := by
  have hthree : HasLog (inTerm [1, 3, 4]) 3 := by
    unfold HasLog
    decide
  obtain ⟨first, hfirst, f, err, r, hrun, hgone, hkept⟩ := @truncation_leaves_hole (inTerm [1, 3, 4]) 2 4 3 4
    (inTerm_formed _) hthree (by unfold HasLog; decide) (by decide) (by decide) (by decide)
  have hfirst' : first = 3 := by
    have hle := hfirst.2 ⟨hthree, by decide, by decide⟩
    rcases List.mem_cons.mp (hasLog_inTerm hfirst.1.1) with rfl | hmem
    · exact absurd hfirst.1.2.1 (by decide)
    · rcases List.mem_pair.mp hmem with rfl | rfl
      · rfl
      · exact absurd hle (by decide)
  subst hfirst'
  exact ⟨f, err, r, hrun, hgone, hkept 1 (by decide), hkept 4 (by decide)⟩

end AnarchoRedis.Raft
