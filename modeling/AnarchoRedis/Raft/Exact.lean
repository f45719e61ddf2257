import AnarchoRedis.Raft.StoreLogs
import AnarchoRedis.Raft.DeleteRange

/-! When `DeleteRange` deletes its range and nothing else.

A walk that overruns the logs reads stable keys as logs. One of more than eight
bytes does not fit the buffer, which is then the key of log zero: log zero is
deleted. A full transaction at a stable key starts the next walk at the index read
from it, which may lie before the range: the logs from there on are deleted.
Nothing else can go wrong, so `DeleteRange` is exact, whatever the points at which
transactions are full, if and only if no stable key it overruns does either of these
(`deleteRange_exact_iff`). Where none is full only the first matters
(`deleteRange_unsplit_iff`). -/
namespace AnarchoRedis.Raft
open Base Base.ByteOrder

/-- The logs that remain are the ones outside the range. -/
def RangeDeleted (min max : UInt64) (db r : Db) : Prop :=
  ∀ i, r.get (logKey i) = if min ≤ i ∧ i ≤ max then none else db.get (logKey i)

/-- `DeleteRange(min, max)` has this effect whenever it returns without an error. -/
def ExactRange (db : Db) (min max : UInt64) : Prop :=
  ∀ f fuel t r, deleteRange f max fuel t min db = some (none, r) → RangeDeleted min max db r

/-- The stable keys that are overrun do no harm to the logs. -/
structure Harmless (db : Db) (min max : UInt64) : Prop where
  /-- Log zero, for which every longer key is taken, is in the range or not there. -/
  zero : ∀ k, Overruns db min max k → 8 < k.length → HasLog db 0 → min = 0
  /-- From the index read at a key that something is deleted before, all logs up to
  `max` are in the range. -/
  restart : ∀ k, Overruns db min max k →
    (∃ i, HasLog db i ∧ min ≤ i ∧ i ≤ max) ∨ (∃ l, HasConf db l ∧ l < k) →
    ∀ i, HasLog db i → confIndex k ≤ i → i ≤ max → min ≤ i

section
variable {db₀ db : Db} {min max start : UInt64} {front back : List Bytes} {key : Bytes}

theorem mem_front (hup : visited max start db = front ++ key :: back) {x : Bytes} (hx : x ∈ visited max start db)
    (hlt : x < key) : x ∈ front := by
  have hsorted := visited_sorted max start db
  rw [hup] at hx hsorted
  rcases List.mem_append.mp hx with hx | hx
  · exact hx
  · obtain ⟨-, hback, -⟩ := List.pairwise_append.mp hsorted
    rcases List.mem_cons.mp hx with rfl | hx
    · exact absurd hlt (lt_irrefl _)
    · exact absurd hlt ((List.pairwise_cons.mp hback).1 x hx).asymm

theorem lt_of_mem_front (hup : visited max start db = front ++ key :: back) {x : Bytes} (hx : x ∈ front) : x < key := by
  have hsorted := visited_sorted max start db
  rw [hup] at hsorted
  exact (List.pairwise_append.mp hsorted).2.2 x hx key List.mem_cons_self

/-! ### A harmless range -/

/-- What the walks of an exact `DeleteRange` leave to the next: the logs outside the
range, and of the range none before the start. -/
structure Trimmed (db₀ : Db) (min max start : UInt64) (db : Db) : Prop extends Thinned db₀ min max start db where
  outside : ∀ i, ¬(min ≤ i ∧ i ≤ max) → db.get (logKey i) = db₀.get (logKey i)
  ahead : ∀ i, HasLog db₀ i → start ≤ i → i ≤ max → min ≤ i
  done : ∀ i, min ≤ i → i ≤ max → i < start → ¬HasLog db i

theorem trimmed_refl (hform : Formed db₀) : Trimmed db₀ min max min db₀ where
  toThinned := thinned_refl hform
  outside _ _ := rfl
  ahead _ _ hmin _ := hmin
  done _ hmin _ hlt := absurd hlt (UInt64.not_lt.mpr hmin)

/-- What is removed of a walk leaves the logs outside the range. -/
theorem Trimmed.outside_remove (hh : Harmless db₀ min max) (h : Trimmed db₀ min max start db) {keys : List Bytes}
    (hsub : keys ⊆ visited max start db) {i : UInt64} (hi : ¬(min ≤ i ∧ i ≤ max)) :
    (remove keys db).get (logKey i) = db₀.get (logKey i) := by
  rw [← h.outside i hi]
  by_cases hmem : logKey i ∈ keys.map copied
  · -- It is log zero, and not there.
    rcases logKey_copied h.formed hsub hmem with hin | ⟨rfl, k, hk, hlong⟩
    · obtain ⟨hlog, hstart, hmax⟩ := (mem_visited_log h.formed).mp (hsub hin)
      exact absurd ⟨h.ahead i (h.subset _ hlog) hstart hmax, hmax⟩ hi
    · have hover := h.overruns ((mem_visited_conf h.formed).mp (hsub hk))
      have hnone : ¬HasLog db 0 := fun hlog => by
        have hmin : min = 0 := hh.zero k hover hlong (h.subset _ hlog)
        exact hi ⟨hmin ▸ UInt64.le_refl 0, UInt64.zero_le⟩
      rw [get_remove_of_mem hmem, Option.not_isSome_iff_eq_none.mp hnone]
  · exact get_remove_of_notMem hmem db

/-- The logs of the range that a walk does not find ahead are gone. -/
theorem Trimmed.not_hasLog_remove (h : Trimmed db₀ min max start db) {keys : List Bytes} {i : UInt64} (hmin : min ≤ i)
    (hmax : i ≤ max) (hkeys : logKey i ∈ visited max start db → logKey i ∈ keys) : ¬HasLog (remove keys db) i := by
  intro hlog
  obtain ⟨hnot, hlog⟩ := isSome_of_remove hlog
  by_cases hstart : start ≤ i
  · have hmem : logKey i ∈ keys := hkeys ((mem_visited_log h.formed).mpr ⟨hlog, hstart, hmax⟩)
    exact hnot (List.mem_map.mpr ⟨_, hmem, copied_logKey i⟩)
  · exact h.done i hmin hmax (UInt64.not_le.mp hstart) hlog

/-- A full walk at a stable key had something to delete before it. -/
theorem Trimmed.before (h : Trimmed db₀ min max start db) {k : Bytes}
    (hup : visited max start db = front ++ confKey k :: back) (hne : front ≠ []) :
    (∃ i, HasLog db₀ i ∧ min ≤ i ∧ i ≤ max) ∨ ∃ l, HasConf db₀ l ∧ l < k := by
  obtain ⟨x, hx⟩ := List.exists_mem_of_ne_nil front hne
  have hvisited := front_subset hup hx
  rcases formed_of_mem_visited h.formed hvisited with ⟨i, rfl⟩ | ⟨l, rfl⟩
  · obtain ⟨hlog, hstart, hmax⟩ := (mem_visited_log h.formed).mp hvisited
    have hlog₀ : HasLog db₀ i := h.subset _ hlog
    exact .inl ⟨i, hlog₀, h.ahead i hlog₀ hstart hmax, hmax⟩
  · have hconf : HasConf db₀ l := h.subset _ ((mem_visited_conf h.formed).mp hvisited).stored
    exact .inr ⟨l, hconf, confKey_lt_iff.mp (lt_of_mem_front hup hx)⟩

/-- A full walk leaves such a store to the next. -/
theorem Trimmed.full (hh : Harmless db₀ min max) (h : Trimmed db₀ min max start db)
    (hup : visited max start db = front ++ key :: back) (hne : front ≠ []) :
    Trimmed db₀ min max (copiedIndex key) (remove front db) := by
  refine ⟨h.remove (front_subset hup) (copiedIndex_le hup), fun i => h.outside_remove hh (front_subset hup), ?_, ?_⟩
  all_goals rcases formed_of_mem_visited h.formed (key_mem hup) with ⟨j, rfl⟩ | ⟨k, rfl⟩
  · rw [copiedIndex_logKey]
    have hj := (mem_visited_log h.formed).mp (key_mem hup)
    exact fun i hi hji hmax => h.ahead i hi (UInt64.le_trans hj.2.1 hji) hmax
  · exact hh.restart k (h.overruns ((mem_visited_conf h.formed).mp (key_mem hup))) (h.before hup hne)
  · rw [copiedIndex_logKey]
    exact fun i hmin hmax hij =>
      h.not_hasLog_remove hmin hmax fun hin => mem_front hup hin (logKey_lt_iff.mpr hij)
  · -- All logs come before a stable key.
    exact fun i hmin hmax _ => h.not_hasLog_remove hmin hmax fun hin => mem_front hup hin (logKey_lt_confKey i k)

/-- The last walk deletes what is left of the range. -/
theorem Trimmed.finish (hh : Harmless db₀ min max) (h : Trimmed db₀ min max start db) :
    RangeDeleted min max db₀ (remove (visited max start db) db) := by
  intro i
  split
  · rename_i hi
    exact Option.not_isSome_iff_eq_none.mp (h.not_hasLog_remove hi.1 hi.2 id)
  · rename_i hi
    exact h.outside_remove hh (List.Subset.refl _) hi

/-! ### A range that is not -/

theorem RangeDeleted.not_hasLog {r : Db} (h : RangeDeleted min max db r) {i : UInt64} (hlog : HasLog db i)
    (hgone : r.get (logKey i) = none) : min ≤ i ∧ i ≤ max := by
  by_contra hout
  have hget := h i
  rw [if_neg hout, hgone] at hget
  rw [HasLog, ← hget] at hlog
  cases hlog

/-- One walk that deletes no other log takes none for a long key. -/
theorem RangeDeleted.zero (hform : Formed db) (h : RangeDeleted min max db (remove (visited max min db) db)) {k : Bytes}
    (hk : Overruns db min max k) (hlong : 8 < k.length) (hlog : HasLog db 0) : min = 0 := by
  have hmem : logKey 0 ∈ (visited max min db).map copied :=
    List.mem_map.mpr ⟨confKey k, (mem_visited_conf hform).mpr hk, copied_long hlong⟩
  exact UInt64.le_antisymm (h.not_hasLog hlog (get_remove_of_mem hmem db)).1 UInt64.zero_le

/-- A second walk from a key at which the transaction was full deletes what it finds. -/
theorem ExactRange.restart (hform : Formed db) (h : ExactRange db min max) {k : Bytes} (hk : Overruns db min max k)
    (hbefore : (∃ i, HasLog db i ∧ min ≤ i ∧ i ≤ max) ∨ ∃ l, HasConf db l ∧ l < k) {i : UInt64} (hlog : HasLog db i)
    (hki : confIndex k ≤ i) (hmax : i ≤ max) : min ≤ i := by
  have hmem : confKey k ∈ visited max min db := (mem_visited_conf hform).mpr hk
  obtain ⟨front, back, hup⟩ := List.append_of_mem hmem
  have hne : front ≠ [] := by
    rcases hbefore with ⟨j, hj⟩ | ⟨l, hl, hlk⟩
    · exact List.ne_nil_of_mem (mem_front hup ((mem_visited_log hform).mpr hj) (logKey_lt_confKey j k))
    · have hover : Overruns db min max l := ⟨hl, hk.noLog, fun m hm hml => hk.noConf m hm fun hkm =>
        hml (hlk.trans hkm)⟩
      exact List.ne_nil_of_mem (mem_front hup ((mem_visited_conf hform).mpr hover) (confKey_lt_iff.mpr hlk))
  have hgone : (remove (visited max (confIndex k) (remove front db)) (remove front db)).get (logKey i) = none := by
    rw [← Option.not_isSome_iff_eq_none]
    intro hstill
    obtain ⟨hnot, hlog'⟩ := isSome_of_remove hstill
    have hmem := (mem_visited_log (hform.remove front)).mpr ⟨hlog', hki, hmax⟩
    exact hnot (List.mem_map.mpr ⟨_, hmem, copied_logKey i⟩)
  exact ((h _ _ _ _ (deleteRange_two hup hne)).not_hasLog hlog hgone).1

/-- One walk over the range, where log zero is not taken for a long key. -/
theorem rangeDeleted_oneWalk (hform : Formed db)
    (hzero : ∀ k, Overruns db min max k → 8 < k.length → HasLog db 0 → min = 0) :
    RangeDeleted min max db (remove (visited max min db) db) := by
  intro i
  split
  · rename_i hi
    exact Option.not_isSome_iff_eq_none.mp ((trimmed_refl hform).not_hasLog_remove hi.1 hi.2 id)
  · rename_i hi
    by_cases hmem : logKey i ∈ (visited max min db).map copied
    · rcases logKey_copied hform (List.Subset.refl _) hmem with hin | ⟨rfl, k, hk, hlong⟩
      · exact absurd ((mem_visited_log hform).mp hin).2 hi
      · have hnone : ¬HasLog db 0 := fun hlog => by
          have hmin : min = 0 := hzero k ((mem_visited_conf hform).mp hk) hlong hlog
          exact hi ⟨hmin ▸ UInt64.le_refl 0, UInt64.zero_le⟩
        rw [get_remove_of_mem hmem, Option.not_isSome_iff_eq_none.mp hnone]
    · exact get_remove_of_notMem hmem db

/-! ### By the faults -/

/-- No transaction is ever full. -/
def Unsplit (f : Faults) : Prop := ∀ t, f.modify t ≠ some .txnTooBig

/-- The stable keys that are overrun do no harm to the logs with these faults: where no
transaction is full, the walk does not start again. -/
def HarmlessUnder (f : Faults) (db : Db) (min max : UInt64) : Prop :=
  Harmless db min max ∨ Unsplit f ∧ ∀ k, Overruns db min max k → 8 < k.length → HasLog db 0 → min = 0

/-- A `DeleteRange` with given faults that returns without an error is exact where the
stable keys are harmless with them. -/
theorem rangeDeleted_under {f : Faults} {fuel t : Nat} {r : Db} (hform : Formed db) (hh : HarmlessUnder f db min max)
    (h : deleteRange f max fuel t min db = some (none, r)) : RangeDeleted min max db r := by
  rcases hh with hh | ⟨hnever, hzero⟩
  · exact deleteRange_rule (Trimmed db min max) (RangeDeleted min max db)
      (fun start db front key back hup hne h => h.full hh hup hne) (fun start db h => h.finish hh)
      (trimmed_refl hform) h
  · have hreturned := deleteRange_returns (fun start db' => start = min ∧ db' = db) (RangeDeleted min max db) ?_ ?_
      ⟨rfl, rfl⟩ h
    · rcases hreturned with ⟨-, hdeleted⟩ | ⟨herr, -⟩
      · exact hdeleted
      · exact absurd rfl herr
    · intro _ _ _ _ _ t hfault
      exact absurd hfault (hnever t)
    · rintro start db' ⟨rfl, rfl⟩
      exact rangeDeleted_oneWalk hform hzero

/-- **Where no transaction is full, `DeleteRange` removes exactly its range** if and only
if log zero is not taken for a long stable key. -/
theorem deleteRange_unsplit_iff (hform : Formed db) :
    (∀ f fuel t r, Unsplit f → deleteRange f max fuel t min db = some (none, r) → RangeDeleted min max db r) ↔
      ∀ k, Overruns db min max k → 8 < k.length → HasLog db 0 → min = 0 := by
  constructor
  · intro h k hk hlong hlog
    have hrun : deleteRange ⟨fun _ => none, fun _ => none, fun _ => none⟩ max 1 0 min db =
        some (none, remove (visited max min db) db) := deleteRange_one (fun _ _ => rfl) (fun _ => rfl) 0
    exact (h _ _ _ _ (fun _ hfull => by cases hfull) hrun).zero hform hk hlong hlog
  · intro hzero f fuel t r hnever hrun
    exact rangeDeleted_under hform (.inr ⟨hnever, hzero⟩) hrun

/-- **`DeleteRange` removes exactly its range**, wherever transactions are full, if and
only if the stable keys it overruns are harmless. -/
theorem deleteRange_exact_iff (hform : Formed db) : ExactRange db min max ↔ Harmless db min max := by
  constructor
  · intro h
    refine ⟨(deleteRange_unsplit_iff hform).mp fun f fuel t r _ => h f fuel t r, ?_⟩
    exact fun k hk hbefore i hlog hki hmax => h.restart hform hk hbefore hlog hki hmax
  · intro hh f fuel t r hrun
    exact rangeDeleted_under hform (.inl hh) hrun

end

/-! ### Logs beside the current term -/

def currentTerm : Bytes := ascii "CurrentTerm"

/-- A store with logs, and the value that Raft keeps under `CurrentTerm`. -/
def inTerm (logs : List UInt64) : Db :=
  overwrite indexCodec (SortedMap.empty.insert (confKey currentTerm) (uint64ToBytes 1)) logs

theorem inTerm_formed (logs : List UInt64) : Formed (inTerm logs) :=
  (formed_empty.insert_conf _ _).overwrite indexCodec logs

/-- A log beyond the range keeps the walk from the stable keys. -/
theorem deleteRange_exact_iff_inTerm : ExactRange (inTerm [1, 2, 3]) 1 2 := by
  have hno (k : Bytes) : ¬Overruns (inTerm [1, 2, 3]) 1 2 k := fun hk =>
    absurd (hk.noLog 3 (by unfold HasLog; decide) (by decide)) (by decide)
  exact (deleteRange_exact_iff (inTerm_formed _)).mpr ⟨fun k hk => absurd hk (hno k), fun k hk => absurd hk (hno k)⟩

/-- At the last logs the walk comes to `CurrentTerm`, which reads as index zero: when
the transaction is full there, the log before the range is deleted. -/
theorem not_deleteRange_exact : ¬∀ db min max, Formed db → ExactRange db min max := by
  intro h
  have hrun : ((deleteRange (fullAt 1) 2 2 0 2 (inTerm [1, 2])).map fun r => (r.1, r.2.get (logKey 1))) =
      some (none, none) := by decide
  obtain ⟨⟨err, r⟩, hr, heq⟩ := Option.map_eq_some_iff.mp hrun
  obtain ⟨rfl, hgone⟩ := Prod.mk.inj heq
  have hin := (h _ _ _ (inTerm_formed [1, 2]) _ _ _ _ hr).not_hasLog (by unfold HasLog; decide) hgone
  exact absurd hin.1 (by decide)

end AnarchoRedis.Raft
