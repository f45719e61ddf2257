import Mathlib.Order.Bounds.Defs
import AnarchoRedis.Raft.Exact
import AnarchoRedis.Raft.Stable

/-! The first and the last index of the log.

`FirstIndex` seeks upwards from the prefix of the logs, below all of them, and the
stable keys lie above: what it finds first is the least log (`firstIndex_least`).
`LastIndex` seeks downwards from the prefix and seven bytes of ones. An index has
eight bytes, so the logs of the last 256 indices lie above that key, and are not
found (`lastIndex_iff`). -/
namespace AnarchoRedis.Raft
open Base Base.ByteOrder

/-- `ValidForPrefix` on the logs, and the index at the key. -/
def indexAt (found : Option Bytes) : UInt64 :=
  match found with
  | some key => if prefixLogs.isPrefixOf key then bytesToUint64 (key.drop 1) else 0
  | none => 0

/-- The error it returns is always nil. -/
def firstIndex (db : Db) : UInt64 := indexAt (db.seek prefixLogs)

/-- The key that `LastIndex` seeks. -/
def lastSeek : Bytes := prefixLogs ++ [0xff, 0xff, 0xff, 0xff, 0xff, 0xff, 0xff]

/-- The error it returns is always nil. -/
def lastIndex (db : Db) : UInt64 := indexAt (db.seekBack lastSeek)

/-- The least index of a log, or zero when there is none. -/
def IsFirst (db : Db) (i : UInt64) : Prop :=
  IsLeast {j | HasLog db j} i ∨ (∀ j, ¬HasLog db j) ∧ i = 0

/-- The greatest index of a log, or zero when there is none. -/
def IsLast (db : Db) (i : UInt64) : Prop :=
  IsGreatest {j | HasLog db j} i ∨ (∀ j, ¬HasLog db j) ∧ i = 0

theorem indexAt_logKey (i : UInt64) : indexAt (some (logKey i)) = i := bytesToUint64_uint64ToBytes i

theorem indexAt_confKey (k : Bytes) : indexAt (some (confKey k)) = 0 := rfl

theorem logKey_le_iff {i j : UInt64} : logKey i ≤ logKey j ↔ i ≤ j := by
  rw [← not_lt, logKey_lt_iff, UInt64.not_lt]

section
variable {db : Db}

/-! ### The first index -/

/-- Every key of a log lies above the prefix. -/
theorem prefixLogs_le_logKey (i : UInt64) : prefixLogs ≤ logKey i := by
  rw [← not_lt]
  intro hlt
  rcases List.cons_lt_cons_iff.mp hlt with hlt | ⟨-, hlt⟩
  · exact absurd hlt (by decide)
  · exact List.not_lt_nil _ hlt

/-- Where there is a log, `FirstIndex` finds one, and none comes before it. -/
theorem hasLog_firstIndex (hform : Formed db) {i : UInt64} (hi : HasLog db i) :
    HasLog db (firstIndex db) ∧ firstIndex db ≤ i := by
  rw [firstIndex]
  rcases hseek : db.seek prefixLogs with _ | x
  · exact absurd (prefixLogs_le_logKey i) (SortedMap.seek_none hseek hi)
  · obtain ⟨⟨hstored, -⟩, hleast⟩ := SortedMap.seek_isLeast hseek
    have hxi : x ≤ logKey i := hleast ⟨hi, prefixLogs_le_logKey i⟩
    rcases hform x hstored with ⟨j, rfl⟩ | ⟨k, rfl⟩
    · rw [indexAt_logKey]
      exact ⟨hstored, logKey_le_iff.mp hxi⟩
    · exact absurd hxi (not_le.mpr (logKey_lt_confKey i k))

theorem firstIndex_of_noLog (hform : Formed db) (hnone : ∀ j, ¬HasLog db j) : firstIndex db = 0 := by
  rw [firstIndex]
  rcases hseek : db.seek prefixLogs with _ | x
  · rfl
  · obtain ⟨⟨hstored, -⟩, -⟩ := SortedMap.seek_isLeast hseek
    rcases hform x hstored with ⟨j, rfl⟩ | ⟨k, rfl⟩
    · exact absurd hstored (hnone j)
    · exact indexAt_confKey k

/-- **`FirstIndex` returns the least index of a log**, and zero when there is none,
whatever the stable keys are. -/
theorem firstIndex_least (h : Formed db) : IsFirst db (firstIndex db) := by
  by_cases hsome : ∃ i, HasLog db i
  · obtain ⟨i, hi⟩ := hsome
    exact .inl ⟨(hasLog_firstIndex h hi).1, fun j hj => (hasLog_firstIndex h hj).2⟩
  · have hnone := not_exists.mp hsome
    exact .inr ⟨hnone, firstIndex_of_noLog h hnone⟩

/-! ### The last index -/

/-- The first of the last 256 indices. -/
def lastPage : UInt64 := 0xffffffffffffff00

theorem logKey_le_lastSeek {i : UInt64} : logKey i ≤ lastSeek ↔ i < lastPage := by
  have hnext : lastSeek ++ [0] = logKey lastPage := by decide
  rw [← not_lt, ← lt_append_zero_iff, hnext, logKey_lt_iff]

theorem lastSeek_lt_confKey (k : Bytes) : lastSeek < confKey k := List.cons_lt_cons_iff.mpr (.inl (by decide))

/-- What `LastIndex` finds: the greatest index before the last 256, if there is one. -/
theorem lastIndex_found (h : Formed db) :
    IsGreatest {j | HasLog db j ∧ j < lastPage} (lastIndex db) ∨
      (∀ j, HasLog db j → ¬j < lastPage) ∧ lastIndex db = 0 := by
  rw [lastIndex]
  rcases hseek : db.seekBack lastSeek with _ | x
  · exact .inr ⟨fun j hj hlt => SortedMap.seekBack_none hseek hj (logKey_le_lastSeek.mpr hlt), rfl⟩
  · obtain ⟨⟨hstored, hle⟩, hgreatest⟩ := SortedMap.seekBack_isGreatest hseek
    rcases h x hstored with ⟨i, rfl⟩ | ⟨k, rfl⟩
    · rw [indexAt_logKey]
      refine .inl ⟨⟨hstored, logKey_le_lastSeek.mp hle⟩, fun j hj => ?_⟩
      exact logKey_le_iff.mp (hgreatest ⟨hj.1, logKey_le_lastSeek.mpr hj.2⟩)
    · exact absurd hle (not_le.mpr (lastSeek_lt_confKey k))

/-- **`LastIndex` returns the greatest index of a log exactly when no log has one of the
last 256.** -/
theorem lastIndex_iff (h : Formed db) : IsLast db (lastIndex db) ↔ ∀ i, HasLog db i → i < lastPage := by
  have hbefore : lastIndex db < lastPage := by
    rcases lastIndex_found h with hfound | ⟨-, hzero⟩
    · exact hfound.1.2
    · rw [hzero]
      decide
  constructor
  · rintro (hlast | ⟨hnone, -⟩) i hi
    · exact UInt64.lt_of_le_of_lt (hlast.2 hi) hbefore
    · exact absurd hi (hnone i)
  · intro hall
    rcases lastIndex_found h with hfound | ⟨hnone, hzero⟩
    · exact .inl ⟨hfound.1.1, fun j hj => hfound.2 ⟨hj, hall j hj⟩⟩
    · exact .inr ⟨fun j hj => hnone j hj (hall j hj), hzero⟩

end

theorem firstIndex_least_inTerm : firstIndex (inTerm [5, 3, 260]) = 3 ∧ IsFirst (inTerm [5, 3, 260]) 3 :=
  ⟨by decide, firstIndex_least (inTerm_formed [5, 3, 260])⟩

/-- The logs of such a store are those given. -/
theorem hasLog_inTerm {logs : List UInt64} {i : UInt64} (h : HasLog (inTerm logs) i) : i ∈ logs := by
  by_contra hnot
  have hne : ∀ j ∈ logs, indexCodec.index j ≠ i := by
    intro j hj heq
    have hji : j = i := heq
    exact hnot (hji ▸ hj)
  have hget : (inTerm logs).get (logKey i) = none := by
    rw [inTerm, get_overwrite_log indexCodec hne, SortedMap.get_insert, if_neg (logKey_ne_confKey i currentTerm)]
    rfl
  rw [HasLog, hget] at h
  cases h

theorem lastIndex_iff_inTerm : lastIndex (inTerm [5, 3]) = 5 ∧ IsLast (inTerm [5, 3]) 5 := by
  refine ⟨by decide, (lastIndex_iff (inTerm_formed [5, 3])).mpr fun i hi => ?_⟩
  rcases List.mem_pair.mp (hasLog_inTerm hi) with rfl | rfl
  · decide
  · decide

/-- **The last log of all is not found.** -/
theorem not_lastIndex : ¬∀ db, Formed db → IsLast db (lastIndex db) := by
  intro hall
  have hlog : HasLog (inTerm [0xffffffffffffffff]) 0xffffffffffffffff := by
    unfold HasLog
    decide
  have hzero : lastIndex (inTerm [0xffffffffffffffff]) = 0 := by decide
  have hlast := hall _ (inTerm_formed [0xffffffffffffffff])
  rw [hzero] at hlast
  rcases hlast with hlast | ⟨hnone, -⟩
  · exact absurd (hlast.2 hlog) (by decide)
  · exact hnone _ hlog

end AnarchoRedis.Raft
