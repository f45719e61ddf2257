import Mathlib.Logic.Function.Basic
import Mathlib.Data.List.Induction
import AnarchoRedis.Base.Bytes

/-! The lock store.

The store keeps its locks in a key-value database, which is a map whose
transactions are atomic. `LockKeys` writes the keys themselves; `UnlockKeys` and
the first look of `AwaitUnlocked` put a prefix before them. So a lock is never
seen under the key it was taken for, and is seen under another whenever that key
with the prefix is locked (`refines_iff`). -/
namespace AnarchoRedis.Localstate
open Base

abbrev Db := Bytes → Option Bytes

def sentinel : Bytes := ascii "OK"

def keyPrefix : Bytes := ascii "anarcho:key:"

def lockKeys (keys : List Bytes) (db : Db) : Db :=
  keys.foldl (fun db key => Function.update db key (some sentinel)) db

def unlockKeys (keys : List Bytes) (db : Db) : Db :=
  keys.foldl (fun db key => Function.update db (keyPrefix ++ key) none) db

/-- The keys that `AwaitUnlocked` finds locked at first, and waits for. -/
def waitFor (keys : List Bytes) (db : Db) : List Bytes :=
  keys.filter fun key => (db (keyPrefix ++ key)).isSome

inductive Call where
  | lock (keys : List Bytes)
  | unlock (keys : List Bytes)

def Call.names (k : Bytes) : Call → Bool
  | .lock keys | .unlock keys => keys.contains k

def Call.locks (k : Bytes) : Call → Bool
  | .lock keys => keys.contains k
  | .unlock _ => false

def Call.unlocks (k : Bytes) : Call → Bool
  | .lock _ => false
  | .unlock keys => keys.contains k

def Call.apply (db : Db) : Call → Db
  | .lock keys => lockKeys keys db
  | .unlock keys => unlockKeys keys db

/-- The database after a run of calls. -/
def after (run : List Call) : Db := run.foldl Call.apply fun _ => none

/-- The last call that named the key was a `LockKeys`. -/
def lastLocks (k : Bytes) (run : List Call) : Bool :=
  (run.filter (Call.names k)).getLast?.any (Call.locks k)

/-- The calls since the last `UnlockKeys` that named the key, the latest first. -/
def sinceUnlock (k : Bytes) (run : List Call) : List Call :=
  run.reverse.takeWhile fun c => !c.unlocks k

/-! ### What the calls do to one record -/

theorem foldl_update (f : Bytes → Bytes) (v : Option Bytes) (keys : List Bytes) (db : Db) (x : Bytes) :
    keys.foldl (fun db key => Function.update db (f key) v) db x =
      if x ∈ keys.map f then v else db x := by
  induction keys generalizing db with
  | nil => rfl
  | cons key keys ih =>
    rw [List.foldl_cons, ih]
    by_cases hx : x = f key
    · subst hx
      simp
    · simp [hx]

theorem lockKeys_apply (keys : List Bytes) (db : Db) (x : Bytes) :
    lockKeys keys db x = if x ∈ keys then some sentinel else db x := by
  have hfold := foldl_update id (some sentinel) keys db x
  rw [List.map_id] at hfold
  exact hfold

theorem unlockKeys_apply (keys : List Bytes) (db : Db) (k : Bytes) :
    unlockKeys keys db (keyPrefix ++ k) = if k ∈ keys then none else db (keyPrefix ++ k) := by
  rw [unlockKeys, foldl_update (keyPrefix ++ ·)]
  simp only [List.mem_map, List.append_cancel_left_eq, exists_eq_right]

/-- The record under the prefixed key is there after a call. -/
theorem apply_isSome (c : Call) (db : Db) (k : Bytes) :
    (c.apply db (keyPrefix ++ k)).isSome =
      (c.locks (keyPrefix ++ k) || (!c.unlocks k && (db (keyPrefix ++ k)).isSome)) := by
  cases c with
  | lock keys =>
    rw [Call.apply, lockKeys_apply]
    by_cases hk : keyPrefix ++ k ∈ keys
    · simp [Call.locks, hk]
    · simp [Call.locks, Call.unlocks, hk]
  | unlock keys =>
    rw [Call.apply, unlockKeys_apply]
    by_cases hk : k ∈ keys
    · simp [Call.locks, Call.unlocks, hk]
    · simp [Call.locks, Call.unlocks, hk]

/-! ### What a run leaves -/

theorem after_concat (run : List Call) (c : Call) : after (run ++ [c]) = c.apply (after run) := by
  rw [after, List.foldl_append]
  rfl

theorem sinceUnlock_concat (k : Bytes) (run : List Call) (c : Call) :
    sinceUnlock k (run ++ [c]) = if c.unlocks k then [] else c :: sinceUnlock k run := by
  rw [sinceUnlock, List.reverse_append, List.reverse_singleton, List.singleton_append, List.takeWhile_cons]
  cases c.unlocks k <;> rfl

/-- A record is seen when the prefixed key itself was locked since the last unlock. -/
theorem after_isSome (run : List Call) (k : Bytes) :
    (after run (keyPrefix ++ k)).isSome = (sinceUnlock k run).any (Call.locks (keyPrefix ++ k)) := by
  induction run using List.reverseRecOn with
  | nil => rfl
  | append_singleton run c ih =>
    rw [after_concat, apply_isSome, ih, sinceUnlock_concat]
    cases hc : c.unlocks k with
    | false => rfl
    | true =>
      cases c with
      | lock keys => cases hc
      | unlock keys => rfl

/-- The last call that named the key was a `LockKeys` when one named it since the last
unlock. -/
theorem lastLocks_eq (run : List Call) (k : Bytes) :
    lastLocks k run = (sinceUnlock k run).any (Call.locks k) := by
  induction run using List.reverseRecOn with
  | nil => rfl
  | append_singleton run c ih =>
    rw [lastLocks, List.filter_append, sinceUnlock_concat]
    by_cases hc : c.names k = true
    · rw [List.filter_cons_of_pos hc, List.filter_nil, List.getLast?_append_of_ne_nil _ (by simp)]
      cases c with
      | lock keys =>
        have hlocks : (Call.lock keys).locks k = true := hc
        simp [hlocks, Call.unlocks]
      | unlock keys =>
        have hunlocks : (Call.unlock keys).unlocks k = true := hc
        simp [hunlocks, Call.locks]
    · rw [List.filter_cons_of_neg hc, List.filter_nil, List.append_nil, ← lastLocks, ih]
      cases c with
      | lock keys =>
        have hlocks : (Call.lock keys).locks k = false := eq_false_of_ne_true hc
        simp [hlocks, Call.unlocks]
      | unlock keys =>
        have hunlocks : (Call.unlock keys).unlocks k = false := eq_false_of_ne_true hc
        simp [hunlocks, Call.locks]

/-! ### The store as a set of locked keys -/

/-- What is found locked is what was locked last. -/
def Refines (run : List Call) (k : Bytes) : Prop :=
  ∀ keys, k ∈ keys → (k ∈ waitFor keys (after run) ↔ lastLocks k run = true)

/-- One more call does not change what is found. -/
def Keeps (run : List Call) (c : Call) (k : Bytes) : Prop :=
  ∀ keys, k ∈ keys → (k ∈ waitFor keys (after (run ++ [c])) ↔ k ∈ waitFor keys (after run))

theorem mem_waitFor {keys : List Bytes} {k : Bytes} (hk : k ∈ keys) (run : List Call) :
    k ∈ waitFor keys (after run) ↔ (sinceUnlock k run).any (Call.locks (keyPrefix ++ k)) = true := by
  rw [waitFor, List.mem_filter, after_isSome]
  exact and_iff_right hk

/-- A statement about every list that holds the key is one about the key. -/
theorem forall_keys {k : Bytes} {p : Prop} : (∀ keys : List Bytes, k ∈ keys → p) ↔ p :=
  ⟨fun h => h [k] (List.mem_singleton_self k), fun h _ _ => h⟩

/-- **The store is the set of locked keys exactly where each key was locked together
with its prefixed form**, since it was last unlocked; and a call leaves a key it
does not name as it is exactly where it is no `LockKeys` of the prefixed form, or
that form is locked already. -/
theorem refines_iff (run : List Call) (k : Bytes) :
    (Refines run k ↔ (sinceUnlock k run).any (Call.locks k) =
      (sinceUnlock k run).any (Call.locks (keyPrefix ++ k))) ∧
    ∀ c : Call, c.names k = false → (Keeps run c k ↔
      c.locks (keyPrefix ++ k) = false ∨ (sinceUnlock k run).any (Call.locks (keyPrefix ++ k)) = true) := by
  refine ⟨?_, fun c hc => ?_⟩
  · have hiff : Refines run k ↔ ∀ keys : List Bytes, k ∈ keys →
        ((sinceUnlock k run).any (Call.locks (keyPrefix ++ k)) = true ↔
          (sinceUnlock k run).any (Call.locks k) = true) := by
      refine forall₂_congr fun keys hk => ?_
      rw [mem_waitFor hk, lastLocks_eq]
    rw [hiff, forall_keys, ← Bool.eq_iff_iff, eq_comm]
  · have hunlocks : c.unlocks k = false := by
      cases c with
      | lock keys => rfl
      | unlock keys => exact hc
    have hiff : Keeps run c k ↔ ∀ keys : List Bytes, k ∈ keys →
        ((c.locks (keyPrefix ++ k) || (sinceUnlock k run).any (Call.locks (keyPrefix ++ k))) = true ↔
          (sinceUnlock k run).any (Call.locks (keyPrefix ++ k)) = true) := by
      refine forall₂_congr fun keys hk => ?_
      rw [mem_waitFor hk, mem_waitFor hk, sinceUnlock_concat, hunlocks]
      rfl
    rw [hiff, forall_keys]
    cases c.locks (keyPrefix ++ k) <;> cases (sinceUnlock k run).any (Call.locks (keyPrefix ++ k)) <;> simp

/-- A key that is locked with its prefixed form is found, and another stays as it is. -/
theorem refines_iff_both :
    Refines [.lock [ascii "k", keyPrefix ++ ascii "k"]] (ascii "k") ∧
      Keeps [] (.lock [ascii "k"]) (ascii "l") :=
  ⟨(refines_iff _ _).1.mpr (by decide), ((refines_iff [] (ascii "l")).2 (.lock [ascii "k"]) (by decide)).mpr
    (.inl (by decide))⟩

/-- **A locked key is not found locked.** -/
theorem not_refines : ¬ ∀ (run : List Call) (k : Bytes), Refines run k := by
  intro hall
  have hfound := (hall [.lock [ascii "k"]] (ascii "k") [ascii "k"] (by decide)).mpr (by decide)
  exact absurd hfound (by decide)

end AnarchoRedis.Localstate
