import AnarchoRedis.Localstate.Await

/-! Locks that expire.

`LockKeys` writes its records with a time to live, `LockTTL`. When the database stops
showing such a record is its own affair, and a parameter here (`Shows`); what its
documentation says of it is that a record is gone once its time has run out (`Shows.Ends`),
and it keeps the time to the second (`Shows.Expires`).

A key is found locked as long as the database shows the record of the last call that
locked the prefixed key, of those since the key was unlocked (`found_iff`). `NewTransactor`
leaves `LockTTL` zero. Every record has then expired when it is written, so that
`AwaitUnlocked` finds nothing and returns at once (`awaitUnlocked_at_once`). -/
namespace AnarchoRedis.Localstate
open Base

/-! ### The database's clock -/

/-- Whether the database shows, at a time, a record that was written at another with a time
to live. All are in nanoseconds. -/
abbrev Shows := (written ttl now : Int) → Bool

/-- `time.Second`. -/
def second : Int := 1000000000

/-- A record is not shown when its time has run out, as the database says of `WithTTL`. -/
def Shows.Ends (shows : Shows) : Prop := ∀ written ttl now, written + ttl ≤ now → shows written ttl now = false

/-- The end is kept in whole seconds, so that up to one second before it the record is
there. -/
structure Shows.Expires (shows : Shows) : Prop where
  ends : shows.Ends
  kept : ∀ written ttl now, now + second ≤ written + ttl → shows written ttl now = true

/-- A database that keeps the second in which a record ends, and shows it before that. -/
def inSeconds : Shows := fun written ttl now => decide (now / second < (written + ttl) / second)

theorem expires_inSeconds : inSeconds.Expires where
  ends written ttl now h := by
    have hle := Int.ediv_le_ediv (show 0 < second by decide) h
    exact decide_eq_false (Int.not_lt.mpr hle)
  kept written ttl now h := by
    have hle := Int.ediv_le_ediv (show 0 < second by decide) h
    have hnext : (now + second) / second = now / second + 1 :=
      Int.add_ediv_of_dvd_right (Int.dvd_refl second)
    rw [hnext] at hle
    exact decide_eq_true hle

/-! ### Records -/

/-- A call of the store and the time at which it is made. -/
structure At where
  time : Int
  call : Call

/-- The records, and when they were written. -/
structure Store where
  db : Db := fun _ => none
  written : Bytes → Int := fun _ => 0

/-- Only `LockKeys` writes records. -/
def Store.apply (s : Store) (c : At) : Store where
  db := c.call.apply s.db
  written :=
    match c.call with
    | .lock keys => fun key => if keys.contains key then c.time else s.written key
    | .unlock _ => s.written

/-- The store after a run of calls. -/
def stored (run : List At) : Store := run.foldl Store.apply {}

/-- The calls since the last `UnlockKeys` that named the key, the latest first. -/
def sinceUnlockAt (k : Bytes) (run : List At) : List At := run.reverse.takeWhile fun c => !c.call.unlocks k

/-- The latest of them that locked the prefixed key. -/
def lastLockAt (k : Bytes) (run : List At) : Option At :=
  (sinceUnlockAt k run).find? fun c => c.call.locks (keyPrefix ++ k)

theorem sinceUnlockAt_concat (k : Bytes) (run : List At) (c : At) :
    sinceUnlockAt k (run ++ [c]) = if c.call.unlocks k then [] else c :: sinceUnlockAt k run := by
  rw [sinceUnlockAt, List.reverse_append, List.reverse_singleton, List.singleton_append, List.takeWhile_cons]
  cases c.call.unlocks k <;> rfl

theorem lastLockAt_concat (k : Bytes) (run : List At) (c : At) :
    lastLockAt k (run ++ [c]) =
      if c.call.unlocks k then none else if c.call.locks (keyPrefix ++ k) then some c else lastLockAt k run := by
  rw [lastLockAt, sinceUnlockAt_concat]
  split
  · rfl
  · rw [List.find?_cons]
    cases c.call.locks (keyPrefix ++ k) <;> rfl

theorem stored_concat (run : List At) (c : At) : stored (run ++ [c]) = (stored run).apply c := by
  rw [stored, List.foldl_append]
  rfl

section
variable (shows : Shows) (lockTTL : Int)

/-- What the database shows. -/
def Store.visible (s : Store) (now : Int) : Db := fun key =>
  if shows (s.written key) lockTTL now then s.db key else none

/-- What one call does to the record of a key. -/
theorem apply_visible (s : Store) (c : At) (now : Int) (k : Bytes) :
    ((s.apply c).visible shows lockTTL now (keyPrefix ++ k)).isSome =
      if c.call.unlocks k then false
      else if c.call.locks (keyPrefix ++ k) then shows c.time lockTTL now
      else (s.visible shows lockTTL now (keyPrefix ++ k)).isSome := by
  obtain ⟨time, call⟩ := c
  cases call with
  | lock keys =>
    by_cases hk : keys.contains (keyPrefix ++ k) = true
    · cases hshown : shows time lockTTL now with
      | true =>
        simp [Store.visible, Store.apply, Call.apply, lockKeys_apply, Call.unlocks, Call.locks,
          List.contains_iff_mem.mp hk, hshown]
      | false => simp [Store.visible, Store.apply, Call.unlocks, Call.locks, List.contains_iff_mem.mp hk, hshown]
    · have hnot : keyPrefix ++ k ∉ keys := fun hmem => hk (List.contains_iff_mem.mpr hmem)
      simp [Store.visible, Store.apply, Call.apply, lockKeys_apply, Call.unlocks, Call.locks, hnot]
  | unlock keys =>
    by_cases hk : k ∈ keys
    · simp [Store.visible, Store.apply, Call.apply, unlockKeys_apply, Call.unlocks, hk]
    · simp [Store.visible, Store.apply, Call.apply, unlockKeys_apply, Call.unlocks, Call.locks, hk]

theorem stored_visible (run : List At) (now : Int) (k : Bytes) :
    ((stored run).visible shows lockTTL now (keyPrefix ++ k)).isSome =
      (lastLockAt k run).any fun c => shows c.time lockTTL now := by
  induction run using List.reverseRecOn with
  | nil =>
    show (if shows 0 lockTTL now then (none : Option Bytes) else none).isSome = false
    rw [ite_self]
    rfl
  | append_singleton run c ih =>
    rw [stored_concat, apply_visible, ih, lastLockAt_concat]
    cases c.call.unlocks k with
    | true => rfl
    | false =>
      cases c.call.locks (keyPrefix ++ k) with
      | true => rfl
      | false => rfl

variable {shows}

/-- **A key is found locked exactly while the last lock of its prefixed form is shown**, of
those since it was last unlocked, whatever else was called in the meantime: not once the
time to live has run out, and always while a second or more of it is left. -/
theorem found_iff (hshows : shows.Expires) (run : List At) (now : Int) {k : Bytes} {keys : List Bytes} (hk : k ∈ keys) :
    (k ∈ waitFor keys ((stored run).visible shows lockTTL now) ↔
      ∃ c, lastLockAt k run = some c ∧ shows c.time lockTTL now = true) ∧
    (k ∈ waitFor keys ((stored run).visible shows lockTTL now) →
      ∃ c, lastLockAt k run = some c ∧ now < c.time + lockTTL) ∧
    ∀ c, lastLockAt k run = some c → now + second ≤ c.time + lockTTL →
      k ∈ waitFor keys ((stored run).visible shows lockTTL now) := by
  have hfound : k ∈ waitFor keys ((stored run).visible shows lockTTL now) ↔
      ∃ c, lastLockAt k run = some c ∧ shows c.time lockTTL now = true := by
    rw [waitFor, List.mem_filter, stored_visible, and_iff_right hk, Option.any_eq_true]
  refine ⟨hfound, fun hmem => ?_, fun c hc hleft => hfound.mpr ⟨c, hc, hshows.kept _ _ _ hleft⟩⟩
  obtain ⟨c, hc, hshown⟩ := hfound.mp hmem
  refine ⟨c, hc, Int.not_le.mp fun hover => ?_⟩
  rw [hshows.ends _ _ _ hover] at hshown
  cases hshown

end

/-- A lock of the prefixed key at 3.9 seconds, for two seconds, is found at 4.8 and not at
5.9. -/
theorem found_iff_lives :
    ascii "k" ∈ waitFor [ascii "k"]
      ((stored [⟨3900000000, .lock [keyPrefix ++ ascii "k"]⟩, ⟨4000000000, .unlock [ascii "l"]⟩]).visible inSeconds
        2000000000 4800000000) ∧
    ascii "k" ∉ waitFor [ascii "k"]
      ((stored [⟨3900000000, .lock [keyPrefix ++ ascii "k"]⟩, ⟨4000000000, .unlock [ascii "l"]⟩]).visible inSeconds
        2000000000 5900000000) := by
  constructor
  · exact (found_iff 2000000000 expires_inSeconds _ 4800000000 (List.mem_singleton_self _)).2.2
      ⟨3900000000, .lock [keyPrefix ++ ascii "k"]⟩ rfl (by decide)
  · intro hmem
    obtain ⟨c, hc, hlives⟩ :=
      (found_iff 2000000000 expires_inSeconds _ 5900000000 (List.mem_singleton_self _)).2.1 hmem
    cases hc
    exact absurd hlives (by decide)

/-! ### The store of the transactor -/

/-- `LockTTL`, which `NewTransactor` does not set. -/
def newLockTTL : Int := 0

theorem mem_of_lastLockAt {k : Bytes} {run : List At} {c : At} (h : lastLockAt k run = some c) : c ∈ run := by
  have hsince := List.mem_of_find?_eq_some h
  exact List.mem_reverse.mp ((List.takeWhile_sublist _).subset hsince)

/-- No record of a lock is ever seen. -/
theorem visible_eq_none {shows : Shows} (hends : shows.Ends) {run : List At} {now : Int}
    (hnow : ∀ c ∈ run, c.time ≤ now) (k : Bytes) :
    (stored run).visible shows newLockTTL now (keyPrefix ++ k) = none := by
  rw [← Option.not_isSome_iff_eq_none, stored_visible, Option.any_eq_true]
  rintro ⟨c, hc, hshown⟩
  have hover : c.time + newLockTTL ≤ now := by
    rw [newLockTTL, Int.add_zero]
    exact hnow c (mem_of_lastLockAt hc)
  rw [hends _ _ _ hover] at hshown
  cases hshown

section
variable {ε : Type}

/-- A first look that sees no record finds nothing, or fails. -/
theorem view_of_none {db : Db} (h : ∀ k, db (keyPrefix ++ k) = none) (fails : Bytes → Option ε) (keys : List Bytes) :
    view (get db fails) keys = .ok [] ∨ ∃ err, view (get db fails) keys = .error err := by
  induction keys with
  | nil => exact .inl rfl
  | cons key keys ih =>
    rw [view, get, h key]
    cases fails key with
    | none => exact ih
    | some err => exact .inr ⟨err, rfl⟩

/-- **With the store that `NewTransactor` makes `AwaitUnlocked` does not wait**: where
`Keys` gives the keys of the command, then whatever was locked, and whichever of its reads
fail, it returns nil without a subscription. -/
theorem awaitUnlocked_at_once {shows : Shows} (hends : shows.Ends) {run : List At} {now : Int}
    (hnow : ∀ c ∈ run, c.time ≤ now) (fails : Bytes → Option ε) (keys : List Bytes) (batches : List (List Update))
    (ends : Option ε) :
    awaitUnlocked (.ok keys) (get ((stored run).visible shows newLockTTL now) fails) batches ends = none := by
  rcases view_of_none (visible_eq_none hends hnow) fails keys with hview | ⟨err, hview⟩
  · simp only [awaitUnlocked, hview]
  · simp only [awaitUnlocked, hview]

end

/-- Not even for a key that was locked in the same moment, under every name. -/
theorem awaitUnlocked_at_once_locked :
    awaitUnlocked (.ok [ascii "k"])
      (get ((stored [⟨3, .lock [ascii "k", keyPrefix ++ ascii "k"]⟩]).visible inSeconds newLockTTL 3) fun _ => none) []
      (some ()) = none :=
  awaitUnlocked_at_once expires_inSeconds.ends (by decide) _ _ _ _

end AnarchoRedis.Localstate
