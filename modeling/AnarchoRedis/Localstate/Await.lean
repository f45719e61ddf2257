import Mathlib.Data.List.Dedup
import Mathlib.Data.List.Infix
import Mathlib.Data.List.TakeWhile
import AnarchoRedis.Localstate.Keylocker

/-! Waiting for locks.

`AwaitUnlocked` looks once at the lock records of a command's keys and then waits for the
updates of those it found, in batches, until each of them was named by an update that is
no lock. It drops the error of the first look, and takes any other update that names a
key for its removal: `awaitUnlocked_iff` says when its success stands for anything. What
it subscribes to are the keys themselves, while the records have a prefix before them, so
that it hears of a removal only where the prefixed key happens to begin with a key it
waits for (`wakes_iff`). -/
namespace AnarchoRedis.Localstate
open Base

/-- An update that the database tells its subscribers; that of a deletion has no value. -/
structure Update where
  key : Bytes
  value : Bytes
  deriving DecidableEq

/-- `strings.TrimPrefix`. -/
def trimPrefix (s pre : Bytes) : Bytes := if pre.isPrefixOf s then s.drop pre.length else s

/-- What `Get` answers. -/
inductive Got (ε : Type) where
  | value (v : Bytes)
  | notFound
  | failed (err : ε)

/-- How `Subscribe` returns: with the callback's `errDone`, or with what it returns by
itself. -/
inductive Ended (ε : Type) where
  | done
  | own (err : Option ε)
  deriving DecidableEq

section
variable {ε : Type}

/-- A read of a key's lock record: it fails, or answers from the database. -/
def get (db : Db) (fails : Bytes → Option ε) (key : Bytes) : Got ε :=
  match fails key with
  | some err => .failed err
  | none =>
    match db (keyPrefix ++ key) with
    | some v => .value v
    | none => .notFound

/-- The first look: the keys that are found locked. It stops at the first error. -/
def view (get : Bytes → Got ε) : List Bytes → Except ε (List Bytes)
  | [] => .ok []
  | key :: keys =>
    match get key with
    | .notFound => view get keys
    | .failed err => .error err
    | .value _ => (view get keys).map (key :: ·)

/-- The callback on a batch: what is left in the wait set. -/
def callback (waitForSet : List Bytes) (kv : List Update) : List Bytes :=
  kv.foldl (fun set k =>
    if k.value != sentinel then set.filter (· != trimPrefix k.key keyPrefix) else set) waitForSet

/-- `Subscribe`, which hands the batches to the callback until that is done, and how many
it hands over. When there are no more it ends by itself. -/
def subscribe (ends : Option ε) : List Bytes → List (List Update) → Ended ε × Nat
  | _, [] => (.own ends, 0)
  | set, kv :: rest =>
    if (callback set kv).isEmpty then (.done, 1)
    else ((subscribe ends (callback set kv) rest).1, (subscribe ends (callback set kv) rest).2 + 1)

/-- `errDone` is success. -/
def Ended.err : Ended ε → Option ε
  | .done => none
  | .own err => err

/-- The error of the first look is dropped. -/
def awaitUnlocked (keys : Except ε (List Bytes)) (get : Bytes → Got ε) (batches : List (List Update))
    (ends : Option ε) : Option ε :=
  match keys with
  | .error err => some err
  | .ok keys =>
    match view get keys with
    | .error _ => none
    | .ok [] => none
    | .ok (key :: waitFor) => (subscribe ends (key :: waitFor) batches).1.err

end

/-! ### What a subscription takes from the wait set -/

/-- The callback takes the key from the wait set. -/
def Update.frees (u : Update) (k : Bytes) : Bool := u.value != sentinel && trimPrefix u.key keyPrefix == k

/-- The update that tells of the removal of a key's lock record. -/
def removal (k : Bytes) : Update := ⟨keyPrefix ++ k, []⟩

/-- Every key of a set is named by an update that is no lock. -/
def Frees (set : List Bytes) (us : List Update) : Prop := ∀ k ∈ set, ∃ u ∈ us, u.frees k = true

/-- Every key of a set has its lock record removed. -/
def Removes (set : List Bytes) (us : List Update) : Prop := ∀ k ∈ set, removal k ∈ us

theorem trimPrefix_append (pre s : Bytes) : trimPrefix (pre ++ s) pre = s := by
  rw [trimPrefix, if_pos (List.isPrefixOf_iff_prefix.mpr (List.prefix_append pre s)), List.drop_left]

theorem removal_injective : Function.Injective removal := fun _ _ h =>
  List.append_cancel_left (congrArg Update.key h)

theorem removal_frees (k : Bytes) : (removal k).frees k = true := by
  rw [Update.frees, removal, trimPrefix_append, beq_self_eq_true, Bool.and_true]
  rfl

section
variable {set : List Bytes} {kv us us' : List Update}

theorem Frees.mono (h : Frees set us) (hsub : us ⊆ us') : Frees set us' := fun k hk =>
  let ⟨u, hu, hfrees⟩ := h k hk
  ⟨u, hsub hu, hfrees⟩

theorem Removes.frees (h : Removes set us) : Frees set us := fun k hk => ⟨removal k, h k hk, removal_frees k⟩

theorem Removes.mono (h : Removes set us) (hsub : us ⊆ us') : Removes set us' := fun k hk => hsub (h k hk)

theorem mem_callback {k : Bytes} : k ∈ callback set kv ↔ k ∈ set ∧ ∀ u ∈ kv, u.frees k = false := by
  induction kv generalizing set with
  | nil => simp [callback]
  | cons u kv ih =>
    have hstep : callback set (u :: kv) =
        callback (if u.value != sentinel then set.filter (· != trimPrefix u.key keyPrefix) else set) kv := rfl
    rw [hstep, ih, List.forall_mem_cons, ← and_assoc]
    refine and_congr_left' ?_
    cases hv : u.value != sentinel with
    | false => simp [Update.frees, hv]
    | true =>
      rw [if_pos rfl, List.mem_filter, bne_iff_ne, Update.frees, hv, Bool.true_and, beq_eq_false_iff_ne, ne_comm]

theorem callback_isEmpty : (callback set kv).isEmpty = true ↔ Frees set kv := by
  rw [List.isEmpty_iff, List.eq_nil_iff_forall_not_mem]
  refine forall_congr' fun k => ?_
  rw [mem_callback]
  simp

/-- What a batch leaves is what the rest has to free. -/
theorem frees_append : Frees set (kv ++ us) ↔ Frees (callback set kv) us := by
  refine forall_congr' fun k => ?_
  rw [mem_callback]
  constructor
  · rintro h ⟨hk, hnone⟩
    obtain ⟨u, hu, hfrees⟩ := h hk
    refine ⟨u, (List.mem_append.mp hu).resolve_left fun hkv => ?_, hfrees⟩
    rw [hnone u hkv] at hfrees
    cases hfrees
  · intro h hk
    by_cases hkv : ∃ u ∈ kv, u.frees k = true
    · obtain ⟨u, hu, hfrees⟩ := hkv
      exact ⟨u, List.mem_append_left us hu, hfrees⟩
    · obtain ⟨u, hu, hfrees⟩ := h ⟨hk, fun u hu => eq_false_of_ne_true fun hf => hkv ⟨u, hu, hf⟩⟩
      exact ⟨u, List.mem_append_right kv hu, hfrees⟩

end

section
variable {ε : Type} {ends : Option ε} {set : List Bytes} {batches : List (List Update)}

/-- A subscription that is done freed its wait set, with the batches it was given. -/
theorem subscribe_done (h : (subscribe ends set batches).1 = .done) :
    Frees set (batches.take (subscribe ends set batches).2).flatten := by
  induction batches generalizing set with
  | nil => cases h
  | cons kv rest ih =>
    simp only [subscribe] at h ⊢
    split at h
    · rename_i hempty
      rw [if_pos hempty]
      simpa using callback_isEmpty.mp hempty
    · rename_i hempty
      rw [if_neg hempty, List.take_succ_cons, List.flatten_cons, frees_append]
      exact ih h

/-- It is done with the batch that frees the last key, or before. -/
theorem subscribe_of_frees (ends : Option ε) (hne : set ≠ []) {n : Nat} (h : Frees set (batches.take n).flatten) :
    (subscribe ends set batches).1 = .done ∧ (subscribe ends set batches).2 ≤ n := by
  induction batches generalizing set n with
  | nil =>
    obtain ⟨k, hk⟩ := List.exists_mem_of_ne_nil set hne
    obtain ⟨u, hu, -⟩ := h k hk
    rw [List.take_nil] at hu
    cases hu
  | cons kv rest ih =>
    cases n with
    | zero =>
      obtain ⟨k, hk⟩ := List.exists_mem_of_ne_nil set hne
      obtain ⟨u, hu, -⟩ := h k hk
      cases hu
    | succ n =>
      rw [List.take_succ_cons, List.flatten_cons, frees_append] at h
      simp only [subscribe]
      split
      · exact ⟨rfl, Nat.succ_le_succ n.zero_le⟩
      · rename_i hempty
        obtain ⟨hdone, hle⟩ := ih (fun hnil => hempty (List.isEmpty_iff.mpr hnil)) h
        exact ⟨hdone, Nat.succ_le_succ hle⟩

/-- Otherwise it ends with what it ends with by itself. -/
theorem subscribe_own {err : Option ε} (h : (subscribe ends set batches).1 = .own err) : err = ends := by
  induction batches generalizing set with
  | nil =>
    cases h
    rfl
  | cons kv rest ih =>
    simp only [subscribe] at h
    split at h
    · cases h
    · exact ih h

theorem subscribe_done_iff (ends : Option ε) (hne : set ≠ []) :
    (subscribe ends set batches).1 = .done ↔ Frees set batches.flatten := by
  constructor
  · intro h
    exact (subscribe_done h).mono (List.take_prefix _ batches).flatten.subset
  · intro h
    rw [← List.take_length (l := batches)] at h
    exact (subscribe_of_frees ends hne h).1

end

/-! ### What success stands for -/

section
variable {ε : Type}

def Got.fails : Got ε → Bool
  | .failed _ => true
  | _ => false

/-- The first look got to the key, and saw no lock. -/
def SeenFree (get : Bytes → Got ε) (keys : List Bytes) (k : Bytes) : Prop :=
  k ∈ keys.takeWhile (fun key => !(get key).fails) ∧ get k = .notFound

/-- The updates that the callback was given. -/
def handled (get : Bytes → Got ε) (keys : List Bytes) (batches : List (List Update)) (ends : Option ε) :
    List Update :=
  match view get keys with
  | .error _ => []
  | .ok [] => []
  | .ok (key :: waitFor) => (batches.take (subscribe ends (key :: waitFor) batches).2).flatten

/-- The keys are known, and each was seen without a lock or its lock was removed later. -/
def Evidence (keys : Except ε (List Bytes)) (get : Bytes → Got ε) (batches : List (List Update))
    (ends : Option ε) : Prop :=
  ∃ ks, keys = .ok ks ∧ ∀ k ∈ ks, SeenFree get ks k ∨ removal k ∈ handled get ks batches ends

variable {db : Db} {fails : Bytes → Option ε} {ks : List Bytes} {batches : List (List Update)} {ends : Option ε}

theorem get_fails (k : Bytes) : (get db fails k).fails = (fails k).isSome := by
  rw [get]
  cases fails k with
  | some err => rfl
  | none => cases db (keyPrefix ++ k) <;> rfl

theorem get_eq_notFound {k : Bytes} (h : fails k = none) :
    get db fails k = .notFound ↔ (db (keyPrefix ++ k)).isSome = false := by
  rw [get, h]
  cases db (keyPrefix ++ k) with
  | none => exact iff_of_true rfl rfl
  | some v => exact iff_of_false nofun nofun

/-- A look without errors finds what is locked. -/
theorem view_eq (h : ∀ k ∈ ks, fails k = none) : view (get db fails) ks = .ok (waitFor ks db) := by
  induction ks with
  | nil => rfl
  | cons k ks ih =>
    obtain ⟨hk, hks⟩ := List.forall_mem_cons.mp h
    rw [view, get, hk, waitFor, List.filter_cons, ← waitFor]
    cases db (keyPrefix ++ k) with
    | none => exact ih hks
    | some v =>
      simp only [ih hks]
      rfl

theorem view_failed {get : Bytes → Got ε} {k : Bytes} (hk : k ∈ ks) (hfails : (get k).fails = true) :
    ∃ err, view get ks = .error err := by
  induction ks with
  | nil => cases hk
  | cons key ks ih =>
    have hrest (hget : (get key).fails = false) : ∃ err, view get ks = .error err := by
      refine ih ((List.mem_cons.mp hk).resolve_left ?_)
      rintro rfl
      exact absurd hfails (by rw [hget]; decide)
    rw [view]
    cases hget : get key with
    | failed err => exact ⟨err, rfl⟩
    | notFound => exact hrest (by rw [hget]; rfl)
    | value v =>
      obtain ⟨err, herr⟩ := hrest (by rw [hget]; rfl)
      exact ⟨err, by simp only [herr]; rfl⟩

/-- After a look without errors, the evidence is about the keys that were found. -/
theorem evidence_iff (h : ∀ k ∈ ks, fails k = none) :
    Evidence (.ok ks) (get db fails) batches ends ↔
      Removes (waitFor ks db) (handled (get db fails) ks batches ends) := by
  have hseen : ∀ k ∈ ks, (SeenFree (get db fails) ks k ↔ k ∉ waitFor ks db) := by
    intro k hk
    have hall : ks.takeWhile (fun key => !(get db fails key).fails) = ks := by
      refine List.takeWhile_eq_self_iff.mpr fun key hkey => ?_
      rw [get_fails, h key hkey]
      rfl
    rw [SeenFree, hall, get_eq_notFound (h k hk), waitFor, List.mem_filter]
    simp [hk]
  constructor
  · rintro ⟨ks', heq, hev⟩ k hk
    cases heq
    have hmem : k ∈ ks := List.mem_of_mem_filter hk
    exact (hev k hmem).resolve_left fun hfree => (hseen k hmem).mp hfree hk
  · intro hrem
    refine ⟨ks, rfl, fun k hk => ?_⟩
    by_cases hw : k ∈ waitFor ks db
    · exact .inr (hrem k hw)
    · exact .inl ((hseen k hk).mpr hw)

/-- A read that failed is no evidence. -/
theorem not_evidence {get : Bytes → Got ε} {k : Bytes} (hk : k ∈ ks) (hfails : (get k).fails = true) :
    ¬Evidence (.ok ks) get batches ends := by
  rintro ⟨ks', heq, hev⟩
  cases heq
  obtain ⟨err, hview⟩ := view_failed hk hfails
  rcases hev k hk with hfree | hrem
  · rw [hfree.2] at hfails
    cases hfails
  · rw [handled, hview] at hrem
    cases hrem

/-- What a subscription that ends without an error stands for. -/
theorem subscribe_sound_iff {set : List Bytes} (hne : set ≠ []) :
    ((subscribe ends set batches).1.err = none →
      Removes set (batches.take (subscribe ends set batches).2).flatten) ↔
      (ends = none → Frees set batches.flatten) ∧
        ∀ n, Frees set (batches.take n).flatten → Removes set (batches.take n).flatten := by
  cases hsub : (subscribe ends set batches).1 with
  | done =>
    refine ⟨fun h => ⟨fun _ => (subscribe_done_iff ends hne).mp hsub, fun n hn => ?_⟩,
      fun h _ => h.2 _ (subscribe_done hsub)⟩
    have hle := (subscribe_of_frees ends hne hn).2
    exact (h rfl).mono (List.take_prefix_take_left hle).flatten.subset
  | own err =>
    -- the keys are not all named, so that there is no removal of all of them either
    have hnot : ¬Frees set batches.flatten := fun hall => by
      rw [← subscribe_done_iff ends hne, hsub] at hall
      cases hall
    have hnone (n : Nat) : ¬Frees set (batches.take n).flatten := fun hn =>
      hnot (hn.mono (List.take_prefix n batches).flatten.subset)
    rw [Ended.err, subscribe_own hsub]
    exact ⟨fun h => ⟨fun hends => absurd (h hends).frees (hnone _), fun n hn => absurd hn (hnone n)⟩,
      fun h hends => absurd (h.1 hends) hnot⟩

/-- After a look without errors, what success stands for depends on the subscription. -/
theorem awaitUnlocked_ok_iff (h : ∀ k ∈ ks, fails k = none) :
    (awaitUnlocked (.ok ks) (get db fails) batches ends = none →
      Evidence (.ok ks) (get db fails) batches ends) ↔
      (ends = none → Frees (waitFor ks db) batches.flatten) ∧
        ∀ n, Frees (waitFor ks db) (batches.take n).flatten →
          Removes (waitFor ks db) (batches.take n).flatten := by
  rw [evidence_iff h, awaitUnlocked, handled, view_eq h]
  cases waitFor ks db with
  | nil => exact iff_of_true (fun _ => nofun) ⟨fun _ => nofun, fun _ _ => nofun⟩
  | cons w ws => exact subscribe_sound_iff (List.cons_ne_nil w ws)

/-- **Success stands for the locks being gone exactly where no read fails, `Subscribe`
does not end by itself without an error before every lock was named, and every batch
after which each lock was named by some update comes after their removal.** -/
theorem awaitUnlocked_iff (keys : Except ε (List Bytes)) (db : Db) (fails : Bytes → Option ε)
    (batches : List (List Update)) (ends : Option ε) :
    (awaitUnlocked keys (get db fails) batches ends = none → Evidence keys (get db fails) batches ends) ↔
      ∀ ks, keys = .ok ks → (∀ k ∈ ks, fails k = none) ∧
        (ends = none → Frees (waitFor ks db) batches.flatten) ∧
        ∀ n, Frees (waitFor ks db) (batches.take n).flatten →
          Removes (waitFor ks db) (batches.take n).flatten := by
  cases keys with
  | error err => exact iff_of_true nofun nofun
  | ok ks =>
    simp only [Except.ok.injEq, forall_eq']
    by_cases hfails : ∀ k ∈ ks, fails k = none
    · rw [and_iff_right hfails]
      exact awaitUnlocked_ok_iff hfails
    · refine iff_of_false (fun h => hfails fun k hk => ?_) fun h => hfails h.1
      by_contra hk'
      have hget : (get db fails k).fails = true := by rw [get_fails, Option.isSome_iff_ne_none]; exact hk'
      obtain ⟨err, hview⟩ := view_failed hk hget
      exact not_evidence hk hget (h (by rw [awaitUnlocked, hview]))

end

/-- **A read that fails is success.** -/
theorem not_awaitUnlocked : ¬∀ (keys : Except Unit (List Bytes)) (db : Db) (fails : Bytes → Option Unit)
    (batches : List (List Update)) (ends : Option Unit),
    awaitUnlocked keys (get db fails) batches ends = none → Evidence keys (get db fails) batches ends := by
  intro hall
  have hfails : (get (fun _ => none) (fun _ => some ()) (ascii "k") : Got Unit).fails = true := rfl
  exact not_evidence (List.mem_singleton_self (ascii "k")) hfails (hall (.ok [ascii "k"]) _ _ [] none rfl)

/-! ### What a subscription hears of -/

/-- The updates of a transaction, each key once. -/
def Call.updates : Call → List Update
  | .lock keys => keys.dedup.map fun key => ⟨key, sentinel⟩
  | .unlock keys => keys.dedup.map removal

/-- `AwaitUnlocked` subscribes to the keys that it waits for. -/
def matched (waitFor : List Bytes) (u : Update) : Bool := waitFor.any (·.isPrefixOf u.key)

/-- The subscription delivers what it matches, in the order of the transactions; in
what order the updates of one transaction come is left open. -/
def Delivers (waitFor : List Bytes) (calls : List Call) (us : List Update) : Prop :=
  ∃ groups : List (List Update), us = groups.flatten ∧
    List.Forall₂ (fun (c : Call) group => group.Perm (c.updates.filter (matched waitFor))) calls groups

/-- The subscription hears of every removal, and is done with the batch that has the last
of them or before. -/
structure Wakes (ε : Type) (waitFor : List Bytes) (batches : List (List Update)) : Prop where
  hears : Removes waitFor batches.flatten
  done : ∀ (ends : Option ε) (n : Nat), Removes waitFor (batches.take n).flatten →
    (subscribe ends waitFor batches).1 = .done ∧ (subscribe ends waitFor batches).2 ≤ n

theorem mem_of_delivers {set : List Bytes} {calls : List Call} {us : List Update} (h : Delivers set calls us)
    {u : Update} : u ∈ us ↔ (∃ c ∈ calls, u ∈ c.updates) ∧ matched set u = true := by
  obtain ⟨groups, rfl, hgroups⟩ := h
  induction hgroups with
  | nil => simp
  | @cons c group calls groups hperm _ ih =>
    rw [List.flatten_cons, List.mem_append, hperm.mem_iff, List.mem_filter, ih, ← or_and_right,
      List.exists_mem_cons_iff]

/-- The removal of a key is told by the calls that unlock it. -/
theorem removal_mem_updates {c : Call} {k : Bytes} : removal k ∈ c.updates ↔ c.unlocks k = true := by
  cases c with
  | lock keys =>
    refine iff_of_false (fun h => ?_) nofun
    obtain ⟨key, -, hkey⟩ := List.mem_map.mp h
    cases hkey
  | unlock keys =>
    rw [Call.updates, List.mem_map_of_injective removal_injective, List.mem_dedup, Call.unlocks,
      List.contains_iff_mem]

/-- What the store itself writes names a key as unlocked only by its removal. -/
theorem eq_removal_of_frees {c : Call} {u : Update} {k : Bytes} (hu : u ∈ c.updates) (h : u.frees k = true) :
    u = removal k := by
  cases c with
  | lock keys =>
    obtain ⟨key, -, rfl⟩ := List.mem_map.mp hu
    cases h
  | unlock keys =>
    obtain ⟨key, -, rfl⟩ := List.mem_map.mp hu
    rw [Update.frees, removal, trimPrefix_append, Bool.and_eq_true, beq_iff_eq] at h
    rw [h.2]

/-- **Where only the store writes, success is evidence** once no read fails and
`Subscribe` ends by itself with an error only. -/
theorem evidence_of_calls {ε : Type} {ks : List Bytes} {db : Db} {fails : Bytes → Option ε}
    {batches : List (List Update)} {ends : Option ε} {calls : List Call} (hfails : ∀ k ∈ ks, fails k = none)
    (hends : ends ≠ none) (hdelivers : Delivers (waitFor ks db) calls batches.flatten)
    (h : awaitUnlocked (.ok ks) (get db fails) batches ends = none) :
    Evidence (.ok ks) (get db fails) batches ends := by
  refine (awaitUnlocked_ok_iff hfails).mpr ⟨fun hnone => absurd hnone hends, fun n hn k hk => ?_⟩ h
  obtain ⟨u, hu, hfrees⟩ := hn k hk
  obtain ⟨⟨c, -, hc⟩, -⟩ := (mem_of_delivers hdelivers).mp ((List.take_prefix n batches).flatten.subset hu)
  exact eq_removal_of_frees hc hfrees ▸ hu

theorem matched_removal {set : List Bytes} {k : Bytes} :
    matched set (removal k) = true ↔ ∃ w ∈ set, w <+: keyPrefix ++ k := by
  simp [matched, removal, List.isPrefixOf_iff_prefix]

/-- **An unlock wakes its waiters exactly where every key that is waited for, with the
prefix before it, begins with one of them.** -/
theorem wakes_iff (ε : Type) {keys : List Bytes} {db : Db} (hne : waitFor keys db ≠ []) {calls : List Call}
    (hcalls : ∀ k ∈ waitFor keys db, ∃ c ∈ calls, c.unlocks k = true) {batches : List (List Update)}
    (hdelivers : Delivers (waitFor keys db) calls batches.flatten) :
    Wakes ε (waitFor keys db) batches ↔
      ∀ k ∈ waitFor keys db, ∃ w ∈ waitFor keys db, w <+: keyPrefix ++ k := by
  have hhears : Removes (waitFor keys db) batches.flatten ↔
      ∀ k ∈ waitFor keys db, ∃ w ∈ waitFor keys db, w <+: keyPrefix ++ k := by
    refine forall₂_congr fun k hk => ?_
    rw [mem_of_delivers hdelivers, matched_removal]
    obtain ⟨c, hc, hunlocks⟩ := hcalls k hk
    exact and_iff_right ⟨c, hc, removal_mem_updates.mpr hunlocks⟩
  rw [← hhears]
  exact ⟨Wakes.hears, fun h => ⟨h, fun ends _ hn => subscribe_of_frees ends hne hn.frees⟩⟩

/-- Every string begins with the empty key: who waits for it hears of every removal. -/
theorem wakes_iff_empty :
    Wakes Unit (waitFor [[], ascii "k"] fun _ => some sentinel)
      [[removal (ascii "k"), ⟨ascii "k", sentinel⟩], [removal []]] := by
  have hcalls : ∀ k ∈ waitFor [[], ascii "k"] fun _ => some sentinel,
      ∃ c ∈ [Call.unlock [ascii "k"], .lock [ascii "k"], .unlock [[]]], c.unlocks k = true := by decide
  have hdelivers : Delivers (waitFor [[], ascii "k"] fun _ => some sentinel)
      [.unlock [ascii "k"], .lock [ascii "k"], .unlock [[]]]
      [[removal (ascii "k"), ⟨ascii "k", sentinel⟩], [removal []]].flatten :=
    ⟨[[removal (ascii "k")], [⟨ascii "k", sentinel⟩], [removal []]], rfl,
      .cons (by decide) (.cons (by decide) (.cons (by decide) .nil))⟩
  exact (wakes_iff Unit (by decide) hcalls hdelivers).mpr (by decide)

/-- **The removal of a lock is not heard of.** -/
theorem not_wakes : ¬∀ (keys : List Bytes) (db : Db) (calls : List Call) (batches : List (List Update)),
    waitFor keys db ≠ [] → (∀ k ∈ waitFor keys db, ∃ c ∈ calls, c.unlocks k = true) →
    Delivers (waitFor keys db) calls batches.flatten → Wakes Unit (waitFor keys db) batches := by
  intro hall
  have hwakes := hall [ascii "k"] (fun _ => some sentinel) [.unlock [ascii "k"]] [] (by decide)
    (by decide) ⟨[[]], rfl, .cons (by decide) .nil⟩
  exact absurd (hwakes.hears (ascii "k") (by decide)) (by decide)

end AnarchoRedis.Localstate
