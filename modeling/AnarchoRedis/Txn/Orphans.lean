import AnarchoRedis.Txn.Steps

/-! When a lock has its release to come.

A key is unlocked by the next message that names it, and by nothing else. The
proxy locks the keys of a write after the leader has answered: by then the
write's own message may have been handled, and a write that changed nothing has
no message. `noOrphans`: in every run in which each `LockKeys` finds, for each of
its keys, a message that is still to be handled and names it, no lock is left
behind. -/
namespace AnarchoRedis.Txn
open Base

section
variable {C : Type}

/-- The messages that `handleMessages` has not finished with, the next one first. -/
def State.unhandled (s : State C) : List Entry := s.current.toList ++ s.pending

/-- A message that is still to be handled names the key. -/
def State.releases (s : State C) (k : Bytes) : Bool := s.unhandled.any fun e => e.cmd.keys.contains k

/-- Every locked key is named by a write that is on its way to the leader, or by one
that was executed and whose message is still to be handled. -/
def NoOrphans (s : State C) : Prop :=
  ∀ k, s.locked k = true →
    (∃ i w, s.upstream i = .request w ∧ w.cmd.isWrite = true ∧ k ∈ w.cmd.keys) ∨ s.releases k = true

/-- Asked of `LockKeys` of a write: each of its keys is named by a message that is
still to be handled. -/
def promptRule (s : State C) : Event C → Bool
  | .lock i =>
    match s.proxies i with
    | .selected r => !r.cmd.isWrite || r.cmd.keys.all fun k => s.releases k
    | _ => true
  | _ => true

variable [DecidableEq C]

/-- A message leaves the queue by unlocking its keys. -/
theorem releases_step {s s' : State C} {e : Event C} {k : Bytes} (h : Moves s e s') (hk : s.releases k = true) :
    s'.releases k = true ∨ s'.locked k = false := by
  rw [State.releases, State.unhandled] at hk
  cases stream_step h with
  | same hp hc _ _ | lock _ hp hc _ _ =>
    left
    rw [State.releases, State.unhandled, hp, hc, hk]
  | emit es hp hc _ _ =>
    left
    rw [State.releases, State.unhandled, hp, hc, ← List.append_assoc, List.any_append, hk, Bool.true_or]
  | append d hc hp hc' _ _ =>
    left
    rw [State.releases, State.unhandled, hc', ← hk, hc, hp]
    rfl
  | unlock d hc hp hc' _ hl =>
    rw [hc, Option.toList_some, List.singleton_append, List.any_cons, Bool.or_eq_true] at hk
    rcases hk with hd | hrest
    · right
      rw [hl, unlockKeys, hd, Bool.not_true, Bool.false_and]
    · left
      rw [State.releases, State.unhandled, hp, hc', Option.toList_none, List.nil_append, hrest]

/-- A key is locked by `LockKeys` of a write that names it. -/
theorem locked_step {s s' : State C} {e : Event C} {k : Bytes} (h : Moves s e s') (hk : s'.locked k = true) :
    s.locked k = true ∨
      ∃ i r, e = .lock i ∧ s.proxies i = .selected r ∧ r.cmd.isWrite = true ∧ k ∈ r.cmd.keys := by
  cases h with
  | execute i r effect _ =>
    rw [execute_locked] at hk
    exact .inl hk
  | lock i r hp hw =>
    simp only [lockKeys, Bool.or_eq_true, List.contains_iff_mem] at hk
    rcases hk with hk | hk
    · exact .inr ⟨i, r, rfl, hp, hw, hk⟩
    · exact .inl hk
  | unlock d _ _ =>
    simp only [unlockKeys, Bool.and_eq_true] at hk
    exact .inl hk.2
  | _ => exact .inl hk

/-- **No lock is left behind** in every run in which each `LockKeys` comes before the
release of its keys. -/
theorem noOrphans {s : State C} (h : Reach step (fun s e => promptRule s e = true) (initial C) s) :
    NoOrphans s := by
  have hinv : ∀ k, s.locked k = true → s.releases k = true := by
    refine h.invariant (fun s => ∀ k, s.locked k = true → s.releases k = true) (fun k hk => by cases hk) ?_
    intro s e s' hi hr hs k hk
    have hmoves := step_moves hs
    have hreleases : s.releases k = true := by
      rcases locked_step hmoves hk with hk | ⟨i, r, rfl, hp, hw, hmem⟩
      · exact hi k hk
      · simp only [promptRule, hp, hw, Bool.not_true, Bool.false_or, List.all_eq_true] at hr
        exact hr k hmem
    rcases releases_step hmoves hreleases with hreleases | hfree
    · exact hreleases
    · rw [hfree] at hk
      cases hk
  exact fun k hk => .inr (hinv k hk)

/-! ### Two runs -/

/-- The lock of a write that is locked before its message is handled. -/
theorem noOrphans_prompt_lock : ∃ s, Reach step (fun s e => promptRule s e = true) (initial (Fin 2)) s ∧
    s.locked (ascii "k") = true ∧ NoOrphans s := by
  obtain ⟨s, hs, hl⟩ := exists_reach_of_play step promptRule (fun _ _ h => h) (initial (Fin 2))
    (request 0 (setCommand "k" "1") true) (fun s => s.locked (ascii "k")) (by decide)
  exact ⟨s, hs, hl, noOrphans hs⟩

/-- A write whose message is handled before its keys are locked. -/
def overtakenLock {C : Type} (i : C) : List (Event C) :=
  [.read i (setCommand "k" "1"), .forward i, .execute i true, .append, .unlock, .append, .unlock,
    .reply i, .select i, .lock i]

/-- **A lock can be left behind**: nothing that would unlock the key is on its way. -/
theorem not_noOrphans : ¬ ∀ s, Reach step Free (initial (Fin 2)) s → NoOrphans s := by
  intro hall
  obtain ⟨s, hs, hf⟩ := exists_reach_of_play step (fun _ _ => true) (fun _ _ _ => trivial) (initial (Fin 2))
    (overtakenLock 0) (fun s => s.locked (ascii "k") && !s.releases (ascii "k") &&
      decide (∀ i, s.upstream i = .idle)) (by decide)
  simp only [Bool.and_eq_true, Bool.not_eq_true', decide_eq_true_eq] at hf
  obtain ⟨⟨hl, hfree⟩, hidle⟩ := hf
  rcases hall s hs (ascii "k") hl with ⟨i, w, hu, _⟩ | hreleases
  · rw [hidle i] at hu
    cases hu
  · rw [hfree] at hreleases
    cases hreleases

end

end AnarchoRedis.Txn
