import Mathlib.Data.List.TakeWhile
import AnarchoRedis.Txn.Guards

/-! When a read shows only what is in the log.

The leader executes a read, and whatever it executed before is in the reply; the
proxy then waits for the keys of the read, not for the writes. A write that is
executed and whose proxy has not come to `LockKeys` has locked nothing, and a
message ahead of a write's own may have unlocked its key. `committed`: in every
run in which each read that begins to wait finds every earlier write of a key of
its own appended, or held by one of its keys, the replies given to clients show
only writes that are in the log. -/
namespace AnarchoRedis.Txn
open Base

section
variable {C : Type}

/-- What the leader had executed when it came to the request. -/
def State.before (s : State C) (r : Request) : List Request := s.executed.takeWhile (· ≠ r)

/-- Every write of a key that was executed before a read of it whose reply has been
given to its client is in the log. -/
def Committed (s : State C) : Prop :=
  ∀ r ∈ s.delivered, r.cmd.isWrite = false →
    ∀ w ∈ s.before r, w.cmd.isWrite = true → w.cmd.shares r.cmd = true → s.appended w.id = true

/-- Asked of a read that begins to wait: each write that is in its reply is appended
already, or a key of the read is locked and will be unlocked by no message before
the write is appended. -/
def readRule (s : State C) : Event C → Bool
  | .lock i =>
    match s.proxies i with
    | .selected r =>
      r.cmd.isWrite || (s.before r).all fun w =>
        !(w.cmd.isWrite && w.cmd.shares r.cmd) || s.appended w.id ||
          r.cmd.keys.any fun k => s.locked k && s.clear w.id k
    | _ => true
  | _ => true

/-- A read is to wait for the writes that are in its reply. -/
def seenDue (s : State C) (r : Request) (id : Nat) : Prop :=
  r.cmd.isWrite = false ∧
    ∃ w ∈ s.before r, w.cmd.isWrite = true ∧ w.cmd.shares r.cmd = true ∧ w.id = id

variable [DecidableEq C]

/-! ### What is executed before a request -/

/-- Requests that have a reply are executed. -/
structure Executed (s : State C) : Prop where
  paired : Paired s
  replied : ∀ i r, s.upstream i = .reply r → r ∈ s.executed
  answered : ∀ i r, (s.proxies i).answered = some r → r ∈ s.executed
  delivered : ∀ r ∈ s.delivered, r ∈ s.executed

theorem mem_executed_step {s s' : State C} {e : Event C} {r : Request} (h : Moves s e s')
    (hr : r ∈ s.executed) : r ∈ s'.executed := by
  rcases executed_step h with he | ⟨_, _, _, he⟩
  · rw [he]
    exact hr
  · rw [he]
    exact List.mem_append_left _ hr

theorem replied_step {s s' : State C} {e : Event C} {i : C} {r : Request} (h : Moves s e s')
    (hr : s'.upstream i = .reply r) : s.upstream i = .reply r ∨ r ∈ s'.executed := by
  cases conn_step h i with
  | execute x effect he hx _ hu =>
    rw [hu] at hr
    cases hr
    subst he
    cases h with
    | execute _ y _ hy =>
      rw [hx] at hy
      cases hy
      exact .inr (by simp [execute_executed])
  | forward _ _ _ hu | reply _ _ _ _ _ hu =>
    rw [hu] at hr
    cases hr
  | same _ hu | read _ _ _ _ hu | select _ _ _ hu | lock _ _ _ _ hu | see _ _ _ _ _ _ hu | deliver _ _ _ hu
  | close _ hu => exact .inl (by rw [← hu, hr])

theorem executed_inv_step {s s' : State C} {e : Event C} (hi : Executed s) (h : Moves s e s') :
    Executed s' := by
  refine ⟨paired_step hi.paired h, ?_, ?_, ?_⟩
  · intro i r hu
    rcases replied_step h hu with hu | hr
    · exact mem_executed_step h (hi.replied i r hu)
    · exact hr
  · intro i r hp
    rcases answered_step h hp with hp | ⟨r', hp, hu⟩
    · exact mem_executed_step h (hi.answered i r hp)
    · have hu : s.upstream i = .reply r := by
        rcases hi.paired i r hp with hr | hr
        · rw [hr] at hu
          cases hu
        · exact hr
      exact mem_executed_step h (hi.replied i r hu)
  · intro r hr
    rcases delivered_step h with hd | ⟨i, x, hp, hd⟩
    · rw [hd] at hr
      exact mem_executed_step h (hi.delivered r hr)
    · rw [hd, List.mem_append, List.mem_singleton] at hr
      rcases hr with hr | rfl
      · exact mem_executed_step h (hi.delivered r hr)
      · exact mem_executed_step h (hi.answered i r (by rw [hp, Proxy.answered]))

/-- What is before an executed request does not change any more. -/
theorem before_step {s s' : State C} {e : Event C} {r : Request} (h : Moves s e s')
    (hr : r ∈ s.executed) : s'.before r = s.before r := by
  rcases executed_step h with he | ⟨_, x, _, he⟩
  · rw [State.before, he, State.before]
  · have hstop : ¬ ∀ a ∈ s.executed, decide (a ≠ r) = true := fun hall => by simpa using hall r hr
    rw [State.before, he, List.takeWhile_append, if_neg ?_, State.before]
    intro hlen
    exact hstop (List.takeWhile_eq_self_iff.mp ((List.takeWhile_prefix _).eq_of_length hlen))

/-! ### Delivered reads -/

/-- A read that begins to wait under its rule has what is due held. -/
theorem held_read {s s' : State C} {i : C} {r : Request} {id : Nat} (h : Moves s (.lock i) s')
    (hp : s.proxies i = .selected r) (hr : readRule s (.lock i) = true) (hd : seenDue s r id) :
    Held s' id r.cmd.keys := by
  obtain ⟨hread, w, hw, hwrite, hshares, rfl⟩ := hd
  simp only [readRule, hp, hread, Bool.false_or, List.all_eq_true] at hr
  have hheld : Held s w.id r.cmd.keys := by
    have hrw := hr w hw
    simp only [hwrite, hshares, Bool.and_self, Bool.not_true, Bool.false_or, Bool.or_eq_true,
      List.any_eq_true, Bool.and_eq_true] at hrw
    exact hrw.imp_right fun ⟨k, hk, hl, hc⟩ => ⟨k, hk, hl, hc⟩
  exact held_step h hheld

/-- **Reads show only committed data** in every run in which each read meets its
rule. -/
theorem committed {s : State C} (h : Reach step (fun s e => readRule s e = true) (initial C) s) :
    Committed s := by
  have hinv : Executed s ∧ Awaits seenDue s := by
    refine h.invariant (fun s => Executed s ∧ Awaits seenDue s) ⟨⟨?_, ?_, ?_, ?_⟩, ⟨?_, ?_⟩⟩ ?_
    · intro i r hp
      cases hp
    · intro i r hu
      cases hu
    · intro i r hp
      cases hp
    · intro r hr
      cases hr
    · intro r hr
      cases hr
    · intro i r left hp
      cases hp
    · rintro s e s' ⟨he, ha⟩ hr hs
      have h := step_moves hs
      refine ⟨executed_inv_step he h, awaits_step ha h ?_ ?_⟩
      · intro r id hpast hd
        have hexec : r ∈ s.executed := by
          rcases hpast with hr | ⟨i, hp⟩
          · exact he.delivered r hr
          · exact he.answered i r hp
        rw [seenDue, before_step h hexec] at hd
        exact hd
      · rintro i r rfl hp id hd
        exact held_read h hp hr hd
  intro r hr hread w hw hwrite hshares
  exact hinv.2.delivered r hr w.id ⟨hread, w, hw, hwrite, hshares, rfl⟩

/-! ### Two runs -/

/-- A write, locked; then a read of the same key, which waits for the write. -/
def readAfterLock {C : Type} (i j : C) : List (Event C) :=
  request i (setCommand "k" "1") true ++ request j (getCommand "k") false ++
    [.append, .unlock, .append, .unlock, .see j (ascii "k"), .deliver j]

theorem committed_read_after_lock : ∃ s, Reach step (fun s e => readRule s e = true) (initial (Fin 2)) s ∧
    s.delivered = [⟨1, getCommand "k"⟩] ∧ s.before ⟨1, getCommand "k"⟩ = [⟨0, setCommand "k" "1"⟩] ∧
    Committed s := by
  obtain ⟨s, hs, hd⟩ := exists_reach_of_play step readRule (fun _ _ h => h) (initial (Fin 2)) (readAfterLock 0 1)
    (fun s => s.delivered == [⟨1, getCommand "k"⟩] &&
      s.before ⟨1, getCommand "k"⟩ == [⟨0, setCommand "k" "1"⟩]) (by decide)
  simp only [Bool.and_eq_true, beq_iff_eq] at hd
  exact ⟨s, hs, hd.1, hd.2, committed hs⟩

/-- A write is executed; before its proxy locks the key, a read of the key is
executed and answered. -/
def readBeforeLock {C : Type} (i j : C) : List (Event C) :=
  [.read i (setCommand "k" "1"), .forward i, .execute i true] ++ request j (getCommand "k") false ++
    [.see j (ascii "k"), .deliver j]

/-- **Not every reply to a read shows only what is in the log.** -/
theorem not_committed : ¬ ∀ s, Reach step Free (initial (Fin 2)) s → Committed s := by
  intro hall
  obtain ⟨s, hs, hf⟩ := exists_reach_of_play step (fun _ _ => true) (fun _ _ _ => trivial) (initial (Fin 2))
    (readBeforeLock 0 1) (fun s => s.delivered == [⟨1, getCommand "k"⟩] &&
      s.before ⟨1, getCommand "k"⟩ == [⟨0, setCommand "k" "1"⟩] && s.log.isEmpty) (by decide)
  simp only [Bool.and_eq_true, beq_iff_eq, List.isEmpty_iff] at hf
  obtain ⟨⟨hd, hb⟩, hl⟩ := hf
  have ha := hall s hs ⟨1, getCommand "k"⟩ (by simp [hd]) (by decide) ⟨0, setCommand "k" "1"⟩
    (by simp [hb]) (by decide) (by decide)
  simp [State.appended, hl] at ha

end

end AnarchoRedis.Txn
