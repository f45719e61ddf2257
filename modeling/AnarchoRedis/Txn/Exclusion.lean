import Mathlib.Data.Fintype.Basic
import AnarchoRedis.Txn.Steps

/-! When writes of one key exclude each other.

Nothing in `proxy` looks at a lock before the request goes to the leader, so two
connections that have each read a write of one key send both. What keeps them
apart can only be the order in which the clients submit them: `serialRule` asks
of each write request that, when it is read, every write of one of its keys that
a connection still holds or the leader has executed is in the log. Then at most
one write of each key is executed and not yet appended, and none is sent while
another is (`exclusive`). -/
namespace AnarchoRedis.Txn
open Base

/-- Not two writes of one key. -/
def Command.apart (c d : Command) : Bool := !(c.isWrite && d.isWrite && c.shares d)

theorem apart_comm (c d : Command) : c.apart d = d.apart c := by
  have hshares : c.shares d = d.shares c := by
    rw [Bool.eq_iff_iff]
    simp only [Command.shares, List.any_eq_true, List.contains_eq_mem, decide_eq_true_eq]
    constructor <;> rintro ⟨k, h, h'⟩ <;> exact ⟨k, h', h⟩
  rw [Command.apart, Command.apart, hshares, Bool.and_comm c.isWrite]

section
variable {C : Type}

/-- Accepted from a client and not in the log. -/
def Outstanding (s : State C) (w : Request) : Prop :=
  (∃ i, (s.proxies i).unsent = some w) ∨ (∃ i, (s.upstream i).unexecuted = some w) ∨
    (w ∈ s.executed ∧ s.appended w.id = false)

/-- Asked of reading a request: it is apart from every one that is outstanding. -/
def serialRule (s : State C) : Event C → Prop
  | .read _ cmd =>
    (∀ i, (s.proxies i).unsent.all (fun w => cmd.apart w.cmd) = true) ∧
    (∀ i, (s.upstream i).unexecuted.all (fun w => cmd.apart w.cmd) = true) ∧
    s.executed.all (fun w => s.appended w.id || cmd.apart w.cmd) = true
  | _ => True

instance [Fintype C] (s : State C) (e : Event C) : Decidable (serialRule s e) :=
  match e with
  | .read _ _ => inferInstanceAs (Decidable (_ ∧ _ ∧ _))
  | .forward _ | .execute _ _ | .reply _ | .select _ | .lock _ | .see _ _ | .deliver _ | .close _ | .append
  | .unlock | .stop => .isTrue trivial

theorem apart_of_outstanding {s : State C} {i : C} {cmd : Command} (hr : serialRule s (.read i cmd))
    {w : Request} (hw : Outstanding s w) : cmd.apart w.cmd = true := by
  obtain ⟨hsent, hexec, hdone⟩ := hr
  rcases hw with ⟨j, hj⟩ | ⟨j, hj⟩ | ⟨hm, ha⟩
  · simpa [hj] using hsent j
  · simpa [hj] using hexec j
  · simpa [ha] using List.all_eq_true.mp hdone w hm

/-- At most one write of a key is executed and not in the log. -/
def AtMostOne (s : State C) : Prop :=
  ∀ w ∈ s.executed, ∀ w' ∈ s.executed, s.appended w.id = false → s.appended w'.id = false →
    w.cmd.apart w'.cmd = false → w = w'

variable [DecidableEq C]

/-- A write that can be sent now meets no other write of one of its keys that is
executed and not in the log. -/
def SendsAlone (s : State C) : Prop :=
  ∀ i r s', s.proxies i = .forwarding r → step s (.forward i) = some s' →
    ∀ w ∈ s.executed, s.appended w.id = false → r.cmd.apart w.cmd = false → w = r

/-- Only reading a request makes one outstanding. -/
theorem outstanding_step {s s' : State C} {e : Event C} {w : Request} (h : Moves s e s')
    (hw : Outstanding s' w) : Outstanding s w ∨ ∃ i cmd, e = .read i cmd ∧ w = ⟨s.fresh, cmd⟩ := by
  rcases hw with ⟨i, hi⟩ | ⟨i, hi⟩ | ⟨hm, ha⟩
  · rcases unsent_step h hi with hi | ⟨cmd, he, hcmd⟩
    · exact .inl (.inl ⟨i, hi⟩)
    · exact .inr ⟨i, cmd, he, hcmd⟩
  · rcases unexecuted_step h hi with hi | hi
    · exact .inl (.inr (.inl ⟨i, hi⟩))
    · exact .inl (.inl ⟨i, hi⟩)
  · have ha : s.appended w.id = false := by
      cases hb : s.appended w.id
      · rfl
      · rw [appended_step h hb] at ha
        cases ha
    rcases executed_step h with he | ⟨i, r, hr, he⟩
    · rw [he] at hm
      exact .inl (.inr (.inr ⟨hm, ha⟩))
    · rw [he, List.mem_append, List.mem_singleton] at hm
      rcases hm with hm | rfl
      · exact .inl (.inr (.inr ⟨hm, ha⟩))
      · exact .inl (.inr (.inl ⟨i, by rw [hr, Upstream.unexecuted]⟩))

/-- At most one write of a key is outstanding. -/
def Serial (s : State C) : Prop :=
  ∀ w w', Outstanding s w → Outstanding s w' → w.cmd.apart w'.cmd = false → w = w'

theorem serial_step {s s' : State C} {e : Event C} (hi : Serial s) (hr : serialRule s e)
    (h : Moves s e s') : Serial s' := by
  intro w w' hw hw' hapart
  rcases outstanding_step h hw with hw | ⟨i, cmd, rfl, rfl⟩
  · rcases outstanding_step h hw' with hw' | ⟨j, cmd, rfl, rfl⟩
    · exact hi w w' hw hw' hapart
    · rw [apart_comm, apart_of_outstanding hr hw] at hapart
      cases hapart
  · rcases outstanding_step h hw' with hw' | ⟨j, cmd', he, rfl⟩
    · rw [apart_of_outstanding hr hw'] at hapart
      cases hapart
    · cases he
      rfl

/-- **Writes of one key exclude each other** in every run in which each request is
read apart from those outstanding. -/
theorem exclusive {s : State C} (h : Reach step serialRule (initial C) s) : AtMostOne s ∧ SendsAlone s := by
  have hserial : Serial s := by
    refine h.invariant Serial ?_ fun s e s' hi hr hs => serial_step hi hr (step_moves hs)
    rintro w w' (⟨i, hw⟩ | ⟨i, hw⟩ | ⟨hw, _⟩)
    · cases hw
    · cases hw
    · cases hw
  refine ⟨fun w hw w' hw' ha ha' => hserial w w' (.inr (.inr ⟨hw, ha⟩)) (.inr (.inr ⟨hw', ha'⟩)), ?_⟩
  intro i r s' hp _ w hw ha hapart
  rw [apart_comm] at hapart
  exact hserial w r (.inr (.inr ⟨hw, ha⟩)) (.inl ⟨i, by rw [hp, Proxy.unsent]⟩) hapart

/-! ### Two runs -/

/-- A write of a key, and after it is in the log a write of the same key by
another client. -/
def writesInTurn {C : Type} (i j : C) : List (Event C) :=
  request i (setCommand "k" "1") true ++ [.append, .unlock, .append, .unlock] ++ request j (setCommand "k" "2") true

theorem exclusive_in_turn : ∃ s, Reach step serialRule (initial (Fin 2)) s ∧
    s.executed = [⟨0, setCommand "k" "1"⟩, ⟨1, setCommand "k" "2"⟩] ∧ AtMostOne s ∧ SendsAlone s := by
  obtain ⟨s, hs, he⟩ := exists_reach_of_play step (fun s e => decide (serialRule s e))
    (fun _ _ h => of_decide_eq_true h) (initial (Fin 2)) (writesInTurn 0 1)
    (fun s => s.executed == [⟨0, setCommand "k" "1"⟩, ⟨1, setCommand "k" "2"⟩]) (by decide)
  exact ⟨s, hs, by simpa using he, exclusive hs⟩

/-- **Two writes of one key can be executed with neither in the log.** -/
theorem not_exclusive : ¬ ∀ s, Reach step Free (initial (Fin 2)) s → AtMostOne s ∧ SendsAlone s := by
  intro hall
  obtain ⟨s, hs, hf⟩ := exists_reach_of_play step (fun _ _ => true) (fun _ _ _ => trivial) (initial (Fin 2))
    (request 0 (setCommand "k" "1") true ++ request 1 (setCommand "k" "2") true)
    (fun s => s.executed == [⟨0, setCommand "k" "1"⟩, ⟨1, setCommand "k" "2"⟩] && s.log.isEmpty) (by decide)
  simp only [Bool.and_eq_true, beq_iff_eq, List.isEmpty_iff] at hf
  obtain ⟨he, hl⟩ := hf
  have hone := (hall s hs).1 ⟨0, setCommand "k" "1"⟩ (by simp [he]) ⟨1, setCommand "k" "2"⟩ (by simp [he])
    (by simp [State.appended, hl]) (by simp [State.appended, hl]) (by decide)
  exact absurd hone (by decide)

end

end AnarchoRedis.Txn
