import AnarchoRedis.Txn.Guards

/-! When an acknowledged write is in the log.

`LockKeys` locks the keys of a write after the leader has executed it, so its own
message may be handled before its keys are locked, and a message ahead of its own
may unlock them. `durable`: in every run in which each `LockKeys` of a write
finds it appended, or finds among its keys one that guards it, every acknowledged
write is in the log. -/
namespace AnarchoRedis.Txn
open Base

section
variable {C : Type}

/-- Every write whose reply has been given to its client is in the log. -/
def Durable (s : State C) : Prop :=
  ∀ r ∈ s.delivered, r.cmd.isWrite = true → s.appended r.id = true

/-- Asked of `LockKeys` of a write: it is appended already, or one of its keys
will be unlocked by no message before it is. -/
def lockRule (s : State C) : Event C → Bool
  | .lock i =>
    match s.proxies i with
    | .selected r => !r.cmd.isWrite || s.appended r.id || r.cmd.keys.any fun k => s.clear r.id k
    | _ => true
  | _ => true

/-- A write is to wait for itself. -/
def ownDue (_ : State C) (r : Request) (id : Nat) : Prop := r.cmd.isWrite = true ∧ id = r.id

variable [DecidableEq C]

/-- `LockKeys` under its rule leaves the write held. -/
theorem held_lock {s s' : State C} {i : C} {r : Request} (h : Moves s (.lock i) s')
    (hp : s.proxies i = .selected r) (hr : lockRule s (.lock i) = true) (hw : r.cmd.isWrite = true) :
    Held s' r.id r.cmd.keys := by
  simp only [lockRule, hp, hw, Bool.not_true, Bool.false_or, Bool.or_eq_true, List.any_eq_true] at hr
  rcases hr with ha | ⟨k, hk, hclear⟩
  · exact .inl (appended_step h ha)
  · cases h with
    | lock _ x hx _ =>
      obtain rfl : r = x := by
        rw [hp] at hx
        exact Proxy.selected.inj hx
      have hlocked : lockKeys r.cmd.keys s.locked k = true := by simp [lockKeys, hk]
      exact .inr ⟨k, hk, hlocked, hclear⟩
    | noLock _ x hx hx' =>
      obtain rfl : r = x := by
        rw [hp] at hx
        exact Proxy.selected.inj hx
      rw [hw] at hx'
      cases hx'

/-- **Acknowledged writes are durable** in every run in which each `LockKeys` meets
its rule. -/
theorem durable {s : State C} (h : Reach step (fun s e => lockRule s e = true) (initial C) s) : Durable s := by
  have hinv : Awaits ownDue s := by
    refine h.invariant (Awaits ownDue) ⟨fun r hr => absurd hr List.not_mem_nil, fun i r left hp => ?_⟩ ?_
    · cases hp
    · intro s e s' hi hr hs
      refine awaits_step hi (step_moves hs) (fun r id _ hd => hd) ?_
      rintro i r rfl hp id ⟨hw, rfl⟩
      exact held_lock (step_moves hs) hp hr hw
  exact fun r hr hw => hinv.delivered r hr r.id ⟨hw, rfl⟩

/-! ### Two runs -/

/-- A lone write: its own message unlocks its key, and the reply goes out. -/
def loneWrite {C : Type} (i : C) : List (Event C) :=
  request i (setCommand "k" "1") true ++ [.append, .unlock, .append, .unlock, .see i (ascii "k"), .deliver i]

theorem durable_lone_write : ∃ s, Reach step (fun s e => lockRule s e = true) (initial (Fin 2)) s ∧
    s.delivered = [⟨0, setCommand "k" "1"⟩] ∧ Durable s := by
  obtain ⟨s, hs, hd⟩ := exists_reach_of_play step lockRule (fun _ _ h => h) (initial (Fin 2)) (loneWrite 0)
    (fun s => s.delivered == [⟨0, setCommand "k" "1"⟩]) (by decide)
  exact ⟨s, hs, by simpa using hd, durable hs⟩

/-- Two writes of one key: both execute, both lock, and the first one's message
unlocks the key for the second. -/
def overlappingWrites {C : Type} (i j : C) : List (Event C) :=
  request i (setCommand "k" "1") true ++ request j (setCommand "k" "2") true ++
    [.append, .unlock, .append, .unlock, .see j (ascii "k"), .deliver j]

/-- **Not every acknowledged write is in the log.** -/
theorem not_durable : ¬ ∀ s, Reach step Free (initial (Fin 2)) s → Durable s := by
  intro hall
  obtain ⟨s, hs, hf⟩ := exists_reach_of_play step (fun _ _ => true) (fun _ _ _ => trivial) (initial (Fin 2))
    (overlappingWrites 0 1) (fun s => s.delivered.any fun r => r.cmd.isWrite && !s.appended r.id) (by decide)
  obtain ⟨r, hr, hw⟩ := List.any_eq_true.mp hf
  rw [Bool.and_eq_true] at hw
  have ha := hall s hs r hr hw.1
  rw [ha] at hw
  exact absurd hw.2 (by decide)

end

end AnarchoRedis.Txn
