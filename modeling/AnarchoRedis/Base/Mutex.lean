import Mathlib.Logic.Function.Basic
import AnarchoRedis.Base.Runs

/-! Programs around one mutex that is not reentrant.

A program is what a function does as far as the mutex goes: it locks, it unlocks, it
does something that may fail, and goes on accordingly. Any number of threads run such
programs, one after the other, in any interleaving. `Lock` waits while the mutex is
locked, also for the thread that holds it.

A program is *disciplined* when it never locks while it holds the lock, unlocks only
then, and returns without it; places where it locks, and outcomes of its actions, can be
left out of account. In every run of disciplined programs that goes past none of them, the
thread that holds the lock can take its next step (`disciplined_reach`,
`Disciplined.proceeds`). -/
namespace AnarchoRedis.Base.Mutex

inductive Prog where
  | ret (ok : Bool)
  | lock (next : Prog)
  | unlock (next : Prog)
  /-- Anything else, and how it goes on when that succeeds and when it fails. -/
  | act (done failed : Prog)
  deriving DecidableEq

namespace Prog

/-- A call, and what comes after it by whether it succeeded. -/
def bind : Prog → (Bool → Prog) → Prog
  | .ret ok, k => k ok
  | .lock p, k => .lock (p.bind k)
  | .unlock p, k => .unlock (p.bind k)
  | .act p q, k => .act (p.bind k) (q.bind k)

/-- `Lock`, with `Unlock` deferred. -/
def locked (p : Prog) : Prog := .lock (p.bind fun ok => .unlock (.ret ok))

/-- By whether the lock is held, and but for what is to `avoid`. -/
def disciplined (avoid : Prog → Bool → Bool) : Bool → Prog → Bool
  | held, .ret _ => !held
  | held, .lock p => !held && (avoid (.lock p) true || disciplined avoid true p)
  | held, .unlock p => held && disciplined avoid false p
  | held, .act p q =>
    (avoid (.act p q) true || disciplined avoid held p) && (avoid (.act p q) false || disciplined avoid held q)

end Prog

section
variable {G Op : Type}

structure State (G : Type) where
  holder : Option G := none
  /-- What is left of each thread's program. -/
  prog : G → Prog := fun _ => .ret true

def initial (G : Type) : State G := {}

inductive Event (G Op : Type) where
  /-- A thread that has returned starts another program. -/
  | start (g : G) (op : Op)
  | lock (g : G)
  | unlock (g : G)
  | act (g : G) (ok : Bool)
  deriving DecidableEq

/-- The event is a thread's next step in its program. -/
def Event.proceeds (g : G) : Event G Op → Prop
  | .start _ _ => False
  | .lock h | .unlock h | .act h _ => h = g

/-- The thread waits for a lock that it holds. -/
def WaitsForItself (s : State G) (g : G) : Prop := s.holder = some g ∧ ∃ p, s.prog g = .lock p

variable [DecidableEq G]

def State.go (s : State G) (g : G) (p : Prog) (holder : Option G) : State G := ⟨holder, Function.update s.prog g p⟩

section
variable (code : Op → Prog)

def step (s : State G) : Event G Op → Option (State G)
  | .start g op =>
    match s.prog g with
    | .ret _ => some (s.go g (code op) s.holder)
    | _ => none
  | .lock g =>
    match s.prog g, s.holder with
    | .lock p, none => some (s.go g p (some g))
    | _, _ => none
  | .unlock g =>
    match s.prog g, s.holder with
    | .unlock p, some _ => some (s.go g p none)
    | _, _ => none
  | .act g ok =>
    match s.prog g with
    | .act p q => some (s.go g (if ok then p else q) s.holder)
    | _ => none

/-- Only disciplined programs are started, and what is to be avoided does not occur. -/
def rule (avoid : Prog → Bool → Bool) (s : State G) : Event G Op → Bool
  | .start _ op => (code op).disciplined avoid false
  | .lock g => !avoid (s.prog g) true
  | .unlock _ => true
  | .act g ok => !avoid (s.prog g) ok

end

/-- What each thread still has to do fits whether it holds the lock. -/
def Disciplined (avoid : Prog → Bool → Bool) (s : State G) : Prop :=
  ∀ g, (s.prog g).disciplined avoid (decide (s.holder = some g)) = true

variable {code : Op → Prog} {avoid : Prog → Bool → Bool} {s s' : State G}

/-- A step of one thread, with what the others see of the lock unchanged. -/
theorem Disciplined.go (h : Disciplined avoid s) {g : G} {p : Prog} {holder : Option G}
    (hothers : ∀ k ≠ g, (holder = some k ↔ s.holder = some k))
    (hp : p.disciplined avoid (decide (holder = some g)) = true) :
    Disciplined avoid (s.go g p holder) := by
  intro k
  show (Function.update s.prog g p k).disciplined avoid (decide (holder = some k)) = true
  by_cases hk : k = g
  · subst hk
    rw [Function.update_self]
    exact hp
  · have hsame : decide (holder = some k) = decide (s.holder = some k) := decide_eq_decide.mpr (hothers k hk)
    rw [Function.update_of_ne hk, hsame]
    exact h k

theorem disciplined_step {e : Event G Op} (h : Disciplined avoid s) (hrule : rule code avoid s e = true)
    (hstep : step code s e = some s') : Disciplined avoid s' := by
  cases e with
  | start g op =>
    simp only [step] at hstep
    split at hstep
    · rename_i ok hg
      cases hstep
      have hfree := h g
      rw [hg, Prog.disciplined, Bool.not_eq_true'] at hfree
      exact h.go (fun _ _ => Iff.rfl) (by rw [hfree]; exact hrule)
    · cases hstep
  | lock g =>
    simp only [step] at hstep
    split at hstep
    · rename_i p hg hnone
      cases hstep
      have hp := h g
      rw [hg, Prog.disciplined, Bool.and_eq_true, Bool.or_eq_true] at hp
      rw [rule, hg, Bool.not_eq_true'] at hrule
      have hnext := hp.2.resolve_left (by rw [hrule]; exact Bool.false_ne_true)
      refine h.go (fun k hk => ?_) (by rw [decide_eq_true rfl]; exact hnext)
      rw [hnone, Option.some.injEq]
      exact iff_of_false (Ne.symm hk) nofun
    · cases hstep
  | unlock g =>
    simp only [step] at hstep
    split at hstep
    · rename_i p holder hg hsome
      cases hstep
      have hp := h g
      rw [hg, Prog.disciplined, Bool.and_eq_true, decide_eq_true_eq] at hp
      refine h.go (fun k hk => ?_) (by rw [decide_eq_false nofun]; exact hp.2)
      rw [hp.1, Option.some.injEq]
      exact iff_of_false nofun (Ne.symm hk)
    · cases hstep
  | act g ok =>
    simp only [step] at hstep
    split at hstep
    · rename_i p q hg
      cases hstep
      have hp := h g
      rw [hg, Prog.disciplined, Bool.and_eq_true, Bool.or_eq_true, Bool.or_eq_true] at hp
      rw [rule, hg, Bool.not_eq_true'] at hrule
      refine h.go (fun _ _ => Iff.rfl) ?_
      cases ok with
      | true => exact hp.1.resolve_left (by rw [hrule]; exact Bool.false_ne_true)
      | false => exact hp.2.resolve_left (by rw [hrule]; exact Bool.false_ne_true)
    · cases hstep

/-- The thread that holds the lock does not wait for it, and can take its next step. -/
structure Proceeds (code : Op → Prog) (s : State G) : Prop where
  waits : ∀ g, ¬WaitsForItself s g
  moves : ∀ g, s.holder = some g → ∃ e s', e.proceeds g ∧ step code s e = some s'

theorem Disciplined.proceeds (h : Disciplined avoid s) : Proceeds code s where
  waits g := by
    rintro ⟨hg, p, hp⟩
    have hnot := h g
    rw [hg, hp, decide_eq_true rfl] at hnot
    cases hnot
  moves g hg := by
    have hp := h g
    rw [hg, decide_eq_true rfl] at hp
    cases hprog : s.prog g with
    | ret ok =>
      rw [hprog] at hp
      cases hp
    | lock p =>
      rw [hprog] at hp
      cases hp
    | unlock p => exact ⟨.unlock g, _, rfl, by simp only [step, hprog, hg]; rfl⟩
    | act p q => exact ⟨.act g true, _, rfl, by simp only [step, hprog]; rfl⟩

/-- **Every run of disciplined programs keeps to the discipline**, as long as it goes past
nothing that they leave out of account. -/
theorem disciplined_reach {Rule : State G → Event G Op → Prop}
    (hrule : ∀ s e, Rule s e → rule code avoid s e = true) (h : Reach (step code) Rule (initial G) s) :
    Disciplined avoid s := by
  have hinit : Disciplined avoid (initial G) := fun _ => rfl
  exact h.invariant (Disciplined avoid) hinit fun _ _ _ hs hr => disciplined_step hs (hrule _ _ hr)

end

end AnarchoRedis.Base.Mutex
