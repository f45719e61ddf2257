import AnarchoRedis.Base.Critical
import AnarchoRedis.Replication.System

/-! The signal that replication has started.

`Broadcast` and `ReplicationStartedCh` share a channel that whoever comes first makes,
and a mutex around everything they do; `Broadcast` closes the channel and sets the flag
in a `sync.Once`. The guard of `StreamUpdates` loads the flag without the mutex, and who
waits on the channel does not need it either.

Whatever the interleaving there is one channel, nobody closes it twice, the flag is set
only once it is closed, and while nobody is inside, the flag, the channel and the calls of
`Broadcast` agree (`signal_latches`): outside the mutex the signal is the one flag that
`react` sets in one step. -/
namespace AnarchoRedis.Replication.Signal
open Base Critical

/-- The fields of `signal`, and the channels there are. -/
structure Fields where
  /-- `ch`, by its number. -/
  ch : Option Nat := none
  /-- The `sync.Once` has been done. -/
  once : Bool := false
  didSignal : Bool := false
  /-- How many channels have been made. -/
  made : Nat := 0
  /-- The channels that are closed. -/
  closed : List Nat := []
  /-- The channels that `ReplicationStartedCh` has returned. -/
  got : List Nat := []
  deriving DecidableEq

/-- `if s.ch == nil { s.ch = make(chan struct{}) }`. -/
def makeCh (s : Fields) : Option Fields :=
  match s.ch with
  | none => some {s with ch := some s.made, made := s.made + 1}
  | some _ => some s

/-- `close(s.ch)` in the `sync.Once`; to close a closed channel, or none, crashes. -/
def closeCh (s : Fields) : Option Fields :=
  if s.once then some s
  else
    match s.ch with
    | none => none
    | some ch => if s.closed.contains ch then none else some {s with closed := s.closed ++ [ch]}

/-- `s.didSignal.Store(true)` in the `sync.Once`. -/
def storeFlag (s : Fields) : Option Fields := some (if s.once then s else {s with didSignal := true})

/-- The `sync.Once` is done. -/
def doneOnce (s : Fields) : Option Fields := some {s with once := true}

/-- `return s.ch`. -/
def returnCh (s : Fields) : Option Fields := some {s with got := s.got ++ s.ch.toList}

inductive Op where
  | broadcast
  | replicationStartedCh
  deriving DecidableEq

def Op.code : Op → List (Fields → Option Fields)
  | .broadcast => [makeCh, closeCh, storeFlag, doneOnce]
  | .replicationStartedCh => [makeCh, returnCh]

/-- At any time. -/
structure Sound (s : Fields) : Prop where
  /-- There is one channel, and everyone gets it. -/
  made : s.made = s.ch.toList.length
  got : ∀ ch ∈ s.got, s.ch = some ch
  closed : s.closed = [] ∨ ∃ ch, s.ch = some ch ∧ s.closed = [ch]
  /-- Who sees the flag finds the channel closed. -/
  flag : s.didSignal = true → s.closed ≠ []

/-- While nobody is inside: a `Broadcast` is done, the flag is set and the channel
closed, or nothing of that. -/
structure Latched (done : List Op) (s : Fields) : Prop where
  once : s.once = done.contains .broadcast
  flag : s.didSignal = s.once
  closed : s.closed = if s.once then s.ch.toList else []
  made : s.once = true → s.ch ≠ none

section
variable {done : List Op} {s : Fields}

/-- Afterwards there is a channel, and nothing else has changed. -/
theorem makeCh_latched (hs : Sound s) (hl : Latched done s) :
    ∃ s' ch, makeCh s = some s' ∧ s'.ch = some ch ∧ Sound s' ∧ Latched done s' := by
  rw [makeCh]
  split
  · rename_i hnone
    have hnot : s.once = false := by
      by_contra honce
      exact hl.made (Bool.not_eq_false _ ▸ honce) hnone
    have hopen : s.closed = [] := by rw [hl.closed, hnot, if_neg Bool.false_ne_true]
    refine ⟨_, s.made, rfl, rfl, ⟨?_, fun ch hch => ?_, .inl hopen, hs.flag⟩, ⟨hl.once, hl.flag, ?_, ?_⟩⟩
    · rw [hs.made, hnone]
      rfl
    · have hgot := hs.got ch hch
      rw [hnone] at hgot
      cases hgot
    · rw [hopen, hnot, if_neg Bool.false_ne_true]
    · exact fun _ hch => by cases hch
  · rename_i ch hch
    exact ⟨s, ch, rfl, hch, hs, hl⟩

theorem broadcast_section (hs : Sound s) (hl : Latched done s) :
    Section Sound (Latched (done ++ [.broadcast])) Op.broadcast.code s := by
  obtain ⟨s', ch, hmake, hch, hs', hl'⟩ := makeCh_latched hs hl
  have hdone : (done ++ [Op.broadcast]).contains .broadcast = true := by simp
  refine ⟨s', hmake, hs', ?_⟩
  cases honce : s'.once with
  | true =>
    -- All of it has been done before.
    have hclose : closeCh s' = some s' := by rw [closeCh, if_pos honce]
    have hstore : storeFlag s' = some s' := by rw [storeFlag, if_pos honce]
    have hdo : doneOnce s' = some s' := by rw [doneOnce, ← honce]
    exact ⟨s', hclose, hs', s', hstore, hs', s', hdo, hs', by rw [honce, hdone], hl'.flag, hl'.closed, hl'.made⟩
  | false =>
    have hopen : s'.closed = [] := by rw [hl'.closed, honce, if_neg Bool.false_ne_true]
    have hclose : closeCh s' = some {s' with closed := [ch]} := by
      simp only [closeCh, honce, hch, hopen, List.contains_nil, Bool.false_eq_true, if_false, List.nil_append]
    refine ⟨_, hclose, ⟨hs'.made, hs'.got, .inr ⟨ch, hch, rfl⟩, fun _ => List.cons_ne_nil ch []⟩, ?_⟩
    refine ⟨{s' with closed := [ch], didSignal := true}, by rw [storeFlag, honce]; rfl, ?_, ?_⟩
    · exact ⟨hs'.made, hs'.got, .inr ⟨ch, hch, rfl⟩, fun _ => List.cons_ne_nil ch []⟩
    refine ⟨_, rfl, ⟨hs'.made, hs'.got, .inr ⟨ch, hch, rfl⟩, fun _ => List.cons_ne_nil ch []⟩, ?_⟩
    refine ⟨hdone.symm, rfl, ?_, fun _ => ?_⟩
    · rw [if_pos rfl, hch]
      rfl
    · rw [hch]
      exact Option.some_ne_none ch

theorem replicationStartedCh_section (hs : Sound s) (hl : Latched done s) :
    Section Sound (Latched (done ++ [.replicationStartedCh])) Op.replicationStartedCh.code s := by
  obtain ⟨s', ch, hmake, hch, hs', hl'⟩ := makeCh_latched hs hl
  refine ⟨s', hmake, hs', {s' with got := s'.got ++ [ch]}, by rw [returnCh, hch]; rfl, ?_, ?_⟩
  · refine ⟨hs'.made, fun c hc => ?_, hs'.closed, hs'.flag⟩
    rcases List.mem_append.mp hc with hold | hnew
    · exact hs'.got c hold
    · rw [List.mem_singleton.mp hnew]
      exact hch
  · refine ⟨?_, hl'.flag, hl'.closed, hl'.made⟩
    rw [hl'.once]
    simp

/-- What a call is for `StreamUpdates`, which takes it in one step. -/
def Op.atomic (sh : Shared) : Op → Shared
  | .broadcast => {sh with didSignal := true}
  | .replicationStartedCh => sh

theorem foldl_atomic (done : List Op) (sh : Shared) :
    (done.foldl Op.atomic sh).didSignal = (sh.didSignal || done.contains .broadcast) := by
  induction done generalizing sh with
  | nil => exact (Bool.or_false _).symm
  | cons op done ih =>
    rw [List.foldl_cons, ih, List.contains_cons]
    cases op with
    | broadcast => exact (Bool.or_true _).symm
    | replicationStartedCh => rfl

/-- **The signal is a latch.** In every interleaving of calls of `Broadcast` and
`ReplicationStartedCh` nothing crashes, everyone gets the one channel, and the flag is set
only once that is closed; while nobody is inside, channel and flag say whether a
`Broadcast` is done, and the flag is as if each call were one step. -/
theorem signal_latches {G : Type} {s : Critical.State G Op Fields}
    (h : Reach (Critical.step Op.code) Free {data := {}} s) :
    s.crashed = false ∧ Sound s.data ∧
      (s.holder = none → Latched s.done s.data ∧ s.data.didSignal = (s.done.foldl Op.atomic {}).didSignal) := by
  have hsound : Sound {} := ⟨rfl, fun _ hch => (by cases hch), .inl rfl, fun hflag => (by cases hflag)⟩
  have hlatched : Latched [] {} := ⟨rfl, rfl, rfl, fun honce => by cases honce⟩
  have hkept : Kept Sound Latched s := by
    refine Critical.invariant ⟨hsound, hlatched⟩ (fun op done d hs hl => ?_) h
    cases op with
    | broadcast => exact broadcast_section hs hl
    | replicationStartedCh => exact replicationStartedCh_section hs hl
  refine ⟨hkept.running, hkept.always, fun hfree => ⟨hkept.free hfree, ?_⟩⟩
  rw [foldl_atomic, (hkept.free hfree).flag, (hkept.free hfree).once]
  rfl

end

/-- One waits, two broadcast. -/
theorem signal_latches_two : ∃ s : Critical.State Bool Op Fields,
    s.data.got = [0] ∧ s.crashed = false ∧ Latched s.done s.data := by
  obtain ⟨s, hs, hfound⟩ := exists_reach_of_play (Critical.step Op.code) (fun _ _ => true) (fun _ _ _ => trivial)
    ({data := {}} : Critical.State Bool Op Fields)
    [.lock true .replicationStartedCh, .step, .step, .unlock, .lock false .broadcast, .step, .step, .step, .step,
      .unlock, .lock true .broadcast, .step, .step, .step, .step, .unlock]
    (fun s => s.data.got == [0] && s.holder.isNone) (by decide)
  rw [Bool.and_eq_true, beq_iff_eq, Option.isNone_iff_eq_none] at hfound
  obtain ⟨hrunning, -, hfree⟩ := signal_latches hs
  exact ⟨s, hfound.1, hrunning, (hfree hfound.2).1⟩

end AnarchoRedis.Replication.Signal
