import AnarchoRedis.Replication.Offset

/-! The offsets that are acknowledged.

An acknowledgement carries the offset that was loaded for it. A tick loads it and writes
it in two steps, and `defer` loads it before the loop is entered, for the acknowledgement
that is written when the loop is left. So an acknowledgement carries the offset of the
moment it is sent as long as the offset stays as it is (`acks_current`), and each message
that is counted makes the last one wrong. -/
namespace AnarchoRedis.Replication
open Base Protocol

/-! ### What a step sends -/

/-- The acknowledgements that a step of a call sends. -/
def sent (c c' : Call) : List Int64 := c'.acks.drop c.acks.length

/-- The deferred acknowledgement is loaded and still to be sent. -/
def Loop.owes : Loop → Bool
  | .head | .reading | .got _ | .handling .. | .counting _ | .leaving _ => true
  | _ => false

theorem owes_of_running {l : Loop} (h : l.running = true) : l.owes = true := by
  cases l with
  | head | reading | got | handling => rfl
  | _ => cases h

section
variable {keys : Msg → List Bytes} {sh sh' : Shared} {c c' : Call} {ok : Bool} {o : Int64}

theorem not_mem_sent (hacks : c'.acks = c.acks) : o ∉ sent c c' := by
  rw [sent, hacks, List.drop_length]
  exact List.not_mem_nil

theorem sent_loop (h : LoopMoves keys sh c ok sh' c') (ho : o ∈ sent c c') : c.loop.owes = true ∧ o = c.deferred := by
  cases h with
  | lastWrite _ hl => exact ⟨by rw [hl]; rfl, by simpa [sent] using ho⟩
  | _ => exact absurd ho (not_mem_sent rfl)

theorem sent_ack (h : AckMoves sh c ok c') (ho : o ∈ sent c c') : c.ack = .writing o := by
  cases h with
  | write offset ha =>
    rw [sent, List.drop_left, List.mem_singleton] at ho
    rw [ha, ho]
  | _ => exact absurd ho (not_mem_sent rfl)

end

/-! ### What is loaded -/

/-- What a call has loaded for an acknowledgement is the offset. -/
structure Loaded (sh : Shared) (c : Call) : Prop where
  tick : ∀ o, c.ack = .writing o → o = sh.offset
  deferred : c.loop.owes = true → c.deferred = sh.offset

section
variable {keys : Msg → List Bytes} {sh sh' : Shared} {c c' : Call} {ok : Bool}

theorem loaded_idle (sh : Shared) : Loaded sh {} := ⟨fun _ ho => Ack.noConfusion ho, fun hl => Bool.noConfusion hl⟩

theorem Loaded.same (h : Loaded sh c) (hoffset : sh'.offset = sh.offset) : Loaded sh' c :=
  ⟨fun o ho => (h.tick o ho).trans hoffset.symm, fun hl => (h.deferred hl).trans hoffset.symm⟩

theorem loaded_loop (h : Loaded sh c) (hoffset : sh'.offset = sh.offset) (hmove : LoopMoves keys sh c ok sh' c') :
    Loaded sh' c' := by
  refine Loaded.same ?_ hoffset
  cases hmove with
  | start m rest => exact ⟨nofun, fun _ => rfl⟩
  | refuse | dial | giveUp | lastWrite => exact ⟨h.tick, nofun⟩
  | lastRead panics | lastFail panics => cases panics <;> exact ⟨h.tick, nofun⟩
  | turn hl | take _ _ hl | crash _ _ hl | resync _ _ _ hl | pass _ hl | skip _ hl | advance _ _ _ hl | append _ hl
  | unlock _ hl | finish _ hl | count _ hl => exact ⟨h.tick, fun _ => h.deferred (by rw [hl]; rfl)⟩
  | leave id hrun => exact ⟨h.tick, fun _ => h.deferred (owes_of_running hrun)⟩

theorem loaded_ack (h : Loaded sh c) (hmove : AckMoves sh c ok c') : Loaded sh c' := by
  cases hmove with
  | load => exact ⟨fun o ho => (Ack.writing.inj ho).symm, h.deferred⟩
  | _ => exact ⟨fun _ ho => Ack.noConfusion ho, h.deferred⟩

theorem loaded_call {e : CallEvent} (h : Loaded sh c) (hoffset : sh'.offset = sh.offset)
    (hstep : callStep keys sh c e = some (sh', c')) : Loaded sh' c' := by
  cases e with
  | loop ok => exact loaded_loop h hoffset (loop_moves hstep)
  | ack ok =>
    obtain ⟨c'', hack, heq⟩ := Option.map_eq_some_iff.mp hstep
    cases heq
    exact loaded_ack h (ackStep_moves hack)
  | connect replies =>
    simp only [callStep] at hstep
    split at hstep
    · cases hstep
      exact ⟨h.tick, fun hl => Bool.noConfusion hl⟩
    · cases hstep
  | cancel =>
    cases hstep
    exact ⟨h.tick, h.deferred⟩

theorem sent_call {e : CallEvent} {o : Int64} (h : Loaded sh c) (hstep : callStep keys sh c e = some (sh', c'))
    (ho : o ∈ sent c c') : o = sh.offset := by
  cases e with
  | loop ok =>
    obtain ⟨howes, rfl⟩ := sent_loop (loop_moves hstep) ho
    exact h.deferred howes
  | ack ok =>
    obtain ⟨c'', hack, heq⟩ := Option.map_eq_some_iff.mp hstep
    cases heq
    exact h.tick o (sent_ack (ackStep_moves hack) ho)
  | connect replies =>
    simp only [callStep] at hstep
    split at hstep
    · cases hstep
      exact absurd ho (not_mem_sent rfl)
    · cases hstep
  | cancel =>
    cases hstep
    exact absurd ho (not_mem_sent rfl)

end

section
variable {C : Type}

/-- The step changes the offset. -/
def changes (s : State C) : Event C → Bool
  | .call i (.loop _) =>
    match (s.calls i).loop with
    | .counting m => m.size != 0
    | .got m =>
      match dispatch m with
      | .resync _ offset => offset != s.shared.offset
      | _ => false
    | _ => false
  | _ => false

/-- Whatever the step sends carries the offset. -/
def SendsCurrent (s s' : State C) : Prop :=
  ∀ i, ∀ o ∈ sent (s.calls i) (s'.calls i), o = s.shared.offset

/-- No call has been made yet of a subscriber with any offset. -/
def fresh (C : Type) (sh : Shared) : State C := {shared := sh}

variable {keys : Msg → List Bytes} {s s' : State C}

theorem offset_of_not_changes {i : C} {e : CallEvent} {sh : Shared} {c : Call}
    (h : changes s (.call i e) = false) (hmove : CallMoves keys s.shared (s.calls i) e sh c) :
    sh.offset = s.shared.offset := by
  cases hmove with
  | connect | ack | ackRead | cancel => rfl
  | loop hloop =>
    cases hloop with
    | resync m id offset hl hd => simpa [changes, hl, hd] using h
    | count m hl =>
      have hsize : m.size = 0 := by simpa [changes, hl] using h
      show s.shared.offset + m.size = s.shared.offset
      rw [hsize, Int64.add_zero]
    | _ => rfl

variable [DecidableEq C]

theorem loaded_step {e : Event C} (h : ∀ i, Loaded s.shared (s.calls i)) (hchanges : changes s e = false)
    (hstep : step keys s e = some s') : ∀ i, Loaded s'.shared (s'.calls i) := by
  cases e with
  | emit m =>
    cases hstep
    intro i
    show Loaded s.shared ((s.calls i).receive _)
    unfold Call.receive
    split
    · exact ⟨(h i).tick, (h i).deferred⟩
    · exact h i
  | select db =>
    cases hstep
    exact fun i => (h i).same rfl
  | call i e =>
    obtain ⟨⟨sh, c⟩, hcall, rfl⟩ := Option.map_eq_some_iff.mp hstep
    have hoffset : sh.offset = s.shared.offset := offset_of_not_changes hchanges (call_moves hcall)
    intro j
    by_cases hj : j = i
    · subst hj
      show Loaded sh (Function.update s.calls j c j)
      rw [Function.update_self]
      exact loaded_call (h j) hoffset hcall
    · show Loaded sh (Function.update s.calls i c j)
      rw [Function.update_of_ne hj]
      exact (h j).same hoffset

theorem sendsCurrent_of_loaded {e : Event C} (h : ∀ i, Loaded s.shared (s.calls i))
    (hstep : step keys s e = some s') : SendsCurrent s s' := by
  intro j o ho
  cases e with
  | emit m =>
    cases hstep
    have hreceive (c : Call) (m : Msg) : (c.receive m).acks = c.acks := by
      unfold Call.receive
      split <;> rfl
    exact absurd ho (not_mem_sent (hreceive ..))
  | select db =>
    cases hstep
    exact absurd ho (not_mem_sent rfl)
  | call i e =>
    obtain ⟨⟨sh, c⟩, hcall, rfl⟩ := Option.map_eq_some_iff.mp hstep
    by_cases hj : j = i
    · subst hj
      replace ho : o ∈ sent (s.calls j) (Function.update s.calls j c j) := ho
      rw [Function.update_self] at ho
      exact sent_call (h j) hcall ho
    · replace ho : o ∈ sent (s.calls j) (Function.update s.calls i c j) := ho
      rw [Function.update_of_ne hj] at ho
      exact absurd ho (not_mem_sent rfl)

/-- The state after steps of one call. -/
def State.withCall (s : State C) (i : C) (p : Shared × Call) : State C :=
  {s with shared := p.1, calls := Function.update s.calls i p.2}

theorem withCall_calls (s : State C) (i : C) (p : Shared × Call) : (s.withCall i p).calls i = p.2 :=
  Function.update_self ..

theorem withCall_withCall (s : State C) (i : C) (p p' : Shared × Call) :
    (s.withCall i p).withCall i p' = s.withCall i p' := by
  rw [State.withCall, State.withCall, Function.update_idem]
  rfl

theorem step_call {i : C} {e : CallEvent} {p : Shared × Call} (h : callStep keys s.shared (s.calls i) e = some p) :
    step keys s (.call i e) = some (s.withCall i p) := by
  rw [step, h]
  rfl

/-- A run of one call is a run of the system. -/
theorem reach_call {i : C} {p : Shared × Call}
    (h : Reach (fun p e => callStep keys p.1 p.2 e) Free (s.shared, s.calls i) p) :
    Reach (step keys) Free s (s.withCall i p) := by
  induction h with
  | start =>
    rw [State.withCall, Function.update_eq_self]
    exact .start
  | @next p p' e _ _ hstep ih =>
    have hcall : callStep keys (s.withCall i p).shared ((s.withCall i p).calls i) e = some p' := by
      rw [withCall_calls]
      exact hstep
    have hnext := step_call hcall
    rw [withCall_withCall] at hnext
    exact ih.next trivial hnext

/-- After a message is counted the loop can be left, with what was loaded before. -/
theorem exists_stale {i : C} {m : Msg} (h : Loaded s.shared (s.calls i)) (hl : (s.calls i).loop = .counting m)
    (hm : m.size ≠ 0) : ∃ t t' e, Reach (step keys) Free s t ∧ step keys t e = some t' ∧ ¬SendsCurrent t t' := by
  have hdeferred : (s.calls i).deferred = s.shared.offset := h.deferred (by rw [hl]; rfl)
  obtain ⟨p, hp, hfound⟩ := exists_reach_of_play (fun p e => callStep keys p.1 p.2 e) (fun _ _ => true)
    (fun _ _ _ => trivial) (s.shared, s.calls i) [.loop true, .cancel, .loop true]
    (fun p => decide (p.2.loop = .leaving false ∧ p.2.deferred = s.shared.offset ∧ p.1.offset = s.shared.offset + m.size))
    (by simp [play, callStep, loopStep, hl, hdeferred])
  obtain ⟨hleaving, hloaded, hoffset⟩ := of_decide_eq_true hfound
  have hlast : callStep keys (s.withCall i p).shared ((s.withCall i p).calls i) (.loop true) =
      some (p.1, {p.2 with loop := .draining false, acks := p.2.acks ++ [p.2.deferred]}) := by
    rw [withCall_calls, callStep, loopStep, hleaving]
    rfl
  refine ⟨_, _, .call i (.loop true), reach_call hp, step_call hlast, fun hcurrent => hm ?_⟩
  have hsent := hcurrent i p.2.deferred
  rw [withCall_calls, withCall_calls] at hsent
  have hstale : p.2.deferred = p.1.offset := hsent (by simp [sent])
  rw [hloaded, hoffset] at hstale
  exact Int64.left_eq_add.mp hstale

/-- **Acknowledgements are current in every run in which the offset does not change**; and
whenever a message is counted a run can go on to send one that is not. -/
theorem acks_current {sh : Shared} (h : Reach (step keys) (fun s e => changes s e = false) (fresh C sh) s) :
    (∀ e s', step keys s e = some s' → SendsCurrent s s') ∧
      ∀ i m, (s.calls i).loop = .counting m → m.size ≠ 0 →
        ∃ t t' e, Reach (step keys) Free s t ∧ step keys t e = some t' ∧ ¬SendsCurrent t t' := by
  have hloaded : ∀ i, Loaded s.shared (s.calls i) := by
    refine h.invariant (fun s => ∀ i, Loaded s.shared (s.calls i)) (fun _ => loaded_idle sh) ?_
    exact fun _ _ _ hs hr hstep => loaded_step hs hr hstep
  exact ⟨fun e s' hstep => sendsCurrent_of_loaded hloaded hstep, fun i m hl hm => exists_stale (hloaded i) hl hm⟩

end

/-- The answer to `PSYNC`. -/
def continueLine : Msg := ⟨0, .simpleString, ascii "CONTINUE", [], 11⟩

/-- A call that reads a message, up to where it is to be counted. -/
def upToCount (cmd : Msg) : List (Event Unit) :=
  [.call () (.loop true), .call () (.connect [continueLine]), .call () (.loop true), .emit cmd] ++
    List.replicate 9 (.call () (.loop true))

/-- A tick has loaded the offset, and a command is about to be counted. -/
theorem acks_current_beforeCount : ∃ s : State Unit,
    ((s.calls ()).ack = .writing 100 ∧ (s.calls ()).loop = .counting {setCommand with pos := 0}) ∧
      (∀ e s', step (fun _ => []) s e = some s' → SendsCurrent s s') ∧
      ∃ t t' e, Reach (step fun _ => []) Free s t ∧ step (fun _ => []) t e = some t' ∧ ¬SendsCurrent t t' := by
  obtain ⟨s, hs, hfound⟩ := exists_reach_of_play (step fun _ => []) (fun s e => !changes s e)
    (fun _ _ h => by rwa [Bool.not_eq_true'] at h) (fresh Unit {offset := 100})
    (upToCount setCommand ++ [.call () (.ack true)])
    (fun s => decide ((s.calls ()).ack = .writing 100 ∧ (s.calls ()).loop = .counting {setCommand with pos := 0}))
    (by decide)
  have hstate := of_decide_eq_true hfound
  obtain ⟨hcurrent, hstale⟩ := acks_current hs
  exact ⟨s, hstate, hcurrent, hstale () _ hstate.2 (by decide)⟩

/-- **The last acknowledgement carries the offset from before the loop.** -/
theorem not_acks_current : ¬∀ (s s' : State Unit) (e : Event Unit),
    Reach (step fun _ => []) Free (fresh Unit {}) s → step (fun _ => []) s e = some s' → SendsCurrent s s' := by
  intro h
  obtain ⟨s, hs, hfound⟩ := exists_reach_of_play (step fun _ => []) (fun _ _ => true) (fun _ _ _ => trivial)
    (fresh Unit {}) (upToCount setCommand ++ [.call () (.loop true), .call () .cancel, .call () (.loop true)])
    (fun s => (step (fun _ => []) s (.call () (.loop true))).any fun s' =>
      decide (s.shared.offset = 27 ∧ 0 ∈ sent (s.calls ()) (s'.calls ())))
    (by decide)
  obtain ⟨s', hstep, hlast⟩ := (Option.any_eq_true _ _).mp hfound
  obtain ⟨hoffset, hsent⟩ := of_decide_eq_true hlast
  have hcurrent := h s s' _ hs hstep () 0 hsent
  rw [hoffset] at hcurrent
  exact absurd hcurrent (by decide)

end AnarchoRedis.Replication
