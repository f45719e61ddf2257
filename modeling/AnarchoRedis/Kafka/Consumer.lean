import AnarchoRedis.Base.Buffered

/-! The consumer of the transaction log.

`Run` polls and writes the values of the records to a buffered writer, one after the
other, until a poll comes back with errors, a write fails or the context is cancelled. It
does not write the records that come with errors, and it never flushes: what reaches the
writer below is the values, in order and without a gap, except for what the buffer holds
at the end (`run_passes_on`). -/
namespace AnarchoRedis.Kafka
open Base

/-- What `PollFetches` returns: the errors, and the values in the order of the iterator. -/
structure Fetches where
  errors : List Err
  values : List Bytes

/-- `Run`, given the polls it makes before the context is cancelled. Of the errors of a
poll it returns the first. The values of a poll are written one after the other, until a
write fails. -/
def run (cancelled : Err) (w : Buffered) : List Fetches → Err × Buffered
  | [] => (cancelled, w)
  | fetches :: rest =>
    match fetches.errors with
    | err :: _ => (err, w)
    | [] =>
      match w.deliver fetches.values with
      | (_, some err, w) => (err, w)
      | (_, none, w) => run cancelled w rest

/-- The values of the polls before the first that has errors. -/
def sentValues : List Fetches → List Bytes
  | [] => []
  | fetches :: rest =>
    match fetches.errors with
    | _ :: _ => []
    | [] => fetches.values ++ sentValues rest

/-- `Run` is one loop over the values. -/
theorem run_eq (cancelled : Err) (w : Buffered) (polls : List Fetches) :
    (run cancelled w polls).2 = (w.deliver (sentValues polls)).2.2 := by
  induction polls generalizing w with
  | nil => rfl
  | cons fetches rest ih =>
    rw [run, sentValues]
    rcases fetches.errors with _ | ⟨err, errs⟩
    · dsimp only
      rw [Buffered.deliver_append]
      rcases w.deliver fetches.values with ⟨n, _ | err, w'⟩
      · exact ih w'
      · rfl
    · rfl

/-- **The consumer passes the values on in order**, as far as the writer below takes them:
those of all polls before the first with errors, and none of that. Nothing flushes what
the buffer holds: where all of it fits nothing is passed on at all. -/
theorem run_passes_on (cancelled : Err) (w : Buffered) (polls : List Fetches) :
    ∃ taken, (run cancelled w polls).2.accepted = w.accepted ++ taken ∧ taken <+: (sentValues polls).flatten ∧
      (w.Sound → taken = (sentValues polls).flatten) ∧
      (w.err = none → (w.held ++ (sentValues polls).flatten).length ≤ w.size →
        (run cancelled w polls).2.wr = w.wr) := by
  obtain ⟨taken, haccepted, hfront, hall⟩ := w.deliver_accepts (sentValues polls)
  rw [run_eq]
  refine ⟨taken, haccepted, hfront, fun hsound => hall (hsound.deliver _).1, fun herr hroom => ?_⟩
  exact (Buffered.deliver_keeps herr hroom).2.wr

/-- The values of a poll that has an error are lost, and short ones stay in the buffer. -/
theorem run_passes_on_held :
    (run .eof (.new ⟨[], []⟩) [⟨[], [[1], [2, 3]]⟩, ⟨[.eof], [[4]]⟩]).2.accepted = [1, 2, 3] ∧
      (run .eof (.new ⟨[], []⟩) [⟨[], [[1], [2, 3]]⟩, ⟨[.eof], [[4]]⟩]).2.wr.out = [] := by
  obtain ⟨taken, haccepted, -, hsound, hkeeps⟩ :=
    run_passes_on .eof (.new ⟨[], []⟩) [⟨[], [[1], [2, 3]]⟩, ⟨[.eof], [[4]]⟩]
  rw [hsound ⟨rfl, rfl⟩] at haccepted
  exact ⟨haccepted, congrArg Writer.out (hkeeps rfl (by decide))⟩

end AnarchoRedis.Kafka
